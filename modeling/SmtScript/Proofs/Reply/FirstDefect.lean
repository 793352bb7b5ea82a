import SmtScript.Proofs.Reply.Defects

/-!
The first defect of a reply. When several entries of a model are defective, or one in several
ways, the error tells of the first; the entries after it could be any others. An error about
a value tells of the value itself, although this has been written out and read again before
it is looked at.
-/

namespace SmtScript.Reply

variable {T : Theory} {r : Recognizer T} {count : Nat}

/-- A defect does not depend on the entries after it. -/
lemma FirstDefect.of_take {entries entries' : List Sexp} {k : Nat} {x : DecodeError}
    (h : FirstDefect r count entries k x) (htake : entries'.take (k + 1) = entries.take (k + 1)) :
    FirstDefect r count entries' k x := by
  have hat (j : Nat) (hj : j ≤ k) (y : DecodeError) :
      DefectAt r count entries' j y ↔ DefectAt r count entries j y := by
    have hget : entries'[j]? = entries[j]? := by
      have hsame := congrArg (·[j]?) htake
      simpa [List.getElem?_take, Nat.lt_succ_of_le hj] using hsame
    have hbefore : entries'.take j = entries.take j := by
      have hsame := congrArg (List.take j) htake
      simpa [List.take_take, Nat.min_eq_left (Nat.le_succ_of_le hj)] using hsame
    rw [DefectAt, DefectAt, hget, hbefore]
  refine ⟨(hat k (Nat.le_refl k) x).mpr h.1, fun j hj y hy => ?_⟩
  exact h.2 j hj y ((hat j (Nat.le_of_lt hj) y).mp hy)

/-! ### Values -/

/-- In arithmetic a value that has been read is refused only for what it is, never because it
could not be read again. -/
lemma readValue_canonical_eq_error {e : Sexp} (h : e.Canonical) {s : Arith.Srt}
    {x : ValueError} :
    Arith.readValue s e.text = .error x ↔
      (∀ v, ¬ Arith.Denotes s e v) ∧
        x = .malformed ("`" ++ e.text ++ "` is not a " ++ s.text ++ " value") := by
  rw [Arith.readValue_eq_error, h.readExact_text]
  simp

/-- Only an entry is refused for its value. -/
lemma exists_of_invalidValue {ctx : Context T} {t name sort text reason : Text}
    (h : decodeModel r ctx t = .error (.invalidValue name sort text reason)) :
    ∃ items rest, ∃ (d : Definition) (e : Entry T),
      Sexp.readOne t = .ok (.list items, rest) ∧ d.sexp ∈ items ∧ d.Names r ctx.length e ∧
        name = d.name ∧ sort = T.sortText e.sort ∧ text = d.value.text ∧
        T.readValue e.sort text = .error (.malformed reason) := by
  rcases decodeModel_eq_error.mp h with h | ⟨_, _, -, ⟨⟩⟩ | ⟨items, rest, hread, h⟩
  · unfold nextSexp at h
    split at h <;> cases h
  · rcases modelOfEntries_eq_error.mp h with ⟨k, ⟨entry, hentry, hdefect⟩, -⟩ | ⟨-, _, -, ⟨⟩⟩
    have hmem : entry ∈ items := mem_of_mem_withoutHead (List.mem_of_getElem? hentry)
    cases hdefect with
    | value hname _ _ hvalue =>
      exact ⟨items, rest, _, _, hread, hmem, hname, rfl, rfl, rfl, hvalue⟩

/-! ### The first defect -/

/-- **The first defect is reported, and nothing after it matters.** If an entry of a list that
is read for a model is defective, the error is that of the first such entry, and it stays the
same whatever the entries after that one are. If none is, the error can only be that a variable
is missing, and names the first such variable. In arithmetic a value is refused only if the
expression that stands there denotes none of the sort, and the reason says so. -/
theorem decodeModel_first_defect :
    (∀ {T : Theory} (r : Recognizer T) (ctx : Context T) t items rest,
      Sexp.readOne t = .ok (.list items, rest) →
        (∀ i y, DefectAt r ctx.length (withoutHead items) i y →
          ∃ k ≤ i, ∃ x, FirstDefect r ctx.length (withoutHead items) k x) ∧
        (∀ k x, FirstDefect r ctx.length (withoutHead items) k x →
          decodeModel r ctx t = .error x ∧
            ∀ t' items' rest', Sexp.readOne t' = .ok (.list items', rest') →
              (withoutHead items').take (k + 1) = (withoutHead items).take (k + 1) →
                decodeModel r ctx t' = .error x) ∧
        ((∀ i y, ¬ DefectAt r ctx.length (withoutHead items) i y) → ∀ x,
          decodeModel r ctx t = .error x ↔
            ∃ p, FirstMissing r ctx.length (withoutHead items) p ∧
              x = .missingVariable (missingName r p))) ∧
    ∀ (r : Recognizer arith) (ctx : Context arith) t name sort text reason,
      decodeModel r ctx t = .error (.invalidValue name sort text reason) →
        ∃ items rest, ∃ (d : Definition) (e : Entry arith),
          Sexp.readOne t = .ok (.list items, rest) ∧ d.sexp ∈ items ∧ d.Names r ctx.length e ∧
            name = d.name ∧ sort = Arith.Srt.text e.sort ∧ text = d.value.text ∧
            (∀ v, ¬ Arith.Denotes e.sort d.value v) ∧
            reason = "`" ++ text ++ "` is not a " ++ sort ++ " value" := by
  refine ⟨fun {T} r ctx t items rest hread => ⟨?_, ?_, ?_⟩, ?_⟩
  · intro i y hdefect
    rcases firstDefect_or_sound r ctx.length (withoutHead items) with ⟨k, x, hfirst⟩ | hsound
    · exact ⟨k, Nat.le_of_not_lt fun hlt => hfirst.2 i hlt y hdefect, x, hfirst⟩
    · exact absurd hdefect (hsound i y)
  · intro k x hfirst
    refine ⟨(decodeModel_eq_error_of_list hread).mpr (modelOfEntries_eq_error.mpr ?_), ?_⟩
    · exact .inl ⟨k, hfirst⟩
    · intro t' items' rest' hread' htake
      refine (decodeModel_eq_error_of_list hread').mpr (modelOfEntries_eq_error.mpr ?_)
      exact .inl ⟨k, hfirst.of_take htake⟩
  · intro hsound x
    rw [decodeModel_eq_error_of_list hread, modelOfEntries_eq_error]
    refine ⟨fun h => (h.resolve_left ?_).2, fun hmissing => .inr ⟨hsound, hmissing⟩⟩
    rintro ⟨k, hfirst⟩
    exact hsound k x hfirst.1
  · intro r ctx t name sort text reason h
    obtain ⟨items, rest, d, e, hread, hd, hnames, rfl, rfl, rfl, hvalue⟩ :=
      exists_of_invalidValue h
    obtain ⟨hdenotes, hreason⟩ :=
      (readValue_canonical_eq_error (canonical_definition hread hd).2).mp hvalue
    exact ⟨items, rest, d, e, hread, hd, hnames, rfl, rfl, rfl, hdenotes,
      ValueError.malformed.inj hreason⟩

/-- A definition of the first variable of `Script.sample`. -/
def soundDefinition : Definition := ⟨"x0", .atom "Int", .atom "1"⟩

/-- Another one, of another sort and with a value that is not of that sort either. -/
def faultyDefinition : Definition := ⟨"x0", .atom "Real", .atom "true"⟩

lemma soundDefinition_sound (y : DecodeError) :
    ¬ Defect Script.sampleRecognizer 2 [] soundDefinition.sexp y := by
  intro h
  have hfilled : Records Script.sampleRecognizer [] [] := fun p => by simp
  have herror := decodeDefinition_of_defect hfilled h
  have hvalue : arith.readValue Arith.Srt.int "1" = .ok (.int 1) :=
    (Arith.Constant.int 1).readValue_text
  have hassigns : Assigns Script.sampleRecognizer 2 soundDefinition.sexp
      (0, ⟨"x0", .int, .int 1⟩) :=
    .mk (T := arith) (d := soundDefinition) (e := ⟨"x0", .int, 0⟩) rfl rfl (by decide) rfl hvalue
  rw [(decodeDefinition_eq_ok rfl).mpr ⟨hassigns, List.not_mem_nil⟩] at herror
  cases herror

lemma faultyDefinition_first (rest : List Sexp) :
    FirstDefect Script.sampleRecognizer 2
      (soundDefinition.sexp :: faultyDefinition.sexp :: rest) 1
      (.sortMismatch "x0" "Int" "Real") := by
  refine ⟨⟨faultyDefinition.sexp, rfl, ?_⟩, ?_⟩
  · have hnames : faultyDefinition.Names Script.sampleRecognizer 2 ⟨"x0", Arith.Srt.int, 0⟩ :=
      ⟨rfl, by decide⟩
    exact .sort hnames (by decide)
  · rintro j hj y ⟨entry, hentry, hdefect⟩
    obtain rfl : j = 0 := by omega
    obtain rfl := Option.some.inj hentry
    exact soundDefinition_sound y hdefect

/-- Three defects in the second entry, one in the third, and a variable is missing. -/
def faultyReply : Text := "(model (define-fun x0 () Int 1) (define-fun x0 () Real true) (foo))"

lemma readOne_faultyReply : Sexp.readOne faultyReply =
    .ok (.list [.atom "model", soundDefinition.sexp, faultyDefinition.sexp, .list [.atom "foo"]],
      []) := by
  cbv

/-- The same up to the second entry. -/
lemma readOne_faultyReply_cut :
    Sexp.readOne "((define-fun x0 () Int 1) (define-fun x0 () Real true)) sat" =
      .ok (.list [soundDefinition.sexp, faultyDefinition.sexp], " sat") := by
  cbv

lemma readOne_soundReply : Sexp.readOne "((define-fun x0 () Int 1))" =
    .ok (.list [soundDefinition.sexp], []) := by
  cbv

/-- The definition of the second variable by an expression without a value. -/
def quotientDefinition : Definition :=
  ⟨"x2", .atom "Real", .list [.atom "/", .atom "1", .atom "0"]⟩

lemma readOne_quotientReply : Sexp.readOne "((define-fun x2 () Real (/ 1 0)))" =
    .ok (.list [quotientDefinition.sexp], []) := by
  cbv

lemma quotientReply_refused :
    decodeModel Script.sampleRecognizer [.int, .real] "((define-fun x2 () Real (/ 1 0)))" =
      .error (.invalidValue "x2" "Real" "(/ 1 0)" "`(/ 1 0)` is not a Real value") := by
  have hnames : quotientDefinition.Names Script.sampleRecognizer 2 ⟨"x2", Arith.Srt.real, 1⟩ :=
    ⟨rfl, by decide⟩
  have hdenotes (v : Arith.Constant) : ¬ Arith.Denotes .real quotientDefinition.value v := by
    have hnone : Arith.eval? .real quotientDefinition.value = none := by decide +kernel
    rw [← Arith.eval?_eq_some, hnone]
    exact nofun
  have hvalue : arith.readValue Arith.Srt.real quotientDefinition.value.text =
      .error (.malformed "`(/ 1 0)` is not a Real value") := by
    have hcanonical := (canonical_definition readOne_quotientReply List.mem_cons_self).2
    exact (readValue_canonical_eq_error hcanonical).mpr ⟨hdenotes, rfl⟩
  refine (decodeModel_eq_error_of_list readOne_quotientReply).mpr ?_
  refine modelOfEntries_eq_error.mpr (.inl ⟨0, ?_⟩)
  exact ⟨⟨_, rfl, .value hnames (by decide) nofun hvalue⟩, nofun⟩

theorem faultyReply_first_defect :
    decodeModel Script.sampleRecognizer [.int, .real] faultyReply =
        .error (.sortMismatch "x0" "Int" "Real") ∧
      decodeModel Script.sampleRecognizer [.int, .real]
          "((define-fun x0 () Int 1) (define-fun x0 () Real true)) sat" =
        .error (.sortMismatch "x0" "Int" "Real") ∧
      decodeModel Script.sampleRecognizer [.int, .real] "((define-fun x0 () Int 1))" =
        .error (.missingVariable "x2") ∧
      ∃ e : Entry arith, quotientDefinition.Names Script.sampleRecognizer 2 e ∧
        ∀ v, ¬ Arith.Denotes e.sort quotientDefinition.value v := by
  obtain ⟨hlist, hvalue⟩ := decodeModel_first_defect
  obtain ⟨-, hfaulty, -⟩ := hlist Script.sampleRecognizer [.int, .real] _ _ _ readOne_faultyReply
  obtain ⟨-, -, hsound⟩ := hlist Script.sampleRecognizer [.int, .real] _ _ _ readOne_soundReply
  obtain ⟨hdecode, htail⟩ := hfaulty 1 _ (faultyDefinition_first _)
  refine ⟨hdecode, htail _ _ _ readOne_faultyReply_cut rfl, (hsound ?_ _).mpr ?_, ?_⟩
  · rintro (_ | i) y ⟨entry, hentry, hdefect⟩
    · obtain rfl := Option.some.inj hentry
      exact soundDefinition_sound y hdefect
    · cases hentry
  · refine ⟨1, ⟨by decide, ?_, ?_⟩, rfl⟩
    · rintro ⟨entry, hentry, d, e, rfl, hname, hposition⟩
      obtain rfl := Definition.sexp_inj.mp (List.mem_singleton.mp hentry)
      obtain rfl := Option.some.inj hname
      cases hposition
    · intro q hq
      obtain rfl : q = 0 := by omega
      exact ⟨_, List.mem_singleton_self _, soundDefinition, ⟨"x0", Arith.Srt.int, 0⟩, rfl, rfl, rfl⟩
  · obtain ⟨items, _, d, e, hread, hd, hnames, -, -, -, hdenotes, -⟩ :=
      hvalue _ _ _ _ _ _ _ quotientReply_refused
    obtain ⟨⟨⟩, -⟩ := Prod.mk.inj (Except.ok.inj (readOne_quotientReply.symm.trans hread))
    obtain rfl := Definition.sexp_inj.mp (List.mem_singleton.mp hd)
    exact ⟨e, hnames, hdenotes⟩

end SmtScript.Reply
