import SmtScript.Proofs.Script.Legality
import SmtScript.Proofs.Script.Printing
import SmtScript.Proofs.Term.Transcript

/-!
Scripts written without a naming. Each line is written from the list of all commands and its
place in the list: names are numbered by counting the declarations and the quantifiers that
come before them. The printer, which carries a naming from line to line, comes to the same
text, and the recognizer knows the constants by the same numbers.
-/

namespace SmtScript

variable {T : Theory}

namespace Command

/-! ### Counting -/

/-- The number of quantifiers in what the command asserts. -/
def quantifiers : Command T → Nat
  | .assert t => t.quantifiers
  | _ => 0

/-- The number of quantifiers in the assertions among the commands. -/
def quantifiersIn : List (Command T) → Nat
  | [] => 0
  | c :: rest => c.quantifiers + quantifiersIn rest

/-- The commands before the one that declares the constant at a position. -/
def beforeDeclaration : List (Command T) → Nat → List (Command T)
  | [], _ => []
  | .declareConst _ :: _, 0 => []
  | .declareConst sort :: rest, position + 1 =>
    .declareConst sort :: beforeDeclaration rest position
  | c :: rest, position => c :: beforeDeclaration rest position

/-- The number of the constant at a position: one name has been given to each constant before
it, and one to each quantifier asserted before it was declared. -/
def constantNumber (cs : List (Command T)) (position : Nat) : Nat :=
  position + quantifiersIn (beforeDeclaration cs position)

/-! ### The lines -/

/-- The line of a command, from all commands of the script and those before it. -/
def transcript (all before : List (Command T)) : Command T → Text
  | .setLogic logic => "(set-logic " ++ logic ++ ")"
  | .declareConst sort =>
    "(declare-const " ++ Naming.nameOf (constantNumber all (declared before).length) ++ " " ++
      T.sortText sort ++ ")"
  | .assert t =>
    "(assert " ++ t.transcript (constantNumber all)
      ((declared before).length + quantifiersIn before) 0 [] ++ ")"
  | .checkSat => "(check-sat)"
  | .getModel => "(get-model)"

/-- The lines of all commands, each with its end. -/
def transcriptAll (cs : List (Command T)) : Text :=
  cs.zipIdx.flatMap fun (c, k) => c.transcript cs (cs.take k) ++ ("\n" : Text)

/-! ### Constants -/

lemma quantifiersIn_concat (cs : List (Command T)) (c : Command T) :
    quantifiersIn (cs ++ [c]) = quantifiersIn cs + c.quantifiers := by
  induction cs with
  | nil => simp [quantifiersIn]
  | cons d cs ih => rw [List.cons_append, quantifiersIn, ih, quantifiersIn, Nat.add_assoc]

/-- What comes before a declaration does not depend on what comes after it. -/
lemma beforeDeclaration_append {before : List (Command T)} {p : Nat}
    (hp : p < (declared before).length) (after : List (Command T)) :
    beforeDeclaration (before ++ after) p = beforeDeclaration before p := by
  induction before generalizing p with
  | nil => cases hp
  | cons c before ih =>
    cases c with
    | declareConst sort =>
      cases p with
      | zero => rfl
      | succ p =>
        have hp : p < (declared before).length := by simpa [declared] using hp
        simp [beforeDeclaration, ih hp]
    | setLogic | assert | checkSat | getModel =>
      have hp : p < (declared before).length := by simpa [declared] using hp
      simp [beforeDeclaration, ih hp]

lemma beforeDeclaration_declared (before : List (Command T)) (sort : T.Sorts)
    (after : List (Command T)) :
    beforeDeclaration (before ++ .declareConst sort :: after) (declared before).length =
      before := by
  induction before with
  | nil => rfl
  | cons c before ih =>
    cases c with
    | declareConst sort' => simpa [beforeDeclaration, declared] using ih
    | setLogic | assert | checkSat | getModel => simpa [beforeDeclaration, declared] using ih

lemma constantNumber_append {before : List (Command T)} {p : Nat}
    (hp : p < (declared before).length) (after : List (Command T)) :
    constantNumber (before ++ after) p = constantNumber before p := by
  rw [constantNumber, beforeDeclaration_append hp, constantNumber]

/-! ### The naming -/

/-- The naming that the commands lead to, as it is counted. -/
structure Counted (cs : List (Command T)) (names : Naming) : Prop where
  depth_eq : names.depth = (declared cs).length
  next_eq : names.next = (declared cs).length + quantifiersIn cs
  named : names.NamedBy (constantNumber cs)

/-- **One step**: a command moves the naming on by what it declares and asserts. -/
lemma Counted.concat {cs : List (Command T)} {names : Naming} (h : Counted cs names)
    (c : Command T) : Counted (cs ++ [c]) (c.namingAfter names) := by
  have hbefore : ∀ p < names.depth, constantNumber (cs ++ [c]) p = constantNumber cs p :=
    fun p hp => constantNumber_append (h.depth_eq ▸ hp) [c]
  have hnamed : names.NamedBy (constantNumber (cs ++ [c])) := fun p hp => by
    rw [h.named p hp, hbefore p hp]
  refine ⟨?_, ?_, ?_⟩
  · rw [declared_concat]
    exact depth_namingAfter h.depth_eq
  · have hnext := h.next_eq
    rw [declared_concat, quantifiersIn_concat]
    cases c with
    | declareConst sort =>
      simp only [namingAfter, contextAfter, quantifiers, Naming.next_bind,
        Context.length_extend]
      omega
    | assert t =>
      simp only [namingAfter, contextAfter, quantifiers, Naming.next_advance]
      omega
    | setLogic | checkSat | getModel => exact hnext
  · cases c with
    | declareConst sort =>
      refine h.named.bind ?_ hbefore
      rw [h.depth_eq, h.next_eq, constantNumber, beforeDeclaration_declared]
    | assert | setLogic | checkSat | getModel => exact hnamed

/-- **A run**: the naming after commands is the one that is counted. -/
lemma counted_namingAfterAll (cs : List (Command T)) :
    Counted cs (namingAfterAll .initial cs) := by
  induction cs using List.reverseRecOn with
  | nil => exact ⟨rfl, rfl, nofun⟩
  | append_singleton cs c ih =>
    rw [namingAfterAll_concat]
    exact ih.concat c

/-! ### The text -/

/-- **One line**: a legal command is written as the transcript has it. -/
lemma text_sexp_eq_transcript {before : List (Command T)} {c : Command T}
    (hc : c.Legal before) {names : Naming} (h : Counted before names)
    (after : List (Command T)) :
    (c.sexp names).text = c.transcript (before ++ c :: after) before := by
  cases c with
  | setLogic logic => exact text_sexp_setLogic logic names
  | declareConst sort =>
    have hnumber : constantNumber (before ++ .declareConst sort :: after)
        (declared before).length = names.next := by
      rw [constantNumber, beforeDeclaration_declared, h.next_eq]
    rw [text_sexp_declareConst, Naming.fresh, ← hnumber]
    rfl
  | assert t =>
    have hnamed : names.NamedBy
        (Enclosing.number [] (constantNumber (before ++ .assert t :: after))) := by
      intro p hp
      rw [h.named p hp, ← constantNumber_append (h.depth_eq ▸ hp) (.assert t :: after)]
      rfl
    have hnext : names.next = (declared before).length + quantifiersIn before + 0 := h.next_eq
    rw [text_sexp_assert, t.transcribes hc.1 h.depth_eq hnext hnamed]
    rfl
  | checkSat | getModel => rfl

lemma lines_eq_flatMap_zipIdx (cs : List (Command T)) :
    lines cs .initial = cs.zipIdx.flatMap fun (c, k) =>
      (c.sexp (namingAfterAll .initial (cs.take k))).text ++ ("\n" : Text) := by
  induction cs using List.reverseRecOn with
  | nil => rfl
  | append_singleton cs c ih =>
    rw [lines_concat, ih]
    exact (flatMap_zipIdx_concat (fun before (c : Command T) =>
      (c.sexp (namingAfterAll .initial before)).text ++ ("\n" : Text)) cs c).symm

/-- **All lines** are those of the transcript. -/
theorem lines_eq_transcriptAll {cs : List (Command T)} (h : LegalUpTo cs cs.length) :
    lines cs .initial = transcriptAll cs := by
  rw [lines_eq_flatMap_zipIdx, transcriptAll]
  refine List.flatMap_congr fun ⟨c, k⟩ hmem => ?_
  have hc : cs[k]? = some c := List.mem_zipIdx_iff_getElem?.mp hmem
  obtain ⟨hk, rfl⟩ := List.getElem?_eq_some_iff.mp hc
  have hline := text_sexp_eq_transcript (h k hk _ hc) (counted_namingAfterAll (cs.take k))
    (cs.drop (k + 1))
  rw [List.getElem_cons_drop, List.take_append_drop] at hline
  exact congrArg (· ++ ("\n" : Text)) hline

/-- The last line ends with a closing parenthesis. -/
lemma exists_lines_eq {cs : List (Command T)} (h : cs ≠ []) (names : Naming) :
    ∃ t : Text, lines cs names = t ++ [')'] ++ ("\n" : Text) := by
  obtain ⟨before, c, rfl⟩ := List.eq_nil_or_concat cs |>.resolve_left h
  have hlist : ∃ items, c.sexp (namingAfterAll names before) = .list items := by
    cases c <;> exact ⟨_, rfl⟩
  obtain ⟨items, hitems⟩ := hlist
  rw [List.concat_eq_append, lines_concat, hitems, Sexp.text]
  exact ⟨lines before names ++ '(' :: Sexp.itemsText items, by simp⟩

end Command

/-- Trimming takes away the end of a last line that does not end with a blank. -/
lemma Text.trimEnd_line {c : Char} (hc : isBlank c = false) (t : Text) :
    trimEnd (t ++ [c] ++ ("\n" : Text)) = t ++ [c] := by
  have hline : isBlank '\n' = true := rfl
  simp [trimEnd, hc, hline]

namespace Script

open Command

/-- **The text of a script is its transcript**: what the printer writes with a naming that it
carries along is what counting gives. The recognizer has the same numbers for the constants,
and the script is displayed without the end of its last line. -/
theorem Reachable.print_eq_transcript {s : Script T} (h : s.Reachable) :
    ∃ printed, s.print = .ok printed ∧ printed.text = transcriptAll s.commands ∧
      (∀ p < s.context.length,
        printed.recognizer.nameOf? p = some (Naming.nameOf (constantNumber s.commands p))) ∧
      (s.commands ≠ [] →
        ∃ text, printed.text = text ++ ("\n" : Text) ∧ s.display = .ok text) := by
  obtain ⟨-, hdepth, hprint⟩ := h.print_eq_lines
  refine ⟨_, hprint, lines_eq_transcriptAll h.legal, fun p hp => ?_, fun hne => ?_⟩
  · have hp' : p < s.naming.depth := hdepth ▸ hp
    have hnamed := (counted_namingAfterAll s.commands).named p hp'
    rw [Recognizer.nameOf?_numbered hdepth, ← hnamed]
    exact Naming.name?_eq_some hp'
  · obtain ⟨t, ht⟩ := exists_lines_eq hne .initial
    refine ⟨t ++ [')'], ht, ?_⟩
    rw [display, hprint, ok_bind]
    simp only [ht, Text.trimEnd_line (show Text.isBlank ')' = false from rfl)]
    rfl

/-- The constants of the sample have the numbers 0 and 2: a quantifier stands between their
declarations. -/
theorem sample_print_eq_transcript :
    sample.Reachable ∧ ∃ printed text, sample.print = .ok printed ∧
      printed.text = transcriptAll sample.commands ∧
      printed.recognizer.nameOf? 0 = some "x0" ∧ printed.recognizer.nameOf? 1 = some "x2" ∧
      printed.text = text ++ ("\n" : Text) ∧ sample.display = .ok text := by
  obtain ⟨printed, hprint, htext, hnames, hdisplay⟩ :=
    Reachable.print_eq_transcript sample_reachable
  obtain ⟨text, hline, hshown⟩ := hdisplay (List.cons_ne_nil _ _)
  exact ⟨sample_reachable, printed, text, hprint, htext, hnames 0 (by decide),
    hnames 1 (by decide), hline, hshown⟩

end Script

end SmtScript
