import SmtScript.Proofs.Pipeline
import SmtScript.Proofs.Reply.Declared
import SmtScript.Proofs.Reply.Defects
import SmtScript.Uninterpreted

/-!
Theories without values. In such a theory nothing can be assigned to a variable, so that a
model is only accepted where there are no variables. A reply that has nothing else wrong with
it is refused for the first value in it, and a script that asks for a model of its variables
never gets answers.
-/

namespace SmtScript

open Reply

variable {T : Theory}

/-- The theory does not say which texts are values. -/
def Theory.Valueless (T : Theory) : Prop := ∀ s t, T.readValue s t = .error .unsupported

namespace Reply

/-- The entries are definitions of the variables at the positions below `count`, each position
once, with the sorts of the variables and any values. -/
structure NamesAll (r : Recognizer T) (count : Nat) (entries : List Sexp)
    (named : List (Definition × Entry T)) : Prop where
  entries_eq : entries = named.map fun x => x.1.sexp
  names : ∀ x ∈ named, x.1.Names r count x.2
  sort_eq : ∀ x ∈ named, T.sortText x.2.sort = x.1.sort.text
  once : ∀ p < count, (named.map fun x => x.2.position).count p = 1

variable {r : Recognizer T} {ctx : Context T}

lemma not_assigns (hT : T.Valueless) {count : Nat} {entry : Sexp} {a : Nat × Assignment T} :
    ¬ Assigns r count entry a := by
  intro h
  cases h with
  | mk _ _ _ _ hvalue =>
    rw [hT] at hvalue
    cases hvalue

/-- **No entries make a model** of at least one variable. -/
theorem modelOfEntries_ne_ok (hT : T.Valueless) (hctx : ctx ≠ []) (entries : List Sexp)
    (m : Model T) : modelOfEntries r ctx entries ≠ .ok m := by
  intro h
  have hpos : 0 < m.assignments.length := by
    rw [(modelOfEntries_eq_ok.mp h).1]
    exact List.length_pos_iff.mpr hctx
  obtain ⟨entry, -, hassigns⟩ := exists_assigns h (List.getElem?_eq_getElem hpos)
  exact not_assigns hT hassigns

lemma decodeModel_ne_ok (hT : T.Valueless) (hctx : ctx ≠ []) (t : Text) (p : Model T × Text) :
    decodeModel r ctx t ≠ .ok p := by
  intro h
  obtain ⟨items, -, hentries⟩ := decodeModel_eq_ok.mp h
  exact modelOfEntries_ne_ok hT hctx _ _ hentries

/-- A first entry without another defect is refused for its value. -/
lemma firstDefect_unsupported (hT : T.Valueless) {count : Nat} {d : Definition} {e : Entry T}
    (hnames : d.Names r count e) (hsort : T.sortText e.sort = d.sort.text)
    (entries : List Sexp) :
    FirstDefect r count (d.sexp :: entries) 0 (.unsupportedModel T.name) :=
  ⟨⟨d.sexp, rfl, .unsupported hnames hsort nofun (hT _ _)⟩, nofun⟩

lemma NamesAll.ne_nil {count : Nat} {entries : List Sexp} {named : List (Definition × Entry T)}
    (h : NamesAll r count entries named) (hcount : 0 < count) : named ≠ [] := by
  rintro rfl
  cases h.once 0 hcount

lemma decodeModel_eq_unsupported (hT : T.Valueless) (hctx : ctx ≠ []) {t rest : Text}
    {items : List Sexp} (hread : Sexp.readOne t = .ok (.list items, rest))
    {named : List (Definition × Entry T)}
    (h : NamesAll r ctx.length (withoutHead items) named) :
    decodeModel r ctx t = .error (.unsupportedModel T.name) := by
  refine (decodeModel_eq_error_of_list hread).mpr (modelOfEntries_eq_error.mpr (.inl ⟨0, ?_⟩))
  obtain ⟨⟨d, e⟩, named, rfl⟩ :=
    List.exists_cons_of_ne_nil (h.ne_nil (List.length_pos_iff.mpr hctx))
  rw [h.entries_eq]
  have hfirst : (d, e) ∈ (d, e) :: named := List.mem_cons_self
  exact firstDefect_unsupported hT (h.names _ hfirst) (h.sort_eq _ hfirst) _

/-- **A reply is refused** if it owes a model of at least one variable. -/
theorem decode_ne_ok (hT : T.Valueless) (hctx : ctx ≠ []) {slots : List (Slot T)}
    (hslot : .model ctx ∈ slots) (t : Text) (answers : List (Answer T)) :
    decode r slots t ≠ .ok answers := by
  intro h
  have hall := forall₂_of_decode (P := fun slot _ => slot ≠ .model ctx) ?_ h
  · obtain ⟨a, -, hne⟩ := exists_of_mem_forall₂ hall.flip (List.mem_reverse.mpr hslot)
    exact hne rfl
  · rintro slot - s a hgives rfl
    cases hgives with
    | model hentries => exact modelOfEntries_ne_ok hT hctx _ _ hentries

end Reply

namespace Script

/-- **Without values there are no models.** In a theory that does not say which texts are
values, no text is decoded to a model of at least one variable. One that would be a model
whatever its values are is refused for the theory, by its name. So a script that has asked for
a model of at least one variable gets no answers, whatever the backend is. -/
theorem no_models_without_values {T : Theory} (hT : T.Valueless) :
    (∀ (r : Recognizer T) (ctx : Context T), ctx ≠ [] → ∀ t,
      (∀ p, decodeModel r ctx t ≠ .ok p) ∧
      ∀ items rest named, Sexp.readOne t = .ok (.list items, rest) →
        NamesAll r ctx.length (withoutHead items) named →
          decodeModel r ctx t = .error (.unsupportedModel T.name)) ∧
    ∀ s : Script T, s.Reachable → ∀ ctx, .model ctx ∈ s.slots → ctx ≠ [] →
      ∃ printed, s.print = .ok printed ∧
        ∃ outcome : Except SolverError RunOutput → Except RunError (List (Answer T)),
          (∀ {m : Type → Type} [Monad m] [LawfulMonad m] (backend : Backend m),
            s.run backend = outcome <$> backend printed.text) ∧
          ∀ reply answers, outcome reply ≠ .ok answers := by
  refine ⟨fun r ctx hctx t => ⟨decodeModel_ne_ok hT hctx t, ?_⟩, ?_⟩
  · intro items rest named hread hall
    exact decodeModel_eq_unsupported hT hctx hread hall
  · intro s hs ctx hslot hctx
    obtain ⟨last, -, -, hprint⟩ := hs.print_eq
    refine ⟨_, hprint, s.outcome (.numbered s.context last.live), ?_, ?_⟩
    · exact fun backend => run_of_print hprint backend
    · intro reply answers h
      obtain ⟨out, -, -, hdecode⟩ := outcome_eq_ok.mp h
      exact decode_ne_ok hT hctx hslot _ _ hdecode

/-- A sort about which nothing is known. -/
def unknownSort : uninterpreted.Sorts := ("U" : Text)

/-- A model of a variable of that sort is asked for. -/
def uninterpretedCalls : List (Call uninterpreted) :=
  [.declareConst unknownSort, .checkSat, .getModel]

def uninterpretedScript : Script uninterpreted := uninterpretedCalls.foldl perform empty

lemma uninterpretedScript_reachable : uninterpretedScript.Reachable := by
  refine Reachable.empty.foldl fun call hcall t ht => ?_
  simp only [uninterpretedCalls, List.mem_cons, List.not_mem_nil, or_false] at hcall
  rcases hcall with rfl | rfl | rfl <;> simp [Call.commands] at ht

/-- A model of the variable, if its value were one. -/
def uninterpretedModel : Text := "(model (define-fun x0 () U u!val!0))"

lemma readOne_uninterpretedModel : Sexp.readOne uninterpretedModel =
    .ok (.list [.atom "model", (⟨"x0", .atom "U", .atom "u!val!0"⟩ : Definition).sexp], []) := by
  cbv

theorem uninterpreted_no_models :
    uninterpreted.Valueless ∧ uninterpretedScript.Reachable ∧
      decodeModel (T := uninterpreted) [⟨"x0", unknownSort, 0⟩] [unknownSort] uninterpretedModel =
        .error (.unsupportedModel "opaque") ∧
      ∀ answers, uninterpretedScript.run (m := Id)
        (fun _ => .ok ⟨some 0, "sat\n" ++ uninterpretedModel, []⟩) ≠ .ok answers := by
  have hT : uninterpreted.Valueless := fun _ _ => rfl
  have hctx : ([unknownSort] : Context uninterpreted) ≠ [] := nofun
  obtain ⟨hdecode, hrun⟩ := no_models_without_values hT
  refine ⟨hT, uninterpretedScript_reachable, ?_, ?_⟩
  · obtain ⟨-, hrefused⟩ := hdecode [⟨"x0", unknownSort, 0⟩] [unknownSort] hctx uninterpretedModel
    refine hrefused _ _ [⟨⟨"x0", .atom "U", .atom "u!val!0"⟩, ⟨"x0", unknownSort, 0⟩⟩]
      readOne_uninterpretedModel ⟨rfl, ?_, ?_, ?_⟩
    · exact List.forall_mem_singleton.mpr ⟨rfl, by decide⟩
    · exact List.forall_mem_singleton.mpr rfl
    · intro p hp
      obtain rfl : p = 0 := by simpa using hp
      rfl
  · obtain ⟨printed, -, outcome, hbackend, hne⟩ :=
      hrun _ uninterpretedScript_reachable [unknownSort] (by decide) hctx
    intro answers
    rw [hbackend]
    exact hne _ answers

end Script

end SmtScript
