import SmtScript.Arith.Value
import SmtScript.Proofs.Term.Printing

/-!
Terms that cannot be written. The printer may stop deep inside a term, under quantifiers that
it has named and after arguments that it has written; the names in scope are restored as they
are after a term that is written. Under names for the variables of a context, the printer
stops where the check of the context does. It does not see sorts, and passes over a variable
whose only fault is its sort.
-/

namespace SmtScript

variable {T : Theory}

/-- What is left of a naming after printing: the names in scope, and a counter that has moved
on by the given count, or by no more than that where nothing was written. -/
inductive Naming.Leaves (names : Naming) (count : Nat) :
    Except BuildError Text × Naming → Prop where
  | written (text : Text) : Leaves names count (.ok text, names.advance count)
  | refused (e : BuildError) {n : Nat} (h : n ≤ count) :
      Leaves names count (.error e, names.advance n)

/-- The error is about the sort of a variable, of which a naming knows nothing. -/
def BuildError.AboutSort : BuildError → Prop
  | .variableSortMismatch .. => True
  | _ => False

namespace Term

/-! ### The names in scope -/

lemma leaves_printArgs {args : List (Term T)}
    (hargs : ∀ t ∈ args, ∀ names : Naming, names.Leaves t.quantifiers (t.print names))
    (names : Naming) : names.Leaves (argsQuantifiers args) (printArgs args names) := by
  induction args generalizing names with
  | nil => exact .written []
  | cons t args ih =>
    obtain ⟨hfirst, hargs⟩ := List.forall_mem_cons.mp hargs
    have ht := hfirst names
    rw [printArgs, argsQuantifiers]
    generalize t.print names = r at ht ⊢
    cases ht with
    | refused e h => exact .refused e (Nat.le_add_right_of_le h)
    | written head =>
      have hrest := ih hargs (names.advance t.quantifiers)
      dsimp only
      generalize printArgs args (names.advance t.quantifiers) = r at hrest ⊢
      cases hrest with
      | refused e h =>
        rw [Naming.advance_advance]
        exact .refused e (Nat.add_le_add_left h _)
      | written tail =>
        rw [Naming.advance_advance]
        exact .written _

/-- **Printing leaves the names in scope**, at every way out of a term. -/
lemma leaves_print (t : Term T) (names : Naming) : names.Leaves t.quantifiers (t.print names) := by
  induction t generalizing names with
  | var p s =>
    rw [print]
    split
    · exact .written _
    · exact .refused _ (Nat.zero_le _)
  | lit l => exact .written _
  | app op args ih =>
    have hargs := leaves_printArgs ih names
    rw [print, quantifiers]
    generalize printArgs args names = r at hargs ⊢
    cases hargs with
    | written text => exact .written _
    | refused e h => exact .refused e h
  | quant q p s body ih =>
    rw [print, quantifiers]
    split
    · have hbody := ih names.bind
      generalize body.print names.bind = r at hbody ⊢
      -- the name of the bound variable is taken out of scope, written or not
      cases hbody with
      | written text =>
        dsimp only
        rw [Naming.unbind_advance_bind]
        exact .written _
      | refused e h =>
        dsimp only
        rw [Naming.unbind_advance_bind]
        exact .refused e (Nat.succ_le_succ h)
    · exact .refused _ (Nat.zero_le _)

/-- **Printing restores the names in scope, whether or not the term can be written.** The
counter is not set back; it moves on by the number of quantifiers, and by no more than that if
the term is refused. -/
theorem print_restores (t : Term T) (names : Naming) :
    (t.print names).2.bindings = names.bindings ∧ names.next ≤ (t.print names).2.next ∧
      (∀ text, (t.print names).1 = .ok text →
        (t.print names).2.next = names.next + t.quantifiers) ∧
      ∀ e, (t.print names).1 = .error e →
        (t.print names).2.next ≤ names.next + t.quantifiers := by
  have hleaves := t.leaves_print names
  generalize t.print names = r at hleaves ⊢
  cases hleaves with
  | written text => exact ⟨rfl, Nat.le_add_right _ _, fun _ _ => rfl, nofun⟩
  | refused e h =>
    exact ⟨rfl, Nat.le_add_right _ _, nofun, fun _ _ => Nat.add_le_add_left h names.next⟩

/-! ### The reason -/

/-- The arguments before the one that is refused have a place in the context, and are
written. -/
lemma exists_printArgs_eq_error {ctx : Context T} {e : BuildError} {args : List (Term T)}
    (hargs : ∀ t ∈ args, ∀ names : Naming, names.depth = ctx.length →
      t.check ctx = .error e → ∃ after, t.print names = (.error e, after))
    (hcheck : checkArgs ctx args = .error e) {names : Naming} (hd : names.depth = ctx.length) :
    ∃ after, printArgs args names = (.error e, after) := by
  induction args generalizing names with
  | nil => cases hcheck
  | cons t args ih =>
    obtain ⟨hfirst, hargs⟩ := List.forall_mem_cons.mp hargs
    rw [checkArgs] at hcheck
    cases ht : t.check ctx with
    | error e' =>
      rw [ht] at hcheck
      obtain rfl : e' = e := Except.error.inj hcheck
      obtain ⟨after, hprint⟩ := hfirst names hd ht
      rw [printArgs, hprint]
      exact ⟨_, rfl⟩
    | ok =>
      rw [ht] at hcheck
      have hprint : t.Prints names := prints_of_check ht hd
      have hd' : (names.advance t.quantifiers).depth = ctx.length := hd
      obtain ⟨after, hrest⟩ := ih hargs hcheck hd'
      rw [printArgs, hprint]
      simp only [hrest]
      exact ⟨_, rfl⟩

/-- **Where the check stops, the printer stops**, unless the check stops at a sort. -/
lemma exists_print_eq_error {t : Term T} {ctx : Context T} {e : BuildError}
    (h : t.check ctx = .error e) (he : ¬ e.AboutSort) {names : Naming}
    (hd : names.depth = ctx.length) : ∃ after, t.print names = (.error e, after) := by
  induction t generalizing ctx names with
  | var p s =>
    rw [check, checkVariable] at h
    split at h
    · next hnone =>
      obtain rfl := Except.error.inj h
      have hp : names.name? p = none := by
        rw [List.getElem?_eq_none_iff, ← hd] at hnone
        rw [Naming.name?, List.getElem?_eq_none hnone]
        rfl
      refine ⟨names, ?_⟩
      rw [print, hp, hd]
    · split at h
      · cases h
      · obtain rfl := Except.error.inj h
        exact absurd trivial he
  | lit l => cases h
  | app op args ih =>
    rw [check] at h
    obtain ⟨after, hargs⟩ :=
      exists_printArgs_eq_error (fun t hm names hd ht => ih t hm ht hd) h hd
    refine ⟨after, ?_⟩
    rw [print, hargs]
  | quant q p s body ih =>
    rw [check] at h
    split at h
    · next hp =>
      have hd' : names.bind.depth = (ctx.extend s).length := by simp [hd]
      obtain ⟨after, hbody⟩ := ih h hd'
      refine ⟨after.unbind, ?_⟩
      rw [print, if_pos (hp.trans hd.symm), hbody]
    · next hp =>
      obtain rfl := Except.error.inj h
      refine ⟨names, ?_⟩
      rw [print, if_neg (hd ▸ hp), hd]

/-- **The printer and the check agree** on every term, wherever it was built, under names for
the variables of the context. What passes the check is written; what the check refuses is
refused for the same reason, unless that is the sort of a variable; and nothing else is
refused. -/
theorem print_agrees (t : Term T) {ctx : Context T} {names : Naming}
    (hd : names.depth = ctx.length) :
    (t.check ctx = .ok () → ∃ text, (t.print names).1 = .ok text) ∧
      (∀ e, t.check ctx = .error e → ¬ e.AboutSort → (t.print names).1 = .error e) ∧
      ∀ e, (t.print names).1 = .error e →
        t.check ctx = .error e ∨ ∃ e', t.check ctx = .error e' ∧ e'.AboutSort := by
  have hwritten (h : t.check ctx = .ok ()) : (t.print names).1 = .ok (t.sexp names).text := by
    rw [prints_of_check h hd]
  have hrefused (e : BuildError) (h : t.check ctx = .error e) (he : ¬ e.AboutSort) :
      (t.print names).1 = .error e := by
    obtain ⟨after, hprint⟩ := exists_print_eq_error h he hd
    rw [hprint]
  refine ⟨fun h => ⟨_, hwritten h⟩, hrefused, fun e hprint => ?_⟩
  cases hcheck : t.check ctx with
  | ok => cases hprint.symm.trans (hwritten hcheck)
  | error e' =>
    by_cases he : e'.AboutSort
    · exact .inr ⟨e', rfl, he⟩
    · have hsame := hprint.symm.trans (hrefused e' hcheck he)
      obtain rfl := Except.error.inj hsame
      exact .inl rfl

/-- Two quantified comparisons, of which the second has its place after one variable. -/
def straddling : Term arith :=
  .app Arith.Op.and
    [.quant .existential 0 Arith.Srt.int
        (.app (Arith.Op.lt .int) [.var 0 Arith.Srt.int, .var 0 Arith.Srt.int]),
      .quant .universal 1 Arith.Srt.int
        (.app (Arith.Op.lt .int) [.var 0 Arith.Srt.int, .var 1 Arith.Srt.int])]

/-- The second comparison is out of place where the first is in its. -/
theorem straddling_print_agrees :
    Naming.initial.bind.unbind.depth = ([] : Context arith).length ∧
      check [] straddling = .error (.quantifierScope 0 1) ∧
      (straddling.print Naming.initial.bind.unbind).1 = .error (.quantifierScope 0 1) := by
  have hd : Naming.initial.bind.unbind.depth = ([] : Context arith).length := rfl
  have hcheck : check [] straddling = .error (.quantifierScope 0 1) := rfl
  exact ⟨hd, hcheck, (print_agrees straddling hd).2.1 _ hcheck id⟩

/-- A sort is no reason for the printer. -/
example : let x : Term arith := .var 0 Arith.Srt.int
    x.check [Arith.Srt.real] = .error (.variableSortMismatch 0 "Real" "Int") ∧
      (x.print Naming.initial.bind).1 = .ok "x0" := ⟨rfl, rfl⟩

end Term

end SmtScript
