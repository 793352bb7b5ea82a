import SmtScript.Proofs.Script.Replay
import SmtScript.Proofs.Term.Checking

/-!
Assertions made again. A term is checked in the context of the moment, and variables may be
declared between two assertions of it. Without quantifiers it keeps its place; with one it has
lost it, and the reason names both lengths.
-/

namespace SmtScript.Script

variable {T : Theory}

lemma exists_assert_eq_ok {s : Script T} {t : Term T} :
    (∃ next, (assert t).run s = .ok () next) ↔
      t.check s.context = .ok () ∧ t.sort = T.boolSort := by
  refine ⟨?_, fun h => ⟨_, push_eq_ok.mpr ⟨h, rfl⟩⟩⟩
  rintro ⟨next, hassert⟩
  exact (push_eq_ok.mp hassert).1

lemma context_of_assert {s next : Script T} {t : Term T} (h : (assert t).run s = .ok () next) :
    next.context = s.context := by
  obtain ⟨-, rfl⟩ := push_eq_ok.mp h
  rfl

lemma assert_of_check_eq_error {s : Script T} {t : Term T} {e : BuildError}
    (h : t.check s.context = .error e) : (assert t).run s = .error e s := by
  have hstate : t.check s.state.context = .error e := h
  refine push_eq_error.mpr ⟨?_, rfl⟩
  rw [Command.apply, hstate]
  rfl

/-- **The terms that survive the growth of a context are those without quantifiers.** A term
with a quantifier is refused wherever variables have been added, for a position that was the
length of the shorter context. So an accepted assertion can be made again after further
declarations exactly if its term has no quantifier. -/
theorem assert_again (t : Term T) :
    (∀ ctx more : Context T, t.check ctx = .ok () → more ≠ [] →
      (t.quantifiers = 0 → t.check (ctx ++ more) = .ok ()) ∧
      (t.quantifiers ≠ 0 →
        t.check (ctx ++ more) = .error (.quantifierScope (ctx ++ more).length ctx.length))) ∧
    ∀ s next : Script T, (assert t).run s = .ok () next → ∀ later : List (Call T),
      let grown := later.foldl perform next
      next.context.length < grown.context.length →
        ((∃ again, (assert t).run grown = .ok () again) ↔ t.quantifiers = 0) ∧
        (t.quantifiers ≠ 0 → (assert t).run grown =
          .error (.quantifierScope grown.context.length s.context.length) grown) := by
  refine ⟨fun ctx more h hmore =>
    ⟨fun hfree => Term.check_append_of_free h hfree more,
      Term.check_append_of_quantified h hmore⟩, ?_⟩
  intro s next hassert later grown hlt
  obtain ⟨hcheck, hbool⟩ := exists_assert_eq_ok.mp ⟨next, hassert⟩
  obtain ⟨more, hcontext⟩ : next.context <+: grown.context := context_prefix_foldl next later
  rw [context_of_assert hassert] at hcontext hlt
  have hmore : more ≠ [] := by
    rintro rfl
    rw [← hcontext, List.append_nil] at hlt
    exact Nat.lt_irrefl _ hlt
  have haccepted (h : t.quantifiers = 0) : ∃ again, (assert t).run grown = .ok () again := by
    have hfree := Term.check_append_of_free hcheck h more
    rw [hcontext] at hfree
    exact exists_assert_eq_ok.mpr ⟨hfree, hbool⟩
  have hrefused (h : t.quantifiers ≠ 0) : (assert t).run grown =
      .error (.quantifierScope grown.context.length s.context.length) grown := by
    have hquant := Term.check_append_of_quantified hcheck hmore h
    rw [hcontext] at hquant
    exact assert_of_check_eq_error hquant
  refine ⟨⟨?_, haccepted⟩, hrefused⟩
  rintro ⟨again, hagain⟩
  by_contra h
  cases hagain.symm.trans (hrefused h)

/-- An integer is declared, and another one asserted to be less. -/
def quantified : Script arith := ofCalls [.declareConst Arith.Srt.int, .assert sampleTerm]

/-- After one more declaration the assertion is out of place. -/
theorem quantified_assert_again :
    let grown := quantified.perform (.declareConst Arith.Srt.real)
    (assert sampleTerm).run (ofCalls [.declareConst Arith.Srt.int]) = .ok () quantified ∧
      quantified.context = [Arith.Srt.int] ∧
      (assert sampleTerm).run grown = .error (.quantifierScope 2 1) grown := by
  have hassert :
      (assert sampleTerm).run (ofCalls [.declareConst Arith.Srt.int]) = .ok () quantified := rfl
  have hgrown := (assert_again sampleTerm).2 _ _ hassert [.declareConst Arith.Srt.real]
    (Nat.lt_succ_self 1)
  exact ⟨hassert, rfl, hgrown.2 (Nat.succ_ne_zero 0)⟩

end SmtScript.Script
