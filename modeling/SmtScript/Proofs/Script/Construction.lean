import Mathlib.Data.List.OfFn
import SmtScript.Proofs.Script.Reassertion

/-!
Terms that are built in one context from the bottom up. An expression is a term as its author
writes it down. What stands inside a quantifier is built in the context that the quantifier
extends, and may use the variable of every quantifier around it, as it was handed out. Such a
variable is not checked when it is used, however deep, and an application looks at no context
at all. Still an expression is built exactly where the typing rules give it a sort, so that
the check which a quantifier makes of its body is one that every body so built passes.
-/

namespace SmtScript

variable {T : Theory}

/-- What is written inside `n` quantifiers. -/
inductive Expression (T : Theory) : Nat → Type where
  /-- The variable at a position of the context, claimed to have the sort. -/
  | var {n : Nat} (position : Nat) (sort : T.Sorts) : Expression T n
  /-- The variable that a quantifier around it has handed out, the innermost being zero. -/
  | bound {n : Nat} (i : Fin n) : Expression T n
  | lit {n : Nat} (value : T.Literal) : Expression T n
  | app {n : Nat} (op : T.Op) {count : Nat} (args : Fin count → Expression T n) : Expression T n
  | quant {n : Nat} (q : Quantifier) (sort : T.Sorts) (body : Expression T (n + 1)) :
      Expression T n

namespace Expression

variable {n : Nat} {ctx : Context T} {scope : Fin n → Term T} {sorts : Fin n → T.Sorts}

/-- Builds the term in a context, where the terms in `scope` have been handed out. Arguments
are built from the left. -/
def build {n : Nat} (ctx : Context T) (scope : Fin n → Term T) :
    Expression T n → Except BuildError (Term T)
  | .var position sort => Term.mkVar ctx position sort
  | .bound i => .ok (scope i)
  | .lit value => .ok (.lit value)
  | .app op args => do
    let ts ← List.ofFnM fun i => (args i).build ctx scope
    Term.mkApp op ts
  | .quant q sort body =>
    Term.mkQuant q ctx sort fun inner x => body.build inner (Fin.cases x scope)

/-- The expression has the sort in the context, where the quantifiers around it bind variables
of the given sorts. -/
inductive HasSort : {n : Nat} → Context T → (Fin n → T.Sorts) → Expression T n → T.Sorts →
    Prop where
  | var {n : Nat} {ctx : Context T} {sorts : Fin n → T.Sorts} {p : Nat} {s : T.Sorts}
      (h : ctx[p]? = some s) : HasSort ctx sorts (.var p s) s
  | bound {n : Nat} {ctx : Context T} {sorts : Fin n → T.Sorts} (i : Fin n) :
      HasSort ctx sorts (.bound i) (sorts i)
  | lit {n : Nat} {ctx : Context T} {sorts : Fin n → T.Sorts} (value : T.Literal) :
      HasSort ctx sorts (.lit value) (T.literalSort value)
  | app {n : Nat} {ctx : Context T} {sorts : Fin n → T.Sorts} {op : T.Op} {count : Nat}
      {args : Fin count → Expression T n} {expected : Fin count → T.Sorts}
      (hop : (T.signature op).args = List.ofFn expected)
      (hargs : ∀ i, HasSort ctx sorts (args i) (expected i)) :
      HasSort ctx sorts (.app op args) (T.signature op).result
  | quant {n : Nat} {ctx : Context T} {sorts : Fin n → T.Sorts} {q : Quantifier} {s : T.Sorts}
      {body : Expression T (n + 1)}
      (h : HasSort (ctx.extend s) (Fin.cases s sorts) body T.boolSort) :
      HasSort ctx sorts (.quant q s body) T.boolSort

/-- The context inside `n` quantifiers, the variables that they have handed out and the sorts
of these. -/
inductive Inside : {n : Nat} → Context T → (Fin n → Term T) → (Fin n → T.Sorts) → Prop where
  | none (ctx : Context T) : Inside ctx Fin.elim0 Fin.elim0
  | quant {n : Nat} {ctx : Context T} {scope : Fin n → Term T} {sorts : Fin n → T.Sorts}
      (h : Inside ctx scope sorts) (s : T.Sorts) :
      Inside (ctx.extend s) (Fin.cases (.var ctx.length s) scope) (Fin.cases s sorts)

/-- **A variable keeps its place under deeper quantifiers**: what has been handed out are
variables of the context. -/
lemma Inside.handed_out (h : Inside ctx scope sorts) (i : Fin n) :
    ∃ p, scope i = .var p (sorts i) ∧ ctx[p]? = some (sorts i) := by
  induction h with
  | none => exact i.elim0
  | @quant n ctx scope sorts _ s ih =>
    cases i using Fin.cases with
    | zero => exact ⟨ctx.length, rfl, by simp [Context.extend]⟩
    | succ i =>
      obtain ⟨p, hp, hsort⟩ := ih i
      have hlt : p < ctx.length := (List.getElem?_eq_some_iff.mp hsort).1
      refine ⟨p, hp, ?_⟩
      rw [Context.extend, List.getElem?_append_left hlt]
      exact hsort

/-! ### One constructor -/

/-- Computations one for each number below `n` succeed if each of them does. -/
lemma ofFnM_eq_ok {ε α : Type} {f : Fin n → Except ε α} {l : List α} :
    List.ofFnM f = .ok l ↔ ∃ g, (∀ i, f i = .ok (g i)) ∧ l = List.ofFn g := by
  refine ⟨fun h => ?_, ?_⟩
  · induction n generalizing l with
    | zero =>
      rw [List.ofFnM_zero, pure_eq_ok] at h
      exact ⟨Fin.elim0, fun i => i.elim0, by simpa using h.symm⟩
    | succ n ih =>
      simp only [List.ofFnM_succ, bind_eq_ok, pure_eq_ok] at h
      obtain ⟨a, ha, as, has, rfl⟩ := h
      obtain ⟨g, hg, rfl⟩ := ih has
      exact ⟨Fin.cases a g, Fin.cases ha hg, by simp [List.ofFn_succ]⟩
  · rintro ⟨g, hg, rfl⟩
    rw [funext hg]
    exact List.ofFnM_pure

lemma build_app_eq_ok {op : T.Op} {count : Nat} {args : Fin count → Expression T n}
    {t : Term T} :
    (app op args).build ctx scope = .ok t ↔
      ∃ ts : Fin count → Term T, (∀ i, (args i).build ctx scope = .ok (ts i)) ∧
        (T.signature op).args = List.ofFn (fun i => (ts i).sort) ∧ t = .app op (List.ofFn ts) := by
  simp only [build, bind_eq_ok, ofFnM_eq_ok, Term.mkApp_eq_ok]
  refine ⟨?_, ?_⟩
  · rintro ⟨_, ⟨ts, hts, rfl⟩, hsorts, rfl⟩
    refine ⟨ts, hts, ?_, rfl⟩
    rw [← hsorts, List.map_ofFn]
    rfl
  · rintro ⟨ts, hts, hsorts, rfl⟩
    refine ⟨_, ⟨ts, hts, rfl⟩, ?_, rfl⟩
    rw [hsorts, List.map_ofFn]
    rfl

lemma build_quant_eq_ok {q : Quantifier} {s : T.Sorts} {body : Expression T (n + 1)}
    {t : Term T} :
    (quant q s body).build ctx scope = .ok t ↔
      ∃ u, body.build (ctx.extend s) (Fin.cases (.var ctx.length s) scope) = .ok u ∧
        u.check (ctx.extend s) = .ok () ∧ u.sort = T.boolSort ∧ t = .quant q ctx.length s u :=
  Term.mkQuant_eq_ok

/-! ### Building and typing -/

/-- **Soundness**: an expression that is built has a sort, and the term has the same one. -/
theorem hasSort_of_build {e : Expression T n} (h : Inside ctx scope sorts) {t : Term T}
    (hbuild : e.build ctx scope = .ok t) :
    e.HasSort ctx sorts t.sort ∧ t.HasSort ctx t.sort := by
  induction e generalizing ctx t with
  | var p s =>
    obtain ⟨hp, rfl⟩ := Term.mkVar_eq_ok.mp hbuild
    exact ⟨.var hp, .var hp⟩
  | bound i =>
    obtain rfl := Except.ok.inj hbuild
    obtain ⟨p, hvar, hp⟩ := h.handed_out i
    rw [hvar]
    exact ⟨.bound i, .var hp⟩
  | lit l =>
    obtain rfl := Except.ok.inj hbuild
    exact ⟨.lit l, .lit l⟩
  | app op args ih =>
    obtain ⟨ts, hts, hop, rfl⟩ := build_app_eq_ok.mp hbuild
    refine ⟨.app hop fun i => (ih i h (hts i)).1, Term.hasSort_app.mpr ⟨?_, ?_, rfl⟩⟩
    · rw [hop, List.map_ofFn]
      rfl
    · rw [List.forall_mem_ofFn_iff]
      exact fun i => (ih i h (hts i)).2
  | quant q s body ih =>
    obtain ⟨u, hu, -, hbool, rfl⟩ := build_quant_eq_ok.mp hbuild
    obtain ⟨hbody, hterm⟩ := ih (h.quant s) hu
    rw [hbool] at hbody hterm
    exact ⟨.quant hbody, .quant hterm⟩

/-- A body that is built passes the check of its quantifier. -/
lemma check_of_build {e : Expression T n} (h : Inside ctx scope sorts) {t : Term T}
    (hbuild : e.build ctx scope = .ok t) : t.check ctx = .ok () :=
  (hasSort_of_build h hbuild).2.check

/-- **Completeness**: an expression that has a sort is built, at this sort. -/
theorem HasSort.build {e : Expression T n} {s : T.Sorts} (he : e.HasSort ctx sorts s)
    (h : Inside ctx scope sorts) : ∃ t, e.build ctx scope = .ok t ∧ t.sort = s := by
  induction he with
  | var hp => exact ⟨_, Term.mkVar_eq_ok.mpr ⟨hp, rfl⟩, rfl⟩
  | bound i =>
    obtain ⟨p, hvar, -⟩ := h.handed_out i
    exact ⟨_, rfl, by rw [hvar]; rfl⟩
  | lit l => exact ⟨_, rfl, rfl⟩
  | @app n ctx sorts op count args expected hop _ ih =>
    choose ts hts hsort using fun i => ih i h
    refine ⟨_, build_app_eq_ok.mpr ⟨ts, hts, ?_, rfl⟩, rfl⟩
    rw [hop, funext hsort]
  | @quant n ctx sorts q s body _ ih =>
    obtain ⟨u, hu, hbool⟩ := ih (h.quant s)
    have hcheck : u.check (ctx.extend s) = .ok () := check_of_build (h.quant s) hu
    exact ⟨_, build_quant_eq_ok.mpr ⟨u, hu, hcheck, hbool, rfl⟩, rfl⟩

/-- An expression has no other sort than the term that is built from it. -/
lemma hasSort_iff_of_build {e : Expression T n} (h : Inside ctx scope sorts) {t : Term T}
    (hbuild : e.build ctx scope = .ok t) (s : T.Sorts) : e.HasSort ctx sorts s ↔ t.sort = s := by
  refine ⟨fun he => ?_, ?_⟩
  · obtain ⟨u, hu, hsort⟩ := he.build h
    obtain rfl := Except.ok.inj (hbuild.symm.trans hu)
    exact hsort
  · rintro rfl
    exact (hasSort_of_build h hbuild).1

/-- **The check of a body never fails**: without it a quantifier is built all the same. -/
theorem build_quant_eq (h : Inside ctx scope sorts) (q : Quantifier) (s : T.Sorts)
    (body : Expression T (n + 1)) :
    (quant q s body).build ctx scope = do
      let u ← body.build (ctx.extend s) (Fin.cases (.var ctx.length s) scope)
      u.expectBool
      return .quant q ctx.length s u := by
  rw [build, Term.mkQuant]
  cases hu : body.build (ctx.extend s) (Fin.cases (.var ctx.length s) scope) with
  | error e => rfl
  | ok u => simp only [ok_bind, check_of_build (h.quant s) hu]

end Expression

open Expression

/-- **Building in one context is complete and sound.** An expression is built exactly if it has
a sort in the context; the term then passes the check of the context and has that sort, and no
other. Inside any quantifiers the check of a body is passed by every body that is built, so
that a quantifier fails only where its body does, or is not boolean. A term that is built in
the context of a script is accepted as an assertion exactly if it is boolean. -/
theorem Script.assert_built :
    (∀ (ctx : Context T) (e : Expression T 0),
      ((∃ t, e.build ctx Fin.elim0 = .ok t) ↔ ∃ s, e.HasSort ctx Fin.elim0 s) ∧
      ∀ t, e.build ctx Fin.elim0 = .ok t →
        t.check ctx = .ok () ∧ ∀ s, e.HasSort ctx Fin.elim0 s ↔ t.sort = s) ∧
    (∀ {n : Nat} {ctx : Context T} {scope : Fin n → Term T} {sorts : Fin n → T.Sorts},
      Inside ctx scope sorts → ∀ (q : Quantifier) (s : T.Sorts) (body : Expression T (n + 1)),
        (∀ u, body.build (ctx.extend s) (Fin.cases (.var ctx.length s) scope) = .ok u →
          u.check (ctx.extend s) = .ok ()) ∧
        (quant q s body).build ctx scope = do
          let u ← body.build (ctx.extend s) (Fin.cases (.var ctx.length s) scope)
          u.expectBool
          return .quant q ctx.length s u) ∧
    ∀ (s : Script T) (e : Expression T 0) t, e.build s.context Fin.elim0 = .ok t →
      ((∃ next, (Script.assert t).run s = .ok () next) ↔ t.sort = T.boolSort) := by
  refine ⟨fun ctx e => ⟨⟨?_, ?_⟩, fun t ht => ⟨?_, ?_⟩⟩, fun h q s body => ⟨fun u hu => ?_, ?_⟩,
    fun s e t ht => ?_⟩
  · rintro ⟨t, ht⟩
    exact ⟨t.sort, (hasSort_of_build (.none ctx) ht).1⟩
  · rintro ⟨s, he⟩
    obtain ⟨t, ht, -⟩ := he.build (.none ctx)
    exact ⟨t, ht⟩
  · exact check_of_build (.none ctx) ht
  · exact hasSort_iff_of_build (.none ctx) ht
  · exact check_of_build (h.quant s) hu
  · exact build_quant_eq h q s body
  · rw [exists_assert_eq_ok, and_iff_right (check_of_build (.none s.context) ht)]

/-- Some integer is at most the one declared, and at most any other. -/
def lowest : Expression arith 0 :=
  .quant .existential Arith.Srt.int <| .quant .universal Arith.Srt.int <| .app Arith.Op.and
    [.app (Arith.Op.le .int) [.bound 1, .var 0 Arith.Srt.int].get,
      .app (Arith.Op.le .int) [.bound 1, .bound 0].get].get

/-- What is built from `lowest` after one declaration. -/
def lowestTerm : Term arith :=
  .quant .existential 1 Arith.Srt.int <| .quant .universal 2 Arith.Srt.int <| .app Arith.Op.and
    [.app (Arith.Op.le .int) [.var 1 Arith.Srt.int, .var 0 Arith.Srt.int],
      .app (Arith.Op.le .int) [.var 1 Arith.Srt.int, .var 2 Arith.Srt.int]]

/-- The outer variable is used under the inner quantifier as it was handed out. -/
theorem lowest_assert_built :
    let declared := Script.ofCalls [.declareConst Arith.Srt.int]
    declared.context = [Arith.Srt.int] ∧
      lowest.build [Arith.Srt.int] Fin.elim0 = .ok lowestTerm ∧
      lowestTerm.check [Arith.Srt.int] = .ok () ∧
      lowest.HasSort [Arith.Srt.int] Fin.elim0 Arith.Srt.bool ∧
      ∃ next, (Script.assert lowestTerm).run declared = .ok () next := by
  have hbuild : lowest.build [Arith.Srt.int] Fin.elim0 = .ok lowestTerm := by cbv
  obtain ⟨hbuilt, -, hassert⟩ := Script.assert_built (T := arith)
  obtain ⟨hcheck, hsort⟩ := (hbuilt [Arith.Srt.int] lowest).2 lowestTerm hbuild
  refine ⟨rfl, hbuild, hcheck, (hsort _).mpr rfl, ?_⟩
  exact (hassert (Script.ofCalls [.declareConst Arith.Srt.int]) lowest lowestTerm hbuild).mpr rfl

end SmtScript
