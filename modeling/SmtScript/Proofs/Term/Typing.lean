import Mathlib.Data.List.Forall2
import SmtScript.Proofs.Except
import SmtScript.Term.Basic

/-!
Well-sorted terms. `HasSort ctx t s` says by rules what it is for a term to have a sort in a
context; `Built t` says that a term comes from the constructors, whatever the contexts they
were called in. A term so built that passes the check of a context is well-sorted there.
-/

namespace SmtScript.Term

variable {T : Theory}

/-- Induction on terms, with the hypothesis for every argument of an application. -/
@[elab_as_elim, induction_eliminator]
theorem induction {P : Term T → Prop} (var : ∀ p s, P (.var p s)) (lit : ∀ l, P (.lit l))
    (app : ∀ op args, (∀ t ∈ args, P t) → P (.app op args))
    (quant : ∀ q p s body, P body → P (.quant q p s body)) : ∀ t, P t
  | .var p s => var p s
  | .lit l => lit l
  | .app op args => app op args fun t _ => induction var lit app quant t
  | .quant q p s body => quant q p s body (induction var lit app quant body)

/-! ### The check -/

lemma checkVariable_eq_ok {ctx : Context T} {p : Nat} {s : T.Sorts} :
    checkVariable ctx p s = .ok () ↔ ctx[p]? = some s := by
  unfold checkVariable
  split
  · next h => simp [h]
  · next declared h =>
    split
    · next heq => simp [h, heq]
    · next hne => simp [h, hne]

lemma check_var {ctx : Context T} {p : Nat} {s : T.Sorts} :
    check ctx (.var p s) = .ok () ↔ ctx[p]? = some s := by
  rw [check, checkVariable_eq_ok]

lemma position_lt_of_check {ctx : Context T} {p : Nat} {s : T.Sorts}
    (h : check ctx (.var p s) = .ok ()) : p < ctx.length :=
  (List.getElem?_eq_some_iff.mp (check_var.mp h)).1

lemma checkArgs_eq_ok {ctx : Context T} {args : List (Term T)} :
    checkArgs ctx args = .ok () ↔ ∀ t ∈ args, t.check ctx = .ok () := by
  induction args with
  | nil => simp [checkArgs]
  | cons t args ih =>
    rw [checkArgs, bind_eq_ok, List.forall_mem_cons, ← ih]
    exact ⟨fun ⟨_, ht, hargs⟩ => ⟨ht, hargs⟩, fun ⟨ht, hargs⟩ => ⟨(), ht, hargs⟩⟩

lemma check_app {ctx : Context T} {op : T.Op} {args : List (Term T)} :
    check ctx (.app op args) = .ok () ↔ ∀ t ∈ args, t.check ctx = .ok () := by
  rw [check, checkArgs_eq_ok]

lemma check_quant {ctx : Context T} {q : Quantifier} {p : Nat} {s : T.Sorts} {body : Term T} :
    check ctx (.quant q p s body) = .ok () ↔
      p = ctx.length ∧ body.check (ctx.extend s) = .ok () := by
  rw [check]
  split
  · next h => simp [h]
  · next h => simp [h]

lemma expectBool_eq_ok {t : Term T} : t.expectBool = .ok () ↔ t.sort = T.boolSort := by
  unfold expectBool
  split
  · next h => simp [h]
  · next h => simp [h]

/-! ### The constructors -/

lemma mkVar_eq_ok {ctx : Context T} {p : Nat} {s : T.Sorts} {t : Term T} :
    mkVar ctx p s = .ok t ↔ ctx[p]? = some s ∧ t = .var p s := by
  rw [mkVar, bind_eq_ok]
  refine ⟨?_, ?_⟩
  · rintro ⟨⟨⟩, hp, ht⟩
    exact ⟨checkVariable_eq_ok.mp hp, (pure_eq_ok.mp ht).symm⟩
  · rintro ⟨hp, rfl⟩
    exact ⟨(), checkVariable_eq_ok.mpr hp, rfl⟩

lemma matchArgs_eq_ok {op : T.Op} {index : Nat} {sorts : List T.Sorts} {args : List (Term T)}
    (h : sorts.length = args.length) :
    matchArgs op index sorts args = .ok () ↔ args.map sort = sorts := by
  induction args generalizing index sorts with
  | nil =>
    obtain rfl := List.length_eq_zero_iff.mp h
    simp [matchArgs]
  | cons t args ih =>
    obtain ⟨s, sorts, rfl⟩ := List.exists_cons_of_length_eq_add_one h
    rw [matchArgs, List.map_cons, List.cons.injEq]
    split
    · next heq => rw [ih (by simpa using h), and_iff_right heq]
    · next hne => exact ⟨nofun, fun h => absurd h.1 hne⟩

lemma mkApp_eq_ok {op : T.Op} {args : List (Term T)} {t : Term T} :
    mkApp op args = .ok t ↔ args.map sort = (T.signature op).args ∧ t = .app op args := by
  rw [mkApp]
  split
  · next hlen =>
    rw [bind_eq_ok]
    refine ⟨?_, ?_⟩
    · rintro ⟨⟨⟩, hmatch, ht⟩
      exact ⟨(matchArgs_eq_ok hlen).mp hmatch, (pure_eq_ok.mp ht).symm⟩
    · rintro ⟨hargs, rfl⟩
      exact ⟨(), (matchArgs_eq_ok hlen).mpr hargs, rfl⟩
  · next hlen =>
    refine ⟨nofun, fun h => absurd ?_ hlen⟩
    rw [Signature.arity, ← h.1, List.length_map]

lemma mkQuant_eq_ok {q : Quantifier} {ctx : Context T} {s : T.Sorts}
    {body : Context T → Term T → Except BuildError (Term T)} {t : Term T} :
    mkQuant q ctx s body = .ok t ↔
      ∃ u, body (ctx.extend s) (.var ctx.length s) = .ok u ∧ u.check (ctx.extend s) = .ok () ∧
        u.sort = T.boolSort ∧ t = .quant q ctx.length s u := by
  simp only [mkQuant, bind_eq_ok, pure_eq_ok, expectBool_eq_ok.symm]
  refine ⟨?_, ?_⟩
  · rintro ⟨u, hbody, ⟨⟩, hcheck, ⟨⟩, hbool, rfl⟩
    exact ⟨u, hbody, hcheck, hbool, rfl⟩
  · rintro ⟨u, hbody, hcheck, hbool, rfl⟩
    exact ⟨u, hbody, (), hcheck, (), hbool, rfl⟩

/-- Terms that the constructors give. They may be called in any contexts, and the body of a
quantifier may be made from whatever terms there are. -/
inductive Built : Term T → Prop where
  | var {ctx : Context T} {p : Nat} {s : T.Sorts} {t : Term T} (h : mkVar ctx p s = .ok t) :
      Built t
  | lit (l : T.Literal) : Built (.lit l)
  | app {op : T.Op} {args : List (Term T)} {t : Term T} (hargs : ∀ u ∈ args, Built u)
      (h : mkApp op args = .ok t) : Built t
  | quant {q : Quantifier} {ctx : Context T} {s : T.Sorts}
      {body : Context T → Term T → Except BuildError (Term T)} {u t : Term T}
      (hbody : body (ctx.extend s) (.var ctx.length s) = .ok u) (hu : Built u)
      (h : mkQuant q ctx s body = .ok t) : Built t

lemma built_var (ctx : Context T) {p : Nat} {s : T.Sorts} (h : ctx[p]? = some s) :
    Built (.var p s) :=
  .var (mkVar_eq_ok.mpr ⟨h, rfl⟩)

lemma built_app {op : T.Op} {args : List (Term T)} (hargs : ∀ u ∈ args, Built u)
    (h : args.map sort = (T.signature op).args) : Built (.app op args) :=
  .app hargs (mkApp_eq_ok.mpr ⟨h, rfl⟩)

lemma built_quant (ctx : Context T) {q : Quantifier} {s : T.Sorts} {u : Term T} (hu : Built u)
    (hcheck : u.check (ctx.extend s) = .ok ()) (hbool : u.sort = T.boolSort) :
    Built (.quant q ctx.length s u) :=
  @Built.quant T q ctx s (fun _ _ => .ok u) u _ rfl hu
    (mkQuant_eq_ok.mpr ⟨u, rfl, hcheck, hbool, rfl⟩)

/-! ### The typing judgement -/

mutual

/-- The term has the sort in the context. -/
inductive HasSort : Context T → Term T → T.Sorts → Prop where
  | var {ctx : Context T} {p : Nat} {s : T.Sorts} (h : ctx[p]? = some s) :
      HasSort ctx (.var p s) s
  | lit {ctx : Context T} (l : T.Literal) : HasSort ctx (.lit l) (T.literalSort l)
  | app {ctx : Context T} {op : T.Op} {args : List (Term T)}
      (h : HaveSorts ctx args (T.signature op).args) :
      HasSort ctx (.app op args) (T.signature op).result
  | quant {ctx : Context T} {q : Quantifier} {s : T.Sorts} {body : Term T}
      (h : HasSort (ctx.extend s) body T.boolSort) :
      HasSort ctx (.quant q ctx.length s body) T.boolSort

/-- The terms have the sorts, one each. -/
inductive HaveSorts : Context T → List (Term T) → List T.Sorts → Prop where
  | nil {ctx : Context T} : HaveSorts ctx [] []
  | cons {ctx : Context T} {t : Term T} {s : T.Sorts} {args : List (Term T)}
      {sorts : List T.Sorts} (h : HasSort ctx t s) (hs : HaveSorts ctx args sorts) :
      HaveSorts ctx (t :: args) (s :: sorts)

end

lemma haveSorts_iff {ctx : Context T} {args : List (Term T)} {sorts : List T.Sorts} :
    HaveSorts ctx args sorts ↔ List.Forall₂ (HasSort ctx) args sorts := by
  refine ⟨?_, ?_⟩
  · intro h
    induction args generalizing sorts with
    | nil => cases h; exact .nil
    | cons t args ih =>
      cases h with
      | cons ht hargs => exact .cons ht (ih hargs)
  · intro h
    induction h with
    | nil => exact .nil
    | cons ht _ ih => exact .cons ht ih

lemma HasSort.sort_eq {ctx : Context T} {t : Term T} {s : T.Sorts} (h : HasSort ctx t s) :
    t.sort = s := by
  cases h <;> rfl

lemma hasSort_var {ctx : Context T} {p : Nat} {s r : T.Sorts} :
    HasSort ctx (.var p s) r ↔ ctx[p]? = some s ∧ r = s :=
  ⟨fun | .var h => ⟨h, rfl⟩, fun ⟨h, hr⟩ => by subst hr; exact .var h⟩

/-- An application is well-sorted if its arguments are, at the sorts of the signature. -/
lemma hasSort_app {ctx : Context T} {op : T.Op} {args : List (Term T)} {r : T.Sorts} :
    HasSort ctx (.app op args) r ↔
      args.map sort = (T.signature op).args ∧ (∀ t ∈ args, HasSort ctx t t.sort) ∧
        r = (T.signature op).result := by
  have hargs (sorts : List T.Sorts) : List.Forall₂ (HasSort ctx) args sorts ↔
      args.map sort = sorts ∧ ∀ t ∈ args, HasSort ctx t t.sort := by
    refine ⟨?_, ?_⟩
    · intro h
      induction h with
      | nil => simp
      | cons ht _ ih => simp [ht.sort_eq, ht, ih.1]; exact ih.2
    · rintro ⟨rfl, h⟩
      rw [List.forall₂_map_right_iff, List.forall₂_same]
      exact h
  refine ⟨?_, ?_⟩
  · intro h
    cases h with
    | app h =>
      obtain ⟨hmap, hall⟩ := (hargs _).mp (haveSorts_iff.mp h)
      exact ⟨hmap, hall, rfl⟩
  · rintro ⟨hmap, hall, rfl⟩
    exact .app (haveSorts_iff.mpr ((hargs _).mpr ⟨hmap, hall⟩))

lemma hasSort_quant {ctx : Context T} {q : Quantifier} {p : Nat} {s r : T.Sorts}
    {body : Term T} :
    HasSort ctx (.quant q p s body) r ↔
      p = ctx.length ∧ HasSort (ctx.extend s) body T.boolSort ∧ r = T.boolSort :=
  ⟨fun | .quant h => ⟨rfl, h, rfl⟩, fun ⟨hp, h, hr⟩ => by subst hp hr; exact .quant h⟩

/-- **A built term that passes the check is well-sorted.** -/
theorem Built.hasSort {t : Term T} (ht : t.Built) {ctx : Context T}
    (hcheck : t.check ctx = .ok ()) : HasSort ctx t t.sort := by
  induction ht generalizing ctx with
  | var h =>
    obtain ⟨-, rfl⟩ := mkVar_eq_ok.mp h
    exact .var (check_var.mp hcheck)
  | lit l => exact .lit l
  | app _ h ih =>
    obtain ⟨hmap, rfl⟩ := mkApp_eq_ok.mp h
    exact hasSort_app.mpr ⟨hmap, fun u hu => ih u hu (check_app.mp hcheck u hu), rfl⟩
  | quant hbody _ h ih =>
    obtain ⟨u, hu, -, hbool, rfl⟩ := mkQuant_eq_ok.mp h
    obtain rfl : _ = u := Except.ok.inj (hbody.symm.trans hu)
    obtain ⟨hp, hbody⟩ := check_quant.mp hcheck
    exact hasSort_quant.mpr ⟨hp, hbool ▸ ih hbody, rfl⟩

end SmtScript.Term
