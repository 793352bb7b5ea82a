import SmtScript.Proofs.Term.Printing

/-!
Terms are told from what is written of them, if the theory is legible: its symbols are plain
atoms, an operation is known by its text and the sorts of its arguments, and a literal is
not mistaken for another one or for a name. Literals that are written like applications are
left out by a condition on literals.
-/

namespace SmtScript

open Lexeme

variable {T : Theory}

/-- The symbols of the theory, and the literals of a kind, are told apart by their texts. -/
structure Theory.Legible (T : Theory) (P : T.Literal → Prop) : Prop where
  plain_sort : ∀ s, Plain (T.sortText s)
  sort_inj : Function.Injective T.sortText
  plain_op : ∀ op, Plain (T.opText op)
  op_inj : ∀ op op', T.opText op = T.opText op' →
    (T.signature op).args = (T.signature op').args → op = op'
  op_ne_quantifier : ∀ op (q : Quantifier), T.opText op ≠ q.text
  plain_literal : ∀ l, P l → Plain (T.literalText l)
  literal_inj : ∀ l l', P l → P l' → T.literalText l = T.literalText l' → l = l'
  literal_ne_name : ∀ l n, P l → T.literalText l ≠ Naming.nameOf n

/-- The texts that stand in terms as atoms: the symbols of the theory, its literals of a
kind, quantifiers and names. -/
inductive Theory.Symbol (T : Theory) (P : T.Literal → Prop) : Text → Prop where
  | sort (s : T.Sorts) : Symbol T P (T.sortText s)
  | op (op : T.Op) : Symbol T P (T.opText op)
  | literal {l : T.Literal} (h : P l) : Symbol T P (T.literalText l)
  | quantifier (q : Quantifier) : Symbol T P q.text
  | name (n : Nat) : Symbol T P (Naming.nameOf n)

lemma Quantifier.plain_text (q : Quantifier) : Plain q.text := by
  cases q <;> decide

lemma Theory.Legible.plain_symbol {P : T.Literal → Prop} (hT : T.Legible P) {a : Text}
    (h : T.Symbol P a) : Plain a := by
  cases h with
  | sort s => exact hT.plain_sort s
  | op op => exact hT.plain_op op
  | literal h => exact hT.plain_literal _ h
  | quantifier q => exact q.plain_text
  | name n => exact Naming.plain_nameOf n

lemma Quantifier.text_injective : Function.Injective Quantifier.text := by
  intro q q' h
  cases q <;> cases q' <;> first | rfl | exact absurd h (by decide)

namespace Term

variable {P : T.Literal → Prop}

/-- All literals of the term have the property. -/
inductive Literals (P : T.Literal → Prop) : Term T → Prop where
  | var (p : Nat) (s : T.Sorts) : Literals P (.var p s)
  | lit {l : T.Literal} (h : P l) : Literals P (.lit l)
  | app {op : T.Op} {args : List (Term T)} (h : ∀ t ∈ args, Literals P t) :
      Literals P (.app op args)
  | quant {q : Quantifier} {p : Nat} {s : T.Sorts} {body : Term T} (h : Literals P body) :
      Literals P (.quant q p s body)

lemma literals_lit {l : T.Literal} : Literals P (.lit l) ↔ P l :=
  ⟨fun | .lit h => h, .lit⟩

lemma literals_app {op : T.Op} {args : List (Term T)} :
    Literals P (.app op args) ↔ ∀ t ∈ args, t.Literals P :=
  ⟨fun | .app h => h, .app⟩

lemma literals_quant {q : Quantifier} {p : Nat} {s : T.Sorts} {body : Term T} :
    Literals P (.quant q p s body) ↔ body.Literals P :=
  ⟨fun | .quant h => h, .quant⟩

/-- The term is well-sorted in the context, and its literals have the property. -/
def Proper (P : T.Literal → Prop) (ctx : Context T) (t : Term T) : Prop :=
  HasSort ctx t t.sort ∧ t.Literals P

lemma proper_var {ctx : Context T} {p : Nat} {s : T.Sorts} :
    Proper P ctx (.var p s) ↔ ctx[p]? = some s :=
  ⟨fun h => (hasSort_var.mp h.1).1, fun h => ⟨.var h, .var p s⟩⟩

lemma Proper.position_lt {ctx : Context T} {p : Nat} {s : T.Sorts}
    (h : Proper P ctx (.var p s)) : p < ctx.length :=
  (List.getElem?_eq_some_iff.mp (proper_var.mp h)).1

lemma proper_lit {ctx : Context T} {l : T.Literal} : Proper P ctx (.lit l) ↔ P l :=
  ⟨fun h => literals_lit.mp h.2, fun h => ⟨.lit l, .lit h⟩⟩

lemma proper_app {ctx : Context T} {op : T.Op} {args : List (Term T)} :
    Proper P ctx (.app op args) ↔
      args.map sort = (T.signature op).args ∧ ∀ t ∈ args, t.Proper P ctx := by
  unfold Proper
  rw [hasSort_app, literals_app]
  refine ⟨?_, ?_⟩
  · rintro ⟨⟨hmap, hargs, -⟩, hl⟩
    exact ⟨hmap, fun t ht => ⟨hargs t ht, hl t ht⟩⟩
  · rintro ⟨hmap, h⟩
    exact ⟨⟨hmap, fun t ht => (h t ht).1, rfl⟩, fun t ht => (h t ht).2⟩

lemma proper_quant {ctx : Context T} {q : Quantifier} {p : Nat} {s : T.Sorts}
    {body : Term T} :
    Proper P ctx (.quant q p s body) ↔
      p = ctx.length ∧ body.sort = T.boolSort ∧ body.Proper P (ctx.extend s) := by
  unfold Proper
  rw [hasSort_quant, literals_quant]
  refine ⟨?_, ?_⟩
  · rintro ⟨⟨hp, hbody, -⟩, hl⟩
    have hbool := hbody.sort_eq
    exact ⟨hp, hbool, hbool ▸ hbody, hl⟩
  · rintro ⟨hp, hbool, hbody, hl⟩
    exact ⟨⟨hp, hbool ▸ hbody, rfl⟩, hl⟩

/-! ### Texts of legible terms -/

lemma symbols_argsSexp {ctx : Context T} {args : List (Term T)}
    (hargs : ∀ t ∈ args, ∀ names : Naming, names.depth = ctx.length →
      (t.sexp names).Atoms (T.Symbol P)) {names : Naming} (hd : names.depth = ctx.length) :
    ∀ s ∈ argsSexp args names, s.Atoms (T.Symbol P) := by
  induction args generalizing names with
  | nil => exact nofun
  | cons t args ih =>
    obtain ⟨hfirst, hargs⟩ := List.forall_mem_cons.mp hargs
    have hrest := ih hargs (show (names.advance t.quantifiers).depth = ctx.length from hd)
    rw [argsSexp, List.forall_mem_cons]
    exact ⟨hfirst names hd, hrest⟩

/-- The atoms of a term are symbols. -/
lemma symbols_sexp {t : Term T} {ctx : Context T} (ht : t.Proper P ctx) {names : Naming}
    (hd : names.depth = ctx.length) : (t.sexp names).Atoms (T.Symbol P) := by
  induction t generalizing ctx names with
  | var p s =>
    have hp : p < names.depth := hd ▸ ht.position_lt
    rw [sexp, Naming.nameAt_eq hp]
    exact .atom (.name _)
  | lit l => exact .atom (.literal (proper_lit.mp ht))
  | app op args ih =>
    obtain ⟨-, hargs⟩ := proper_app.mp ht
    rw [sexp, Sexp.atoms_list, List.forall_mem_cons]
    exact ⟨.atom (.op op), symbols_argsSexp (fun t hm names hd => ih t hm (hargs t hm) hd) hd⟩
  | quant q p s body ih =>
    obtain ⟨-, -, hbody⟩ := proper_quant.mp ht
    have hbinder : (Sexp.list [.atom names.fresh, .atom (T.sortText s)]).Atoms (T.Symbol P) := by
      refine .list fun u hu => ?_
      rcases List.mem_pair.mp hu with rfl | rfl
      · exact .atom (.name _)
      · exact .atom (.sort s)
    rw [sexp, Sexp.atoms_list]
    simp only [List.forall_mem_cons, List.not_mem_nil, false_imp_iff, implies_true, and_true]
    exact ⟨.atom (.quantifier q), .list (by simpa using hbinder), ih hbody (by simp [hd])⟩

/-- What is to be shown of a term: no other one has its tree. -/
def Determined (P : T.Literal → Prop) (t : Term T) : Prop :=
  ∀ {t' : Term T} {ctx : Context T} {names : Naming}, names.depth = ctx.length →
    names.Ordered → t.Proper P ctx → t'.Proper P ctx → t.sexp names = t'.sexp names → t = t'

/-- The arguments are compared from the left; equal ones have moved the counter equally. -/
lemma argsSexp_inj {args args' : List (Term T)} (hargs : ∀ t ∈ args, t.Determined P)
    {ctx : Context T} {names : Naming} (hd : names.depth = ctx.length) (ho : names.Ordered)
    (h : ∀ t ∈ args, t.Proper P ctx) (h' : ∀ t ∈ args', t.Proper P ctx)
    (heq : argsSexp args names = argsSexp args' names) : args = args' := by
  induction args generalizing args' names with
  | nil =>
    cases args' with
    | nil => rfl
    | cons => cases heq
  | cons t args ih =>
    cases args' with
    | nil => cases heq
    | cons t' args' =>
      rw [argsSexp, argsSexp, List.cons.injEq] at heq
      obtain ⟨hfirst, hargs⟩ := List.forall_mem_cons.mp hargs
      obtain ⟨ht, hrest⟩ := List.forall_mem_cons.mp h
      obtain ⟨ht', hrest'⟩ := List.forall_mem_cons.mp h'
      obtain rfl := hfirst hd ho ht ht' heq.1
      have hd' : (names.advance t.quantifiers).depth = ctx.length := hd
      obtain rfl := ih hargs hd' (ho.advance _) hrest hrest' heq.2
      rfl

/-- **A term is told from its tree.** -/
theorem determined (hT : T.Legible P) (t : Term T) : t.Determined P := by
  induction t with
  | var p s =>
    intro t' ctx names hd ho ht ht' heq
    have hp : p < names.depth := hd ▸ ht.position_lt
    cases t' with
    | var p' s' =>
      have hp' : p' < names.depth := hd ▸ ht'.position_lt
      obtain rfl := ho.nameAt_inj hp hp' (Sexp.atom.inj heq)
      obtain rfl := Option.some.inj ((proper_var.mp ht).symm.trans (proper_var.mp ht'))
      rfl
    | lit l =>
      have hname := (Sexp.atom.inj heq).symm
      rw [Naming.nameAt_eq hp] at hname
      exact absurd hname (hT.literal_ne_name l _ (proper_lit.mp ht'))
    | app | quant => cases heq
  | lit l =>
    intro t' ctx names hd ho ht ht' heq
    have hl := proper_lit.mp ht
    cases t' with
    | var p s =>
      have hp : p < names.depth := hd ▸ ht'.position_lt
      have hname := Sexp.atom.inj heq
      rw [Naming.nameAt_eq hp] at hname
      exact absurd hname (hT.literal_ne_name l _ hl)
    | lit l' => rw [hT.literal_inj l l' hl (proper_lit.mp ht') (Sexp.atom.inj heq)]
    | app | quant => cases heq
  | app op args ih =>
    intro t' ctx names hd ho ht ht' heq
    obtain ⟨hmap, hargs⟩ := proper_app.mp ht
    cases t' with
    | var | lit => cases heq
    | app op' args' =>
      obtain ⟨hmap', hargs'⟩ := proper_app.mp ht'
      rw [sexp, sexp, Sexp.list.injEq, List.cons.injEq, Sexp.atom.injEq] at heq
      obtain rfl := argsSexp_inj ih hd ho hargs hargs' heq.2
      rw [hT.op_inj op op' heq.1 (hmap.symm.trans hmap')]
    | quant q p s body =>
      rw [sexp, sexp, Sexp.list.injEq, List.cons.injEq, Sexp.atom.injEq] at heq
      exact absurd heq.1 (hT.op_ne_quantifier op q)
  | quant q p s body ih =>
    intro t' ctx names hd ho ht ht' heq
    obtain ⟨rfl, -, hbody⟩ := proper_quant.mp ht
    cases t' with
    | var | lit => cases heq
    | app op args =>
      rw [sexp, sexp, Sexp.list.injEq, List.cons.injEq, Sexp.atom.injEq] at heq
      exact absurd heq.1.symm (hT.op_ne_quantifier op q)
    | quant q' p' s' body' =>
      obtain ⟨rfl, -, hbody'⟩ := proper_quant.mp ht'
      simp only [sexp, Sexp.list.injEq, List.cons.injEq, Sexp.atom.injEq, and_true,
        true_and] at heq
      obtain ⟨hq, hs, hb⟩ := heq
      obtain rfl := Quantifier.text_injective hq
      obtain rfl := hT.sort_inj hs
      rw [ih (by simp [hd]) ho.bind hbody hbody' hb]

end Term

end SmtScript
