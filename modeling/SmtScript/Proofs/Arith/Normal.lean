import Mathlib.Algebra.Order.Field.Rat
import Mathlib.Algebra.Order.Ring.Cast
import SmtScript.Proofs.Arith.Symbols

/-!
Literal normal form. A negative number is written like a negation, and a real that is not
whole like a quotient, so that the text does not tell a literal of the one kind from an
application of the other. In normal form there are applications only; the text stays the
same, and so do the sort and the quantifiers.
-/

namespace SmtScript

namespace Arith

/-- A real as the quotient of its numerator and its denominator, unless it is whole. -/
def quotient (r : Rat) : Term arith :=
  if r.den = 1 then .lit (Constant.real r)
  else .app Op.div [.lit (Constant.real r.num), .lit (Constant.real r.den)]

/-- A constant as a term in which no literal is negative or fractional. -/
def Constant.normal : Constant → Term arith
  | .bool b => .lit (Constant.bool b)
  | .int n =>
    if n < 0 then .app (Op.neg .int) [.lit (Constant.int (-n))] else .lit (Constant.int n)
  | .real r => if r < 0 then .app (Op.neg .real) [quotient (-r)] else quotient r

end Arith

namespace Term

mutual

/-- The literal normal form of a term. -/
def literalNormal : Term arith → Term arith
  | .var position sort => .var position sort
  | .lit value => Arith.Constant.normal value
  | .app op args => .app op (argsNormal args)
  | .quant q position sort body => .quant q position sort body.literalNormal

def argsNormal : List (Term arith) → List (Term arith)
  | [] => []
  | t :: rest => t.literalNormal :: argsNormal rest

end

lemma argsNormal_eq_map (args : List (Term arith)) : argsNormal args = args.map literalNormal := by
  induction args with
  | nil => rfl
  | cons t args ih => rw [argsNormal, ih, List.map_cons]

end Term

/-! ### Constants -/

namespace Arith

open Term

variable {ctx : Context arith} {names : Naming}

lemma text_neg (n : Numeric) (t : Term arith) :
    (sexp (.app (Op.neg n) [t]) names).text = signed true (t.sexp names).text := by
  have hop : arith.opText (Op.neg n) = "-" := rfl
  rw [text_sexp_app, hop]
  simp [argsSexp, signed]

lemma text_quotient {r : Rat} (h : 0 ≤ r) :
    ((quotient r).sexp names).text = (Constant.real r).text := by
  have hnum : 0 ≤ r.num := Rat.num_nonneg.mpr h
  unfold quotient
  split
  · rfl
  · next hden =>
    have hop : arith.opText Op.div = "/" := rfl
    have hn : (Constant.real r.num).text = wholeText r.num.natAbs := by
      rw [Constant.text_real (Int.cast_nonneg hnum) (Rat.den_intCast _), Rat.num_intCast]
    have hd : (Constant.real r.den).text = wholeText r.den := by
      rw [Constant.text_real (Nat.cast_nonneg _) (Rat.den_natCast _), Rat.num_natCast,
        Int.natAbs_natCast]
    have htext : (Constant.real r).text =
        "(/ " ++ wholeText r.num.natAbs ++ " " ++ wholeText r.den ++ ")" := by
      rw [Constant.text, realText, decide_eq_false (not_lt.mpr hnum), if_neg hden]
      rfl
    rw [text_sexp_app, hop, htext]
    simp [argsSexp, sexp, Sexp.text, hn, hd]

lemma text_neg_int {n : Int} (h : n < 0) :
    signed true (Constant.int (-n)).text = (Constant.int n).text := by
  have habs := Constant.text_int (Int.neg_nonneg_of_nonpos h.le)
  rw [habs, Int.natAbs_neg, Constant.text, intText, decide_eq_true h]

lemma text_neg_real {r : Rat} (h : r < 0) :
    signed true (Constant.real (-r)).text = (Constant.real r).text := by
  have hnum : r.num < 0 := Rat.num_neg.mpr h
  have hneg : ¬ (-r).num < 0 := by
    rw [Rat.neg_num]
    omega
  rw [Constant.text, Constant.text, realText, realText, decide_eq_false hneg,
    decide_eq_true hnum, Rat.neg_num, Rat.neg_den, Int.natAbs_neg]
  rfl

/-- **The normal form of a constant is written as the constant is.** -/
lemma Constant.text_normal (c : Constant) : (c.normal.sexp names).text = c.text := by
  cases c with
  | bool b => rfl
  | int n =>
    rw [normal]
    split
    · next h =>
      rw [text_neg, ← text_neg_int h]
      rfl
    · rfl
  | real r =>
    rw [normal]
    split
    · next h => rw [text_neg, text_quotient (neg_nonneg.mpr h.le), text_neg_real h]
    · next h => exact text_quotient (not_lt.mp h)

lemma proper_quotient {r : Rat} (h : 0 ≤ r) :
    (quotient r).Proper Constant.Unsigned ctx ∧ (quotient r).sort = Srt.real := by
  unfold quotient
  split
  · next hden => exact ⟨proper_lit.mpr ⟨h, hden⟩, rfl⟩
  · have hn : Constant.Unsigned (.real r.num) :=
      ⟨Int.cast_nonneg (Rat.num_nonneg.mpr h), Rat.den_intCast _⟩
    have hd : Constant.Unsigned (.real r.den) := ⟨Nat.cast_nonneg _, Rat.den_natCast _⟩
    refine ⟨proper_app.mpr ⟨rfl, fun t ht => ?_⟩, rfl⟩
    rcases List.mem_pair.mp ht with rfl | rfl
    · exact proper_lit.mpr hn
    · exact proper_lit.mpr hd

lemma proper_neg {n : Numeric} {t : Term arith} (h : t.Proper Constant.Unsigned ctx)
    (hsort : t.sort = n.sort) : Proper Constant.Unsigned ctx (.app (Op.neg n) [t]) := by
  refine proper_app.mpr ⟨congrArg ([·]) hsort, fun u hu => ?_⟩
  obtain rfl := List.mem_singleton.mp hu
  exact h

/-- **The normal form of a constant is a term of its sort**, with unsigned literals only. -/
lemma Constant.proper_normal (c : Constant) :
    c.normal.Proper Constant.Unsigned ctx ∧ c.normal.sort = c.sort := by
  cases c with
  | bool b => exact ⟨proper_lit.mpr trivial, rfl⟩
  | int n =>
    rw [normal]
    split
    · next h =>
      have hlit : Constant.Unsigned (.int (-n)) := Int.neg_nonneg_of_nonpos h.le
      exact ⟨proper_neg (n := .int) (proper_lit.mpr hlit) rfl, rfl⟩
    · next h => exact ⟨proper_lit.mpr (not_lt.mp h), rfl⟩
  | real r =>
    rw [normal]
    split
    · next h =>
      obtain ⟨hproper, hsort⟩ : (quotient (-r)).Proper Constant.Unsigned ctx ∧ _ :=
        proper_quotient (neg_nonneg.mpr h.le)
      exact ⟨proper_neg (n := .real) hproper hsort, rfl⟩
    · next h => exact proper_quotient (not_lt.mp h)

lemma quantifiers_quotient (r : Rat) : (quotient r).quantifiers = 0 := by
  unfold quotient
  split <;> rfl

lemma Constant.quantifiers_normal (c : Constant) : c.normal.quantifiers = 0 := by
  cases c with
  | bool b => rfl
  | int n =>
    rw [normal]
    split <;> rfl
  | real r =>
    rw [normal]
    split
    · rw [quantifiers, argsQuantifiers, quantifiers_quotient]
      rfl
    · exact quantifiers_quotient r

end Arith

/-! ### Terms -/

namespace Term

open Arith

lemma sort_literalNormal (t : Term arith) : t.literalNormal.sort = t.sort := by
  cases t with
  | var | app | quant => rfl
  | lit c =>
    have hnormal : c.normal.Proper Constant.Unsigned [] ∧ c.normal.sort = c.sort :=
      c.proper_normal
    exact hnormal.2

/-- The normal form has as many quantifiers. -/
lemma quantifiers_literalNormal (t : Term arith) :
    t.literalNormal.quantifiers = t.quantifiers := by
  induction t with
  | var p s => rfl
  | lit c => exact c.quantifiers_normal
  | app op args ih =>
    rw [literalNormal, quantifiers, quantifiers, argsNormal_eq_map]
    induction args with
    | nil => rfl
    | cons t args ihargs =>
      obtain ⟨hfirst, hrest⟩ := List.forall_mem_cons.mp ih
      rw [List.map_cons, argsQuantifiers, argsQuantifiers, hfirst, ihargs hrest]
  | quant q p s body ih => rw [literalNormal, quantifiers, quantifiers, ih]

/-- **The normal form is well-sorted where the term is**, and its literals are unsigned. -/
theorem proper_literalNormal {t : Term arith} {ctx : Context arith}
    (h : HasSort ctx t t.sort) : t.literalNormal.Proper Constant.Unsigned ctx := by
  induction t generalizing ctx with
  | var p s => exact proper_var.mpr (hasSort_var.mp h).1
  | lit c => exact c.proper_normal.1
  | app op args ih =>
    obtain ⟨hmap, hargs, -⟩ := hasSort_app.mp h
    rw [literalNormal, argsNormal_eq_map, proper_app, List.map_map]
    refine ⟨?_, ?_⟩
    · rw [← hmap]
      exact List.map_congr_left fun t _ => t.sort_literalNormal
    · intro u hu
      obtain ⟨t, ht, rfl⟩ := List.mem_map.mp hu
      exact ih t ht (hargs t ht)
  | quant q p s body ih =>
    obtain ⟨hp, hbody, -⟩ := hasSort_quant.mp h
    have hbool := hbody.sort_eq
    exact proper_quant.mpr ⟨hp, body.sort_literalNormal.trans hbool, ih (hbool ▸ hbody)⟩

/-- **The normal form is written as the term is.** -/
theorem text_literalNormal (t : Term arith) (names : Naming) :
    (t.literalNormal.sexp names).text = (t.sexp names).text := by
  induction t generalizing names with
  | var p s => rfl
  | lit c => exact c.text_normal
  | app op args ih =>
    have hargs : (argsSexp (args.map literalNormal) names).map Sexp.text =
        (argsSexp args names).map Sexp.text := by
      induction args generalizing names with
      | nil => rfl
      | cons t args ihargs =>
        obtain ⟨hfirst, hrest⟩ := List.forall_mem_cons.mp ih
        rw [List.map_cons, argsSexp, argsSexp, List.map_cons, List.map_cons, hfirst,
          quantifiers_literalNormal, ihargs hrest]
    rw [literalNormal, argsNormal_eq_map, text_sexp_app, text_sexp_app, hargs]
  | quant q p s body ih => rw [literalNormal, text_sexp_quant, text_sexp_quant, ih]

end Term

end SmtScript
