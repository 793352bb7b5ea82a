import SmtScript.Proofs.Arith.Value
import SmtScript.Proofs.Term.Legible

/-!
The symbols of arithmetic are legible, with the literals that are written as one atom. An
operation is not known by its text alone, as `-` is a negation and a difference and most
symbols are used at several sorts; it is known by its text and the sorts of its arguments.
-/

namespace SmtScript.Arith

open Lexeme

/-! ### Sorts and operations -/

lemma Srt.text_injective : Function.Injective Srt.text := by
  intro s s' h
  cases s <;> cases s' <;> first | rfl | exact absurd h (by decide)

namespace Op

/-- All operations. -/
def all : List Op :=
  [.not, .and, .or, .xor, .implies, .div, .intDiv, .mod, .abs, .toReal, .toInt, .isInt] ++
    [Srt.bool, .int, .real].flatMap (fun s => [.eq s, .distinct s, .ite s]) ++
    [Numeric.int, .real].flatMap fun n =>
      [.neg n, .add n, .sub n, .mul n, .lt n, .le n, .gt n, .ge n]

lemma mem_all (op : Op) : op ∈ all := by
  cases op with
  | eq s | distinct s | ite s => cases s <;> decide
  | neg n | add n | sub n | mul n | lt n | le n | gt n | ge n => cases n <;> decide
  | _ => decide

/-- The text and the sorts of the arguments make out the operation. -/
lemma eq_of_text_of_args {op op' : Op} (htext : op.text = op'.text)
    (hargs : op.signature.args = op'.signature.args) : op = op' := by
  have hall : ∀ op ∈ all, ∀ op' ∈ all, op.text = op'.text →
      op.signature.args = op'.signature.args → op = op' := by decide +kernel
  exact hall op op.mem_all op' op'.mem_all htext hargs

lemma unquoted_text (op : Op) : Unquoted op.text := by
  have hall : ∀ op ∈ all, Unquoted op.text := by decide +kernel
  exact hall op op.mem_all

lemma text_ne_quantifier (op : Op) (q : Quantifier) : op.text ≠ q.text := by
  have hall : ∀ op ∈ all, op.text ≠ "forall" ∧ op.text ≠ "exists" := by decide +kernel
  cases q with
  | universal => exact (hall op op.mem_all).1
  | existential => exact (hall op op.mem_all).2

end Op

/-! ### Literals -/

namespace Constant

/-- Constants whose text is one atom: booleans, and numbers that are whole and not
negative. -/
def Unsigned : Constant → Prop
  | .bool _ => True
  | .int n => 0 ≤ n
  | .real r => 0 ≤ r ∧ r.den = 1

lemma text_int {n : Int} (h : 0 ≤ n) : (Constant.int n).text = Text.ofNat n.natAbs := by
  rw [text, intText, decide_eq_false (by omega)]
  rfl

lemma text_real {r : Rat} (h : 0 ≤ r) (hden : r.den = 1) :
    (Constant.real r).text = wholeText r.num.natAbs := by
  have hnum : ¬ r.num < 0 := not_lt.mpr (Rat.num_nonneg.mpr h)
  rw [text, realText, decide_eq_false hnum, if_pos hden]
  rfl

/-- The sort of an unsigned constant, from its text. -/
def sortOfText (t : Text) : Srt :=
  if Text.isNumeral t then .int else if '.' ∈ t then .real else .bool

lemma Unsigned.sortOfText_text {c : Constant} (h : c.Unsigned) : sortOfText c.text = c.sort := by
  cases c with
  | bool b => cases b <;> rfl
  | int n =>
    rw [text_int h, sortOfText, if_pos (Text.isNumeral_ofNat _)]
    rfl
  | real r =>
    have hmem : '.' ∈ wholeText r.num.natAbs := by simp [wholeText]
    rw [text_real h.1 h.2, sortOfText, isNumeral_wholeText, if_pos hmem]
    rfl

/-- Unsigned constants with one text are equal. -/
lemma Unsigned.eq_of_text {c c' : Constant} (h : c.Unsigned) (h' : c'.Unsigned)
    (htext : c.text = c'.text) : c = c' := by
  have hsort : c.sort = c'.sort := by
    rw [← h.sortOfText_text, ← h'.sortOfText_text, htext]
  have hread := c.readValue_text
  rw [hsort, htext, c'.readValue_text] at hread
  exact (Except.ok.inj hread).symm

lemma Unsigned.unquoted_text {c : Constant} (h : c.Unsigned) : Unquoted c.text := by
  cases c with
  | bool b => cases b <;> decide
  | int n => rw [text_int h]; exact unquoted_ofNat _
  | real r => rw [text_real h.1 h.2]; exact unquoted_wholeText _

lemma Unsigned.text_ne_nameOf {c : Constant} (h : c.Unsigned) (n : Nat) :
    c.text ≠ Naming.nameOf n := by
  have hname : (Naming.nameOf n).head? = some 'x' := by simp [Naming.nameOf]
  have hdigit : ∀ m : Nat, (Text.ofNat m).head? ≠ some 'x' := by
    intro m
    obtain ⟨d, t, ht, hd⟩ := exists_ofNat_eq_cons m
    rw [ht, List.head?_cons, ne_eq, Option.some.injEq]
    rintro rfl
    exact absurd hd (by decide)
  intro heq
  rw [← heq] at hname
  cases c with
  | bool b => cases b <;> exact absurd hname (by decide)
  | int k => exact hdigit _ (by rwa [text_int h] at hname)
  | real r =>
    rw [text_real h.1 h.2, wholeText, List.head?_append_of_ne_nil _ (plain_ofNat _).1] at hname
    exact hdigit _ hname

end Constant

/-- **Arithmetic is legible**, but for the literals that are written as applications. -/
theorem legible : arith.Legible Constant.Unsigned where
  plain_sort s := (Srt.unquoted_text s).1
  sort_inj := Srt.text_injective
  plain_op op := op.unquoted_text.1
  op_inj _ _ := Op.eq_of_text_of_args
  op_ne_quantifier := Op.text_ne_quantifier
  plain_literal _ h := (Constant.Unsigned.unquoted_text h).1
  literal_inj _ _ := Constant.Unsigned.eq_of_text
  literal_ne_name _ n h := h.text_ne_nameOf n

/-- Each symbol is read as one atom. -/
lemma unquoted_symbol {a : Text} (h : arith.Symbol Constant.Unsigned a) : Unquoted a := by
  cases h with
  | sort s => exact Srt.unquoted_text s
  | op op => exact Op.unquoted_text op
  | literal h => exact Constant.Unsigned.unquoted_text h
  | quantifier q => cases q <;> decide
  | name n => exact Naming.unquoted_nameOf n

end SmtScript.Arith
