import Mathlib.Algebra.Field.Rat
import Mathlib.Data.List.TakeWhile
import Mathlib.Data.Rat.Lemmas
import Mathlib.Tactic.FieldSimp
import SmtScript.Arith.Value
import SmtScript.Proofs.Except

/-!
Unsigned numbers in digits, and which number each of them is. A decimal is read without
rounding: its value is that of its whole digits and that of its fraction digits over the
power of ten with as many zeros.
-/

namespace SmtScript

namespace Text

lemma isNumeral_iff {t : Text} : isNumeral t = true ↔ t ≠ [] ∧ ∀ c ∈ t, c.isDigit = true := by
  simp [isNumeral]

lemma readNat?_eq_some {t : Text} {n : Nat} :
    readNat? t = some n ↔ isNumeral t = true ∧ n = digitsValue t := by
  unfold readNat?
  split
  · next h => simp [h, eq_comm]
  · next h => simp [h]

/-- Digits count as many tens as there are digits after them. -/
lemma digitsValue_append (t u : Text) :
    digitsValue (t ++ u) = 10 ^ u.length * digitsValue t + digitsValue u := by
  unfold digitsValue
  rw [Nat.ofDigitChars_append, Nat.ofDigitChars_eq_ofDigitChars_zero]

/-- A point is no digit. -/
lemma ne_point_of_isNumeral {t : Text} (h : isNumeral t = true) : ∀ c ∈ t, (c != '.') = true := by
  intro c hc
  have hdigit := (isNumeral_iff.mp h).2 c hc
  rw [bne_iff_ne]
  rintro rfl
  exact absurd hdigit (by decide)

end Text

namespace Arith

open Text

/-- The text is an unsigned number: a numeral, or one numeral before a point and one after
it. -/
inductive Decimal : Text → Rat → Prop where
  | whole {t : Text} (h : isNumeral t = true) : Decimal t (digitsValue t : Rat)
  | fraction {t u : Text} (ht : isNumeral t = true) (hu : isNumeral u = true) :
      Decimal (t ++ '.' :: u) ((digitsValue t : Rat) + (digitsValue u : Rat) / 10 ^ u.length)

lemma mkRat_digitsValue (t u : Text) :
    mkRat (digitsValue (t ++ u)) (Nat.pow 10 u.length) =
      (digitsValue t : Rat) + (digitsValue u : Rat) / 10 ^ u.length := by
  have hpow : ((Nat.pow 10 u.length : Nat) : Rat) = 10 ^ u.length := by simp
  have hne : (10 : Rat) ^ u.length ≠ 0 := pow_ne_zero _ (by norm_num)
  rw [digitsValue_append, Rat.mkRat_eq_div, hpow]
  push_cast
  field_simp

lemma readDecimal?_of_decimal {t : Text} {r : Rat} (h : Decimal t r) :
    readDecimal? t = some r := by
  cases h with
  | whole h =>
    have hdrop : t.dropWhile (· != '.') = [] :=
      List.dropWhile_eq_nil_iff.mpr (ne_point_of_isNumeral h)
    unfold readDecimal?
    simp only [hdrop]
    rw [readNat?_eq_some.mpr ⟨h, rfl⟩]
    rfl
  | @fraction t u ht hu =>
    have htake : (t ++ '.' :: u).takeWhile (· != '.') = t := by
      rw [List.takeWhile_append_of_pos (ne_point_of_isNumeral ht)]
      simp
    have hdrop : (t ++ '.' :: u).dropWhile (· != '.') = '.' :: u := by
      rw [List.dropWhile_append_of_pos (ne_point_of_isNumeral ht)]
      simp
    unfold readDecimal?
    simp only [htake, hdrop, ht, hu, Bool.and_self, if_true, mkRat_digitsValue]

/-- **Decimals are read exactly**, and nothing else is read. -/
theorem readDecimal?_eq_some {t : Text} {r : Rat} : readDecimal? t = some r ↔ Decimal t r := by
  refine ⟨fun h => ?_, readDecimal?_of_decimal⟩
  have hsplit := List.takeWhile_append_dropWhile (p := (· != '.')) (l := t)
  unfold readDecimal? at h
  split at h
  · obtain ⟨n, hn, rfl⟩ := Option.map_eq_some_iff.mp h
    obtain ⟨ht, rfl⟩ := readNat?_eq_some.mp hn
    exact .whole ht
  · next c u hdrop =>
    have hc : c = '.' := by
      have := List.head?_dropWhile_not (· != '.') t
      rw [hdrop] at this
      simpa using this
    subst hc
    dsimp only at h
    split at h
    · next hdigits =>
      obtain ⟨ht, hu⟩ := (Bool.and_eq_true _ _).mp hdigits
      obtain rfl := Option.some.inj h
      rw [mkRat_digitsValue]
      have hfraction := Decimal.fraction ht hu
      rwa [← hdrop, hsplit] at hfraction
    · cases h

end Arith

end SmtScript
