import Mathlib.Tactic.NormNum
import SmtScript.Proofs.Arith.Decimal

/-!
Decimals by the places of their digits. A digit before the point counts as many tens, and one
after it as many tenths, as its place says; a text is read as a number exactly if it has digits
in all places that it needs, and the number is then the sum of what its digits count. So zeros
in front of the first digit and behind the last digit of a fraction mean nothing.
-/

namespace SmtScript

namespace Text

/-- The text is a run of digits. -/
structure DigitRun (t : Text) : Prop where
  ne_nil : t ≠ []
  digits : ∀ c ∈ t, '0' ≤ c ∧ c ≤ '9'

/-- The number of a run of digits. A digit counts as often as the power of ten says that has
as many zeros as there are digits after it. -/
def placeValue : Text → Nat
  | [] => 0
  | c :: t => (c.toNat - '0'.toNat) * 10 ^ t.length + placeValue t

/-- `count` zeros. -/
def zeros (count : Nat) : Text := List.replicate count '0'

lemma isNumeral_iff_digitRun {t : Text} : isNumeral t = true ↔ DigitRun t := by
  rw [isNumeral_iff]
  have hdigit (c : Char) : c.isDigit = true ↔ '0' ≤ c ∧ c ≤ '9' := by
    simp [Char.isDigit, Char.le_def]
  exact ⟨fun h => ⟨h.1, fun c hc => (hdigit c).mp (h.2 c hc)⟩,
    fun h => ⟨h.ne_nil, fun c hc => (hdigit c).mpr (h.digits c hc)⟩⟩

/-- Reading from the left, ten times what is there and the next digit, adds up to the same. -/
lemma digitsValue_eq_placeValue (t : Text) : digitsValue t = placeValue t := by
  induction t with
  | nil => rfl
  | cons c t ih =>
    rw [digitsValue] at ih
    rw [digitsValue, Nat.ofDigitChars_cons, Nat.ofDigitChars_eq_ofDigitChars_zero, ih, placeValue,
      Nat.mul_zero, Nat.zero_add, Nat.mul_comm]

lemma placeValue_append (t u : Text) :
    placeValue (t ++ u) = placeValue t * 10 ^ u.length + placeValue u := by
  simp only [← digitsValue_eq_placeValue, digitsValue_append, Nat.mul_comm]

@[simp] lemma length_zeros (count : Nat) : (zeros count).length = count := List.length_replicate

@[simp] lemma placeValue_zeros (count : Nat) : placeValue (zeros count) = 0 := by
  induction count with
  | zero => rfl
  | succ count ih =>
    rw [zeros] at ih
    rw [zeros, List.replicate_succ, placeValue, ih, Nat.sub_self, Nat.zero_mul]

lemma zeros_digits {count : Nat} : ∀ c ∈ zeros count, '0' ≤ c ∧ c ≤ '9' := by
  intro c hc
  rw [List.eq_of_mem_replicate hc]
  decide

lemma DigitRun.zeros_append {t : Text} (h : DigitRun t) (count : Nat) :
    DigitRun (zeros count ++ t) where
  ne_nil := List.append_ne_nil_of_right_ne_nil _ h.ne_nil
  digits := List.forall_mem_append.mpr ⟨zeros_digits, h.digits⟩

lemma DigitRun.append_zeros {t : Text} (h : DigitRun t) (count : Nat) :
    DigitRun (t ++ zeros count) where
  ne_nil := List.append_ne_nil_of_left_ne_nil h.ne_nil _
  digits := List.forall_mem_append.mpr ⟨h.digits, zeros_digits⟩

end Text

namespace Arith

open Text

/-- The text is a run of digits, or two runs with a point between them. The second run is empty
where there is no point. -/
inductive Splits : Text → Text → Text → Prop where
  | whole {t : Text} (ht : DigitRun t) : Splits t t []
  | point {t u : Text} (ht : DigitRun t) (hu : DigitRun u) : Splits (t ++ '.' :: u) t u

/-- The number with the digits before and after the point. -/
def positional (whole fraction : Text) : Rat :=
  placeValue whole + placeValue fraction / 10 ^ fraction.length

lemma decimal_iff_splits {t : Text} {r : Rat} :
    Decimal t r ↔ ∃ whole fraction, Splits t whole fraction ∧ r = positional whole fraction := by
  simp only [positional]
  refine ⟨?_, ?_⟩
  · rintro (ht | ⟨ht, hu⟩)
    · refine ⟨t, [], .whole (isNumeral_iff_digitRun.mp ht), ?_⟩
      simp [digitsValue_eq_placeValue, placeValue]
    · refine ⟨_, _, .point (isNumeral_iff_digitRun.mp ht) (isNumeral_iff_digitRun.mp hu), ?_⟩
      simp only [digitsValue_eq_placeValue]
  · rintro ⟨_, _, ht | ⟨ht, hu⟩, rfl⟩
    · have h := Decimal.whole (isNumeral_iff_digitRun.mpr ht)
      simpa [digitsValue_eq_placeValue, placeValue] using h
    · have h := Decimal.fraction (isNumeral_iff_digitRun.mpr ht) (isNumeral_iff_digitRun.mpr hu)
      simpa only [digitsValue_eq_placeValue] using h

/-- **What is read** is the sum of what the digits count. -/
lemma Splits.readDecimal? {t whole fraction : Text} (h : Splits t whole fraction) :
    readDecimal? t = some (positional whole fraction) :=
  readDecimal?_eq_some.mpr (decimal_iff_splits.mpr ⟨whole, fraction, h, rfl⟩)

/-! ### Zeros -/

lemma Splits.zeros_append {t whole fraction : Text} (h : Splits t whole fraction) (count : Nat) :
    Splits (zeros count ++ t) (zeros count ++ whole) fraction := by
  cases h with
  | whole ht => exact .whole (ht.zeros_append count)
  | point ht hu =>
    rw [← List.append_assoc]
    exact .point (ht.zeros_append count) hu

lemma Splits.append_zeros {t whole fraction : Text} (h : Splits t whole fraction)
    (hne : fraction ≠ []) (count : Nat) :
    Splits (t ++ zeros count) whole (fraction ++ zeros count) := by
  cases h with
  | whole => exact absurd rfl hne
  | point ht hu =>
    rw [List.append_assoc, List.cons_append]
    exact .point ht (hu.append_zeros count)

lemma positional_zeros_append (whole fraction : Text) (count : Nat) :
    positional (zeros count ++ whole) fraction = positional whole fraction := by
  rw [positional, placeValue_append, placeValue_zeros, Nat.zero_mul, Nat.zero_add, positional]

lemma positional_append_zeros (whole fraction : Text) (count : Nat) :
    positional whole (fraction ++ zeros count) = positional whole fraction := by
  have hne : (10 : Rat) ^ count ≠ 0 := pow_ne_zero _ (by norm_num)
  rw [positional, placeValue_append, placeValue_zeros, List.length_append, length_zeros,
    Nat.add_zero, pow_add, Nat.cast_mul, Nat.cast_pow, Nat.cast_ofNat,
    mul_div_mul_right _ _ hne, positional]

/-! ### Lowest terms -/

/-- The number is the quotient in lowest terms. -/
structure Cancelled (r : Rat) (num den : Nat) : Prop where
  num_eq : r.num = (num / den.gcd num : Nat)
  den_eq : r.den = den / den.gcd num
  den_pos : 0 < r.den

lemma cancelled_positional (whole fraction : Text) :
    Cancelled (positional whole fraction)
      (placeValue whole * 10 ^ fraction.length + placeValue fraction) (10 ^ fraction.length) := by
  have hne : 10 ^ fraction.length ≠ 0 := pow_ne_zero _ (by decide)
  have hratio : positional whole fraction =
      mkRat (placeValue whole * 10 ^ fraction.length + placeValue fraction : Nat)
        (10 ^ fraction.length) := by
    rw [Rat.mkRat_eq_div, positional]
    push_cast
    field_simp
  refine ⟨?_, ?_, Rat.den_pos _⟩
  · rw [hratio, Rat.num_mkRat, if_neg hne, Int.natAbs_natCast, Int.natCast_ediv]
  · rw [hratio, Rat.den_mkRat, if_neg hne, Int.natAbs_natCast]

/-- **Decimals are read by the places of their digits.** A text is read exactly if it is a run
of digits or two runs with a point between them. The number is then the one before the point
and the one after it over the power of ten with as many zeros as that one has digits, in lowest
terms. Zeros in front, and behind the last digit after a point, change nothing; and what is read
as a natural number is read as the same number. -/
theorem decimals_exact (t : Text) :
    ((readDecimal? t).isSome ↔ ∃ whole fraction, Splits t whole fraction) ∧
    (∀ whole fraction, Splits t whole fraction → ∃ r, readDecimal? t = some r ∧
      r = placeValue whole + placeValue fraction / 10 ^ fraction.length ∧
      Cancelled r (placeValue whole * 10 ^ fraction.length + placeValue fraction)
        (10 ^ fraction.length) ∧
      ∀ count, readDecimal? (zeros count ++ t) = some r ∧
        (fraction ≠ [] → readDecimal? (t ++ zeros count) = some r)) ∧
    ∀ n : Nat, readNat? t = some n → readDecimal? t = some (n : Rat) := by
  refine ⟨⟨fun h => ?_, ?_⟩, fun whole fraction h => ?_, fun n h => ?_⟩
  · obtain ⟨r, hr⟩ := Option.isSome_iff_exists.mp h
    obtain ⟨whole, fraction, hsplits, -⟩ := decimal_iff_splits.mp (readDecimal?_eq_some.mp hr)
    exact ⟨whole, fraction, hsplits⟩
  · rintro ⟨whole, fraction, h⟩
    rw [h.readDecimal?]
    rfl
  · refine ⟨_, h.readDecimal?, rfl, cancelled_positional whole fraction, fun count => ⟨?_, ?_⟩⟩
    · rw [(h.zeros_append count).readDecimal?, positional_zeros_append]
    · intro hne
      rw [(h.append_zeros hne count).readDecimal?, positional_append_zeros]
  · obtain ⟨ht, rfl⟩ := readNat?_eq_some.mp h
    exact readDecimal?_of_decimal (.whole ht)

/-- Seven and a half, with zeros in front and behind. -/
theorem padded_decimals_exact :
    Splits "007.50" "007" "50" ∧ readDecimal? "007.50" = some (15 / 2) ∧
      readDecimal? "007.5000" = some (15 / 2) := by
  have hwhole : DigitRun "007" := isNumeral_iff_digitRun.mp (by decide)
  have hfraction : DigitRun "50" := isNumeral_iff_digitRun.mp (by decide)
  have hsplits : Splits "007.50" "007" "50" := .point hwhole hfraction
  obtain ⟨r, hr, hvalue, -, hzeros⟩ := (decimals_exact "007.50").2.1 _ _ hsplits
  have hhalf : r = 15 / 2 := by
    have hlength : ("50" : Text).length = 2 := rfl
    have hseven : placeValue "007" = 7 := by decide
    have hfifty : placeValue "50" = 50 := by decide
    rw [hvalue, hseven, hfifty, hlength]
    norm_num
  rw [hhalf] at hr hzeros
  exact ⟨hsplits, hr, (hzeros 2).2 (by decide)⟩

end Arith

end SmtScript
