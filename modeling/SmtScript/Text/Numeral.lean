import SmtScript.Text.Basic

/-!
Natural and whole numbers in decimal digits. A numeral is a run of ASCII digits of any
length; leading zeros are read and never written.
-/

namespace SmtScript.Text

/-- The decimal digits of a number, without leading zeros. -/
def ofNat (n : Nat) : Text := Nat.toDigits 10 n

/-- A negative number begins with a hyphen. -/
def ofInt : Int → Text
  | .ofNat n => ofNat n
  | .negSucc n => '-' :: ofNat (n + 1)

/-- Whether the text is a numeral. -/
def isNumeral (t : Text) : Bool := !t.isEmpty && t.all Char.isDigit

/-- The number that a run of digits denotes in base ten. -/
def digitsValue (t : Text) : Nat := Nat.ofDigitChars 10 t 0

def readNat? (t : Text) : Option Nat :=
  if isNumeral t then some (digitsValue t) else none

theorem digitsValue_ofNat (n : Nat) : digitsValue (ofNat n) = n :=
  Nat.ofDigitChars_toDigits (by decide) (by decide)

theorem isNumeral_ofNat (n : Nat) : isNumeral (ofNat n) = true := by
  have h : ofNat n ≠ [] := List.ne_nil_of_length_pos Nat.length_toDigits_pos
  simp only [isNumeral, Bool.and_eq_true, Bool.not_eq_true', List.isEmpty_eq_false_iff,
    List.all_eq_true]
  exact ⟨h, fun c hc => Nat.isDigit_of_mem_toDigits (by decide) (by decide) hc⟩

@[simp] theorem readNat?_ofNat (n : Nat) : readNat? (ofNat n) = some n := by
  simp [readNat?, isNumeral_ofNat, digitsValue_ofNat]

/-- Different numbers have different digits. -/
theorem ofNat_inj {m n : Nat} : ofNat m = ofNat n ↔ m = n :=
  ⟨fun h => by rw [← digitsValue_ofNat m, h, digitsValue_ofNat], fun h => h ▸ rfl⟩

end SmtScript.Text
