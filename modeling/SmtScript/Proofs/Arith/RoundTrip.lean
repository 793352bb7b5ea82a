import SmtScript.Proofs.Arith.Grammar
import SmtScript.Proofs.Arith.Value

/-!
Constants written and read at any sort. A text does not carry its sort, but it fits few: a
constant is read back at its own sort, and a whole number also as a real. At every other sort
its text is no value.
-/

namespace SmtScript.Arith

open Sexp

/-- What a constant is at a sort, if it is anything there. -/
def Constant.at? : Constant → Srt → Option Constant
  | .bool b, .bool => some (.bool b)
  | .int n, .int => some (.int n)
  | .int n, .real => some (.real n)
  | .real r, .real => some (.real r)
  | _, _ => none

/-! ### Signs -/

lemma evalInt?_signedSexp (negative : Bool) (e : Sexp) :
    evalInt? (signedSexp negative e) = (evalInt? e).map fun n => if negative then -n else n := by
  cases negative <;> simp [signedSexp, evalInt?]

lemma evalReal?_signedSexp (negative : Bool) (e : Sexp) :
    evalReal? (signedSexp negative e) =
      (evalReal? e).map fun r => if negative then -r else r := by
  cases negative <;> simp [signedSexp, evalReal?]

/-- No expression with a sign is a truth value. -/
lemma evalBool?_signedSexp {e : Sexp} (h : evalBool? e = none) (negative : Bool) :
    evalBool? (signedSexp negative e) = none := by
  cases negative with
  | false => exact h
  | true => rfl

/-! ### Magnitudes -/

lemma evalBool?_of_digit {d : Char} {t : Text} (hd : d.isDigit = true) :
    evalBool? (.atom (d :: t)) = none := by
  have htrue : d :: t ≠ "true" := by
    rintro ⟨⟩
    exact absurd hd (by decide)
  have hfalse : d :: t ≠ "false" := by
    rintro ⟨⟩
    exact absurd hd (by decide)
  rw [evalBool?, if_neg htrue, if_neg hfalse]

lemma evalBool?_ofNat (n : Nat) : evalBool? (.atom (Text.ofNat n)) = none := by
  obtain ⟨d, t, ht, hd⟩ := Lexeme.exists_ofNat_eq_cons n
  rw [ht]
  exact evalBool?_of_digit hd

lemma evalBool?_magnitudeSexp (r : Rat) : evalBool? (magnitudeSexp r) = none := by
  unfold magnitudeSexp
  split
  · obtain ⟨d, t, ht, hd⟩ := Lexeme.exists_ofNat_eq_cons r.num.natAbs
    rw [wholeText, ht]
    exact evalBool?_of_digit hd
  · rfl

/-- The point of a real keeps it from being read as an integer, and so does its quotient. -/
lemma evalInt?_magnitudeSexp (r : Rat) : evalInt? (magnitudeSexp r) = none := by
  unfold magnitudeSexp
  split
  · simp [evalInt?, Text.readNat?, isNumeral_wholeText]
  · simp [evalInt?]

lemma evalReal?_ofNat (n : Nat) : evalReal? (.atom (Text.ofNat n)) = some (n : Rat) := by
  have hdecimal := Decimal.whole (Text.isNumeral_ofNat n)
  rw [Text.digitsValue_ofNat] at hdecimal
  rw [evalReal?, readDecimal?_eq_some.mpr hdecimal]

lemma signed_cast_natAbs (n : Int) :
    (if decide (n < 0) = true then -(n.natAbs : Rat) else (n.natAbs : Rat)) = (n : Rat) := by
  rw [cast_natAbs]
  by_cases h : n < 0
  · rw [if_pos (decide_eq_true h), if_pos h, neg_neg]
  · rw [if_neg (by simpa using h), if_neg h]

/-! ### Constants at a sort -/

/-- **The tree of a constant denotes at each sort what the constant is there.** -/
theorem Constant.eval?_sexp_eq_at? (c : Constant) (s : Srt) : eval? s c.sexp = c.at? s := by
  cases c with
  | bool b =>
    cases s with
    | bool => exact eval?_sexp (.bool b)
    | int | real => cases b <;> rfl
  | int n =>
    cases s with
    | bool => rw [eval?, sexp, evalBool?_signedSexp (evalBool?_ofNat _)]; rfl
    | int => exact eval?_sexp (.int n)
    | real =>
      rw [eval?, sexp, evalReal?_signedSexp, evalReal?_ofNat, Option.map_some, Option.map_some,
        signed_cast_natAbs]
      rfl
  | real r =>
    cases s with
    | bool => rw [eval?, sexp, evalBool?_signedSexp (evalBool?_magnitudeSexp r)]; rfl
    | int => rw [eval?, sexp, evalInt?_signedSexp, evalInt?_magnitudeSexp]; rfl
    | real => exact eval?_sexp (.real r)

/-- **Constants survive their text at every sort**: a constant is read as itself at its own
sort, an integer also as a real, and at no other sort is there a value. Literals are written
as the values that they are. -/
theorem readValue_text_at (c : Constant) (s : Srt) :
    arith.literalText c = arith.valueText c ∧
      arith.readValue s (arith.valueText c) =
        match c.at? s with
        | some v => .ok v
        | none => .error (.malformed ("`" ++ c.text ++ "` is not a " ++ s.text ++ " value")) := by
  refine ⟨rfl, ?_⟩
  have hread : arith.readValue s (arith.valueText c) = readValue s c.text := rfl
  have heval : eval? s c.sexp = c.at? s := c.eval?_sexp_eq_at? s
  rw [hread, readValue, c.readExact_text]
  cases hat : c.at? s with
  | some v => simp only [heval, hat]
  | none => simp only [heval, hat]

end SmtScript.Arith
