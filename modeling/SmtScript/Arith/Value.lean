import SmtScript.Arith.Basic
import SmtScript.Sexp.Reader

/-!
The grammar of values, and the theory of arithmetic.

An integer is a numeral or the negation of an integer. A real is a numeral or a decimal, the
negation of a real, or the quotient of two reals of which the second is not zero. Numbers
are read without rounding, whatever their length.
-/

namespace SmtScript.Arith

/-- The number that a numeral or a decimal denotes. A decimal has digits on both sides of
its point. -/
def readDecimal? (t : Text) : Option Rat :=
  let whole := t.takeWhile (· != '.')
  match t.dropWhile (· != '.') with
  | [] => (Text.readNat? t).map fun n : Nat => (n : Rat)
  | _ :: fraction =>
    if Text.isNumeral whole && Text.isNumeral fraction then
      some (mkRat (Text.digitsValue (whole ++ fraction)) (Nat.pow 10 fraction.length))
    else none

def evalInt? : Sexp → Option Int
  | .atom a => (Text.readNat? a).map Int.ofNat
  | .list [.atom op, arg] =>
    if op = "-" then (evalInt? arg).map fun n => -n else none
  | _ => none

def evalReal? : Sexp → Option Rat
  | .atom a => readDecimal? a
  | .list [.atom op, arg] =>
    if op = "-" then (evalReal? arg).map fun r => -r else none
  | .list [.atom op, num, den] =>
    if op = "/" then
      match evalReal? num, evalReal? den with
      | some n, some d => if d = 0 then none else some (n / d)
      | _, _ => none
    else none
  | _ => none

def evalBool? : Sexp → Option Bool
  | .atom a => if a = "true" then some true else if a = "false" then some false else none
  | .list _ => none

/-- The value of a sort that an expression denotes. -/
def eval? (s : Srt) (e : Sexp) : Option Constant :=
  match s with
  | .bool => (evalBool? e).map .bool
  | .int => (evalInt? e).map .int
  | .real => (evalReal? e).map .real

def readValue (s : Srt) (t : Text) : Except ValueError Constant :=
  match Sexp.readExact t with
  | .error e => .error (.malformed e.message)
  | .ok e =>
    match eval? s e with
    | some v => .ok v
    | none => .error (.malformed ("`" ++ t ++ "` is not a " ++ s.text ++ " value"))

end SmtScript.Arith

namespace SmtScript

open Arith in
abbrev arith : Theory where
  name := "arith"
  Sorts := Srt
  Literal := Constant
  Op := Op
  Value := Constant
  sortText := Srt.text
  boolSort := .bool
  literalSort := Constant.sort
  literalText := Constant.text
  signature := Op.signature
  opText := Op.text
  valueText := Constant.text
  readValue := Arith.readValue

end SmtScript
