import SmtScript.Theory
import SmtScript.Text.Numeral

/-!
The symbols of booleans with linear and nonlinear arithmetic: sorts, operations and
constants, and how each is written.

A constant is both a literal of terms and a value of models. A negative number is written
as the negation of its magnitude, and a real that is not whole as the quotient of two whole
reals, so that every number is an expression over unsigned numerals.
-/

namespace SmtScript.Arith

inductive Srt where
  | bool
  | int
  | real
  deriving DecidableEq

def Srt.text : Srt → Text
  | .bool => "Bool"
  | .int => "Int"
  | .real => "Real"

/-- The sorts of numbers. -/
inductive Numeric where
  | int
  | real
  deriving DecidableEq

def Numeric.sort : Numeric → Srt
  | .int => .int
  | .real => .real

/-! ### Operations -/

/-- The operations. One that is written the same at several sorts carries its sort. -/
inductive Op where
  | not
  | and
  | or
  | xor
  | implies
  | eq (s : Srt)
  | distinct (s : Srt)
  | ite (s : Srt)
  | neg (n : Numeric)
  | add (n : Numeric)
  | sub (n : Numeric)
  | mul (n : Numeric)
  /-- Division of reals. -/
  | div
  /-- Division of integers. -/
  | intDiv
  | mod
  | abs
  | lt (n : Numeric)
  | le (n : Numeric)
  | gt (n : Numeric)
  | ge (n : Numeric)
  | toReal
  | toInt
  | isInt
  deriving DecidableEq

namespace Op

def text : Op → Text
  | .not => "not"
  | .and => "and"
  | .or => "or"
  | .xor => "xor"
  | .implies => "=>"
  | .eq _ => "="
  | .distinct _ => "distinct"
  | .ite _ => "ite"
  | .neg _ => "-"
  | .add _ => "+"
  | .sub _ => "-"
  | .mul _ => "*"
  | .div => "/"
  | .intDiv => "div"
  | .mod => "mod"
  | .abs => "abs"
  | .lt _ => "<"
  | .le _ => "<="
  | .gt _ => ">"
  | .ge _ => ">="
  | .toReal => "to_real"
  | .toInt => "to_int"
  | .isInt => "is_int"

def signature : Op → Signature Srt
  | .not => ⟨[.bool], .bool⟩
  | .and | .or | .xor | .implies => ⟨[.bool, .bool], .bool⟩
  | .eq s | .distinct s => ⟨[s, s], .bool⟩
  | .ite s => ⟨[.bool, s, s], s⟩
  | .neg n => ⟨[n.sort], n.sort⟩
  | .add n | .sub n | .mul n => ⟨[n.sort, n.sort], n.sort⟩
  | .div => ⟨[.real, .real], .real⟩
  | .intDiv | .mod => ⟨[.int, .int], .int⟩
  | .abs => ⟨[.int], .int⟩
  | .lt n | .le n | .gt n | .ge n => ⟨[n.sort, n.sort], .bool⟩
  | .toReal => ⟨[.int], .real⟩
  | .toInt => ⟨[.real], .int⟩
  | .isInt => ⟨[.real], .bool⟩

end Op

/-! ### Constants -/

/-- The quotient of two integers, unless the divisor is zero. -/
def ratio? (num den : Int) : Option Rat :=
  if den = 0 then none else some (Rat.divInt num den)

/-- The negation of what is written, if `negative`. -/
def signed (negative : Bool) (magnitude : Text) : Text :=
  if negative then "(- " ++ magnitude ++ ")" else magnitude

def intText (n : Int) : Text := signed (n < 0) (Text.ofNat n.natAbs)

/-- A natural number as a real. -/
def wholeText (n : Nat) : Text := Text.ofNat n ++ ".0"

def realText (r : Rat) : Text :=
  signed (r.num < 0) <|
    if r.den = 1 then wholeText r.num.natAbs
    else "(/ " ++ wholeText r.num.natAbs ++ " " ++ wholeText r.den ++ ")"

inductive Constant where
  | bool (b : Bool)
  | int (n : Int)
  | real (r : Rat)
  deriving DecidableEq

namespace Constant

def sort : Constant → Srt
  | .bool _ => .bool
  | .int _ => .int
  | .real _ => .real

def text : Constant → Text
  | .bool b => if b then "true" else "false"
  | .int n => intText n
  | .real r => realText r

def asBool? : Constant → Option Bool
  | .bool b => some b
  | _ => none

def asInt? : Constant → Option Int
  | .int n => some n
  | _ => none

def asReal? : Constant → Option Rat
  | .real r => some r
  | _ => none

end Constant

end SmtScript.Arith
