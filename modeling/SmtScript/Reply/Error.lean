import SmtScript.Text.Numeral

/-!
Why a reply is refused. An error quotes the part of the reply that it is about, cut to one
line of moderate length.
-/

namespace SmtScript

namespace Text

/-- The longest line that is quoted whole. -/
def excerptLength : Nat := 80

/-- The first line without the white space around it; a long one is cut, with three points
after it. -/
def excerpt (t : Text) : Text :=
  let line := t.firstLine.trim
  if line.length ≤ excerptLength then line else line.take excerptLength ++ "..."

end Text

inductive DecodeError where
  | unexpectedToken (expected found : Text)
  | unexpectedEnd (expected : Text)
  /-- Text is left over after the last answer. -/
  | trailingInput (rest : Text)
  | tooDeep (limit : Nat)
  /-- A model names a variable that was not declared at the time. -/
  | unknownVariable (name : Text)
  | duplicateVariable (name : Text)
  | missingVariable (name : Text)
  | sortMismatch (name expected found : Text)
  | invalidValue (name sort text reason : Text)
  /-- The theory has no values, so that its models cannot be read. -/
  | unsupportedModel (theory : Text)
  deriving DecidableEq

namespace DecodeError

/-- Whether the reply is malformed, and not only at odds with the script. -/
def isSyntax : DecodeError → Bool
  | .unexpectedToken .. | .unexpectedEnd _ | .trailingInput _ | .tooDeep _ => true
  | _ => false

def isSortMismatch : DecodeError → Bool
  | .sortMismatch .. => true
  | _ => false

def isUnsupported : DecodeError → Bool
  | .unsupportedModel _ => true
  | _ => false

def message : DecodeError → Text
  | .unexpectedToken expected found => "expected " ++ expected ++ ", found `" ++ found ++ "`"
  | .unexpectedEnd expected => "expected " ++ expected ++ ", found end of output"
  | .trailingInput rest => "unexpected trailing output: `" ++ rest ++ "`"
  | .tooDeep limit => "solver output nests lists deeper than " ++ Text.ofNat limit
  | .unknownVariable name => "unknown variable `" ++ name ++ "` in model"
  | .duplicateVariable name => "variable `" ++ name ++ "` defined twice in model"
  | .missingVariable name => "model has no value for `" ++ name ++ "`"
  | .sortMismatch name expected found =>
    "variable `" ++ name ++ "` declared as " ++ expected ++ " but reported as " ++ found
  | .invalidValue name sort text reason =>
    "invalid " ++ sort ++ " value `" ++ text ++ "` for `" ++ name ++ "`: " ++ reason
  | .unsupportedModel theory =>
    "model decoding is not implemented for theory `" ++ theory ++ "`"

end DecodeError

end SmtScript
