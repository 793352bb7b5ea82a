import SmtScript.Text.Numeral

/-!
Why a term or a command is refused. Operations and sorts are named by their text.
-/

namespace SmtScript

inductive BuildError where
  /-- No variable has the position; `length` variables are in scope. -/
  | variableOutOfRange (position length : Nat)
  | variableSortMismatch (position : Nat) (expected found : Text)
  | arityMismatch (op : Text) (expected found : Nat)
  | argumentSortMismatch (op : Text) (index : Nat) (expected found : Text)
  | notBoolean (found : Text)
  /-- A quantifier binds position `found` where the next position is `expected`. -/
  | quantifierScope (expected found : Nat)
  /-- A model is asked for, and the last request before was not a satisfiability check. -/
  | getModelWithoutCheckSat
  deriving DecidableEq

def BuildError.message : BuildError → Text
  | .variableOutOfRange position length =>
    "variable " ++ Text.ofNat position ++ " out of range for context of length "
      ++ Text.ofNat length
  | .variableSortMismatch position expected found =>
    "variable " ++ Text.ofNat position ++ " has sort " ++ expected ++ " in context, not "
      ++ found
  | .arityMismatch op expected found =>
    "`" ++ op ++ "` expects " ++ Text.ofNat expected ++ " arguments, got "
      ++ Text.ofNat found
  | .argumentSortMismatch op index expected found =>
    "argument " ++ Text.ofNat index ++ " of `" ++ op ++ "` must have sort " ++ expected
      ++ ", got " ++ found
  | .notBoolean found => "expected a boolean term, got sort " ++ found
  | .quantifierScope expected found =>
    "quantifier binds position " ++ Text.ofNat found ++ " but is used in a context of length "
      ++ Text.ofNat expected
  | .getModelWithoutCheckSat => "(get-model) must directly follow an outstanding (check-sat)"

end SmtScript
