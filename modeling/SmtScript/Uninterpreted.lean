import SmtScript.Theory

/-!
The theory about whose symbols nothing is known: a sort is any text, and literals and
operations bring their own sorts. No text is a value.
-/

namespace SmtScript

namespace Uninterpreted

/-- A literal and its sort. -/
structure Literal where
  text : Text
  sort : Text
  deriving DecidableEq

/-- An operation and its signature. -/
structure Op where
  text : Text
  signature : Signature Text
  deriving DecidableEq

end Uninterpreted

def uninterpreted : Theory where
  name := "opaque"
  Sorts := Text
  Literal := Uninterpreted.Literal
  Op := Uninterpreted.Op
  Value := Empty
  sortText := id
  boolSort := "Bool"
  literalSort := Uninterpreted.Literal.sort
  literalText := Uninterpreted.Literal.text
  signature := Uninterpreted.Op.signature
  opText := Uninterpreted.Op.text
  valueText := Empty.elim

end SmtScript
