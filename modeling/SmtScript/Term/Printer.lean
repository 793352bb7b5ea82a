import SmtScript.Term.Basic
import SmtScript.Naming

/-!
Terms as text. A variable is written by its name in scope; a quantifier names the variable
it binds and takes that name out of scope at the end of its body, whether or not the body
could be written.
-/

namespace SmtScript.Term

variable {T : Theory}

mutual

/-- The text of a term and the naming after it, or the first variable or quantifier from
the left that has no place among the names in scope. -/
def print : Term T → Naming → Except BuildError Text × Naming
  | .var position _, names =>
    match names.name? position with
    | some name => (.ok name, names)
    | none => (.error (.variableOutOfRange position names.depth), names)
  | .lit value, names => (.ok (T.literalText value), names)
  | .app op args, names =>
    match printArgs args names with
    | (.ok t, after) => (.ok ("(" ++ T.opText op ++ t ++ ")"), after)
    | (.error e, after) => (.error e, after)
  | .quant q position sort body, names =>
    if position = names.depth then
      match body.print names.bind with
      | (.ok t, after) =>
        (.ok ("(" ++ q.text ++ " ((" ++ names.fresh ++ " " ++ T.sortText sort ++ ")) " ++ t ++ ")"),
          after.unbind)
      | (.error e, after) => (.error e, after.unbind)
    else (.error (.quantifierScope names.depth position), names)

/-- The texts of the arguments, each after a space. -/
def printArgs : List (Term T) → Naming → Except BuildError Text × Naming
  | [], names => (.ok [], names)
  | t :: rest, names =>
    match t.print names with
    | (.error e, after) => (.error e, after)
    | (.ok head, after) =>
      match printArgs rest after with
      | (.error e, last) => (.error e, last)
      | (.ok tail, last) => (.ok (" " ++ head ++ tail), last)

end

end SmtScript.Term
