import SmtScript.Script.Basic
import SmtScript.Term.Printer
import SmtScript.Recognizer

/-!
Scripts as text, one command a line, together with the recognizer by which the names in the
solver's reply are traced back to the variables declared.
-/

namespace SmtScript

/-- A text, and an entry for each variable that it declares. -/
structure Printed (T : Theory) where
  text : Text
  recognizer : Recognizer T

namespace Command

variable {T : Theory}

/-- The text of a command, without a line end, and the naming after it. -/
def print : Command T → Naming → Except BuildError (Printed T) × Naming
  | .setLogic logic, names => (.ok ⟨"(set-logic " ++ logic ++ ")", []⟩, names)
  | .declareConst sort, names =>
    (.ok ⟨"(declare-const " ++ names.fresh ++ " " ++ T.sortText sort ++ ")",
      [⟨names.fresh, sort, names.depth⟩]⟩, names.bind)
  | .assert t, names =>
    match t.print names with
    | (.ok text, after) => (.ok ⟨"(assert " ++ text ++ ")", []⟩, after)
    | (.error e, after) => (.error e, after)
  | .checkSat, names => (.ok ⟨"(check-sat)", []⟩, names)
  | .getModel, names => (.ok ⟨"(get-model)", []⟩, names)

/-- The texts of the commands, each on a line of its own. -/
def printAll : List (Command T) → Naming → Except BuildError (Printed T)
  | [], _ => .ok ⟨[], []⟩
  | c :: rest, names =>
    match c.print names with
    | (.error e, _) => .error e
    | (.ok line, after) => do
      let more ← printAll rest after
      return ⟨line.text ++ "\n" ++ more.text, line.recognizer.or more.recognizer⟩

end Command

namespace Script

variable {T : Theory}

def print (s : Script T) : Except BuildError (Printed T) := Command.printAll s.commands .initial

/-- The text of a script without the line end after its last command. -/
def display (s : Script T) : Except BuildError Text := do
  let printed ← s.print
  return printed.text.trimEnd

end Script

end SmtScript
