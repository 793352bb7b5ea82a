import SmtScript.Theory

/-!
What a solver answers: verdicts and models.
-/

namespace SmtScript

/-- The answer to a satisfiability check. -/
inductive Verdict where
  | sat
  | unsat
  /-- The solver could not decide. -/
  | unknown
  deriving DecidableEq

namespace Verdict

def text : Verdict → Text
  | .sat => "sat"
  | .unsat => "unsat"
  | .unknown => "unknown"

def ofText? (t : Text) : Option Verdict :=
  if t = "sat" then some .sat
  else if t = "unsat" then some .unsat
  else if t = "unknown" then some .unknown
  else none

/-- What is said of a text that is no verdict. -/
def refusal (t : Text) : Text := "not a check-sat answer: " ++ t

@[simp] theorem ofText?_text (v : Verdict) : ofText? v.text = some v := by
  cases v <;> rfl

end Verdict

/-- The value of one variable. -/
structure Assignment (T : Theory) where
  name : Text
  sort : T.Sorts
  value : T.Value

/-- One assignment for each variable of a context, by position. -/
structure Model (T : Theory) where
  assignments : List (Assignment T)

namespace Model

variable {T : Theory}

def size (m : Model T) : Nat := m.assignments.length

def values (m : Model T) : List T.Value := m.assignments.map Assignment.value

def value? (m : Model T) (name : Text) : Option T.Value :=
  (m.assignments.find? fun a => a.name == name).map Assignment.value

def valueAt? (m : Model T) (position : Nat) : Option T.Value :=
  m.assignments[position]?.map Assignment.value

end Model

inductive Answer (T : Theory) where
  | verdict (v : Verdict)
  | model (m : Model T)

end SmtScript
