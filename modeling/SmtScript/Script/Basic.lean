import SmtScript.Script.Command

/-!
Scripts: the commands accepted so far and the state they lead to. A command is accepted or
refused when it is pushed, and a script is left in either case.
-/

namespace SmtScript

structure Script (T : Theory) where
  commands : List (Command T)
  state : ScriptState T

namespace Script

variable {T : Theory}

def empty : Script T := ⟨[], .initial⟩

def context (s : Script T) : Context T := s.state.context

/-- The answers owed, in the order in which the solver gives them. -/
def slots (s : Script T) : List (Slot T) := s.state.slots

/-- A step in the construction of a script. It changes the script as it goes, and what it has
changed stays when it is refused. -/
abbrev Builder (T : Theory) := EStateM BuildError (Script T)

def push (c : Command T) : Builder T Unit := do
  let st ← MonadExcept.ofExcept (c.apply (← get).state)
  modify fun s => { s with state := st }
  modify fun s => { s with commands := s.commands ++ [c] }

/-- Pushes commands in turn, up to the first that is refused. -/
def extend (cs : List (Command T)) : Builder T Unit := forM cs push

/-- The script of the given commands, if none is refused. -/
def ofCommands (cs : List (Command T)) : Except BuildError (Script T) :=
  match (extend cs).run empty with
  | .ok () s => .ok s
  | .error e _ => .error e

/-! ### Commands one by one -/

def setLogic (logic : Text) : Builder T Unit := push (.setLogic logic)

/-- Declares a variable and gives the term that refers to it. -/
def declareConst (sort : T.Sorts) : Builder T (Term T) := do
  let position := (← get).context.length
  push (.declareConst sort)
  MonadExcept.ofExcept (Term.mkVar (← get).context position sort)

def assert (t : Term T) : Builder T Unit := push (.assert t)

def checkSat : Builder T Unit := push .checkSat

def getModel : Builder T Unit := push .getModel

end Script

end SmtScript
