import SmtScript.Term.Basic

/-!
Commands, and the state that they leave behind: the variables declared, and one slot for
each answer that the solver owes.
-/

namespace SmtScript

inductive Command (T : Theory) where
  | setLogic (logic : Text)
  | declareConst (sort : T.Sorts)
  | assert (t : Term T)
  | checkSat
  | getModel

/-- What kind of answer is owed. -/
inductive Slot (T : Theory) where
  /-- Whether the assertions can be satisfied. -/
  | verdict
  /-- Values for the variables declared at the time. -/
  | model (ctx : Context T)
  deriving DecidableEq

structure ScriptState (T : Theory) where
  context : Context T
  /-- The answers owed, in the order of the commands that ask for them. -/
  slots : List (Slot T)
  deriving DecidableEq

namespace ScriptState

variable {T : Theory}

def initial : ScriptState T := ⟨[], []⟩

/-- The slot of the last command that asks for an answer. -/
def latest? (st : ScriptState T) : Option (Slot T) := st.slots.getLast?

end ScriptState

namespace Command

variable {T : Theory}

/-- The state after a command. A term is asserted only if it is boolean and has its place
in the context; a model is asked for only if the last answer owed is a verdict. -/
def apply (st : ScriptState T) : Command T → Except BuildError (ScriptState T)
  | .setLogic _ => .ok st
  | .declareConst sort => .ok { st with context := st.context.extend sort }
  | .assert t => do
    t.check st.context
    t.expectBool
    return st
  | .checkSat => .ok { st with slots := st.slots ++ [.verdict] }
  | .getModel =>
    if st.latest? = some .verdict then
      .ok { st with slots := st.slots ++ [.model st.context] }
    else .error .getModelWithoutCheckSat

end Command

end SmtScript
