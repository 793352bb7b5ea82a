import SmtScript.Reply.Decoder
import SmtScript.Script.Printer
import SmtScript.Solver.Backend

/-!
The whole way of a script: it is printed, a backend is run on its text, and the reply is
decoded against the slots of the script.
-/

namespace SmtScript

/-- The stage at which a script gets no answers, and why. -/
inductive RunError where
  | build (e : BuildError)
  | decode (e : DecodeError)
  | solver (e : SolverError)
  deriving BEq

namespace RunError

def stage : RunError → Text
  | .build _ => "build"
  | .decode _ => "decode"
  | .solver _ => "solver"

/-- The message of the error that stopped the stage. -/
def source : RunError → Text
  | .build e => e.message
  | .decode e => e.message
  | .solver e => e.message

def message (e : RunError) : Text := e.stage ++ " error: " ++ e.source

end RunError

variable {T : Theory}

/-- The answers that the output of a run gives to a script. -/
def Script.answersOf (s : Script T) (r : Recognizer T) (out : RunOutput) :
    Except RunError (List (Answer T)) :=
  if out.success then
    match Reply.decode r s.slots out.stdout with
    | .ok answers => .ok answers
    | .error e => .error (.decode e)
  else .error (.solver (.failed out.status out.stderr))

/-- The answers to a script, most recent first. The backend is run once, on the printed
script. -/
def Script.run {m : Type → Type} [Monad m] (backend : Backend m) (s : Script T) :
    m (Except RunError (List (Answer T))) :=
  match s.print with
  | .error e => return .error (.build e)
  | .ok printed => do
    match ← backend printed.text with
    | .error e => return .error (.solver e)
    | .ok out => return s.answersOf printed.recognizer out

end SmtScript
