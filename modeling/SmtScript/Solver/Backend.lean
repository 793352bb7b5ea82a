import SmtScript.Solver.Kind
import SmtScript.Solver.Path

/-!
Running a solver. A backend takes the text of a script to what the run gave; one kind of
backend starts a solver's executable on a host.
-/

namespace SmtScript

/-- Why a run gives no reply to decode. -/
inductive SolverError where
  | notFound (kind : SolverKind) (path : Path)
  /-- The process could not be started. -/
  | processError (reason : Text)
  /-- The process failed; `status` is its exit code, if it was not killed. -/
  | failed (status : Option Int) (stderr : Text)
  deriving BEq

/-- How a process ended. -/
def exitText : Option Int → Text
  | some code => "Solver exited with status " ++ Text.ofInt code
  | none => "Solver terminated by signal"

def SolverError.message : SolverError → Text
  | .notFound kind path => kind.text ++ " binary not found at: " ++ path.text
  | .processError reason => "Solver process error: " ++ reason
  | .failed status stderr =>
    if stderr.trim = [] then exitText status else exitText status ++ ": " ++ stderr.trim

/-- What a process left behind. -/
structure RunOutput where
  /-- The exit code, unless the process was killed. -/
  status : Option Int
  stdout : Text
  stderr : Text
  deriving DecidableEq

/-- A run succeeds if it exits with code zero and complains about nothing. -/
def RunOutput.success (out : RunOutput) : Bool := out.status = some 0 ∧ out.stderr.trim = []

/-- A way of running a solver on the text of a script. -/
abbrev Backend (m : Type → Type) := Text → m (Except SolverError RunOutput)

/-- An executable and its arguments. -/
structure Invocation where
  program : Path
  args : List Text

/-- What is asked of the machine that a solver runs on. -/
structure Host (m : Type → Type) where
  pathExists : Path → m Bool
  /-- The executable of a name. -/
  search : Text → m (Option Path)
  /-- What a process gives on an input, or why it cannot be started. -/
  run : Invocation → Text → m (Except Text RunOutput)

structure SolverConfig where
  kind : SolverKind
  path : Path
  /-- The time limit in milliseconds; none if zero. The solver is told of it and keeps it
  itself. -/
  timeout : Nat := 0
  extraArgs : List Text := []

namespace SolverConfig

variable {m : Type → Type} [Monad m]

def args (c : SolverConfig) : List Text :=
  c.kind.inputArgs ++ (if c.timeout = 0 then [] else [c.kind.timeoutArg c.timeout])
    ++ c.extraArgs

/-- The configuration for the executable that the host finds for a kind of solver. -/
def locate (host : Host m) (kind : SolverKind) : m (Except SolverError SolverConfig) := do
  match ← host.search kind.binary with
  | some path => return .ok { kind, path }
  | none => return .error (.notFound kind ⟨kind.binary⟩)

/-- The process to start, if the configured executable exists. -/
def invocation (host : Host m) (c : SolverConfig) : m (Except SolverError Invocation) := do
  if ← host.pathExists c.path then return .ok ⟨c.path, c.args⟩
  else return .error (.notFound c.kind c.path)

/-- The backend that starts the configured executable. -/
def backend (host : Host m) (c : SolverConfig) : Backend m := fun input => do
  match ← c.invocation host with
  | .error e => return .error e
  | .ok inv =>
    match ← host.run inv input with
    | .ok out => return .ok out
    | .error reason =>
      return .error (.processError ("Failed to start " ++ c.kind.text ++ ": " ++ reason))

end SolverConfig

/-- The backend for the executable that the host finds for a kind of solver. -/
def Backend.locate {m : Type → Type} [Monad m] (host : Host m) (kind : SolverKind) :
    m (Except SolverError (Backend m)) := do
  match ← SolverConfig.locate host kind with
  | .ok c => return .ok (c.backend host)
  | .error e => return .error e

end SmtScript
