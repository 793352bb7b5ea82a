import SmtScript.Text.Numeral

/-!
The solvers that can be run, and the arguments with which each reads a script from its
standard input.
-/

namespace SmtScript

inductive SolverKind where
  | z3
  | cvc5
  | yices
  deriving DecidableEq

namespace SolverKind

instance : Inhabited SolverKind := ⟨.z3⟩

def text : SolverKind → Text
  | .z3 => "Z3"
  | .cvc5 => "CVC5"
  | .yices => "Yices"

/-- The name of the executable. -/
def binary : SolverKind → Text
  | .z3 => "z3"
  | .cvc5 => "cvc5"
  | .yices => "yices-smt2"

/-- The arguments for reading a script from standard input and for answering more than one
request, models included. -/
def inputArgs : SolverKind → List Text
  | .z3 => [("-in" : Text)]
  | .cvc5 => [("--lang" : Text), "smt2", "--produce-models", "--incremental"]
  | .yices => [("--incremental" : Text)]

/-- The argument for a time limit in milliseconds. A limit in seconds is rounded up, so that
a short one does not become none. -/
def timeoutArg (milliseconds : Nat) : SolverKind → Text
  | .z3 => "-t:" ++ Text.ofNat milliseconds
  | .cvc5 => "--tlimit=" ++ Text.ofNat milliseconds
  | .yices => "--timeout=" ++ Text.ofNat ((milliseconds + 999) / 1000)

end SolverKind

end SmtScript
