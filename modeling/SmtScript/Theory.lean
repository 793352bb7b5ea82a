import SmtScript.Text.Basic

/-!
Background theories. A theory says which sorts, literals and operations terms are built
from, how each of them is written, and which texts are values of a sort. Everything else is
stated for an arbitrary theory.
-/

namespace SmtScript

/-- The sorts of the arguments of an operation, and of what it yields. -/
structure Signature (S : Type) where
  args : List S
  result : S
  deriving DecidableEq

def Signature.arity {S : Type} (sig : Signature S) : Nat := sig.args.length

/-- Why a text is not read as a value. -/
inductive ValueError where
  | malformed (reason : Text)
  /-- The theory does not say which texts are values. -/
  | unsupported
  deriving DecidableEq

def ValueError.message : ValueError → Text
  | .malformed reason => "malformed value: " ++ reason
  | .unsupported => "theory defines no value grammar"

structure Theory where
  name : Text
  /-- The sorts of the theory. -/
  Sorts : Type
  /-- The constants that stand for themselves in a term. -/
  Literal : Type
  /-- The operations. -/
  Op : Type
  /-- What a model assigns to a variable. -/
  Value : Type
  [decEqSorts : DecidableEq Sorts]
  sortText : Sorts → Text
  /-- The sort of what can be asserted. -/
  boolSort : Sorts
  literalSort : Literal → Sorts
  literalText : Literal → Text
  signature : Op → Signature Sorts
  opText : Op → Text
  valueText : Value → Text
  /-- The value of a sort that a text denotes. A theory need not have any. -/
  readValue : Sorts → Text → Except ValueError Value := fun _ _ => .error .unsupported

attribute [instance] Theory.decEqSorts

/-- The sorts of the variables in scope. A variable is known by its position. -/
abbrev Context (T : Theory) := List T.Sorts

namespace Context

variable {T : Theory}

def text (ctx : Context T) : Text :=
  "[" ++ Text.joined ", " (ctx.map T.sortText) ++ "]"

/-- The context in which one more variable is in scope, at the first free position. -/
def extend (ctx : Context T) (sort : T.Sorts) : Context T := ctx ++ [sort]

@[simp] theorem length_extend (ctx : Context T) (sort : T.Sorts) :
    (ctx.extend sort).length = ctx.length + 1 := by
  simp [extend]

end Context

end SmtScript
