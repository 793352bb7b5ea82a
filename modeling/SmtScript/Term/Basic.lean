import SmtScript.Theory
import SmtScript.Term.Error

/-!
Terms over a theory. A variable is the position of its declaration in the context. A
quantifier binds the position after the last one in scope and remembers it, so that a
quantified term has its place in contexts of one length only; a term without quantifiers
keeps its place when the context grows.

A term is built in a context by `Term.mkVar`, `Term.lit`, `Term.mkApp` and `Term.mkQuant`,
which refuse what is not well-sorted. `Term.check` says whether a term so
built has its place in another context.
-/

namespace SmtScript

inductive Quantifier where
  | universal
  | existential
  deriving DecidableEq

def Quantifier.text : Quantifier → Text
  | .universal => "forall"
  | .existential => "exists"

inductive Term (T : Theory) where
  | var (position : Nat) (sort : T.Sorts)
  | lit (value : T.Literal)
  | app (op : T.Op) (args : List (Term T))
  | quant (q : Quantifier) (position : Nat) (sort : T.Sorts) (body : Term T)

namespace Term

variable {T : Theory}

def sort : Term T → T.Sorts
  | .var _ s => s
  | .lit l => T.literalSort l
  | .app op _ => (T.signature op).result
  | .quant .. => T.boolSort

def isBool (t : Term T) : Bool := t.sort = T.boolSort

/-- Refuses a term of another sort than the boolean one. -/
def expectBool (t : Term T) : Except BuildError Unit :=
  if t.sort = T.boolSort then .ok () else .error (.notBoolean (T.sortText t.sort))

/-- Refuses a variable that the context does not have, or has at another sort. -/
def checkVariable (ctx : Context T) (position : Nat) (sort : T.Sorts) : Except BuildError Unit :=
  match ctx[position]? with
  | none => .error (.variableOutOfRange position ctx.length)
  | some declared =>
    if declared = sort then .ok ()
    else .error (.variableSortMismatch position (T.sortText declared) (T.sortText sort))

mutual

/-- Refuses a term with a variable or a quantifier that has no place in the context. The
first one from the left is the reason. -/
def check (ctx : Context T) : Term T → Except BuildError Unit
  | .var position sort => checkVariable ctx position sort
  | .lit _ => .ok ()
  | .app _ args => checkArgs ctx args
  | .quant _ position sort body =>
    if position = ctx.length then body.check (ctx.extend sort)
    else .error (.quantifierScope ctx.length position)

def checkArgs (ctx : Context T) : List (Term T) → Except BuildError Unit
  | [] => .ok ()
  | t :: rest => do
    t.check ctx
    checkArgs ctx rest

end

mutual

/-- The number of quantifiers in a term. -/
def quantifiers : Term T → Nat
  | .var .. => 0
  | .lit _ => 0
  | .app _ args => argsQuantifiers args
  | .quant _ _ _ body => body.quantifiers + 1

def argsQuantifiers : List (Term T) → Nat
  | [] => 0
  | t :: rest => t.quantifiers + argsQuantifiers rest

end

/-! ### Building -/

/-- The variable at a position, claimed to have the given sort. -/
def mkVar (ctx : Context T) (position : Nat) (sort : T.Sorts) : Except BuildError (Term T) := do
  checkVariable ctx position sort
  return .var position sort

/-- Refuses arguments of other sorts than the expected ones. Both lists have one length,
and `index` arguments come before them. -/
def matchArgs (op : T.Op) (index : Nat) : List T.Sorts → List (Term T) → Except BuildError Unit
  | expected :: sorts, arg :: args =>
    if arg.sort = expected then matchArgs op (index + 1) sorts args
    else .error (.argumentSortMismatch (T.opText op) index (T.sortText expected)
      (T.sortText arg.sort))
  | _, _ => .ok ()

/-- An operation applied to one argument for each sort of its signature. -/
def mkApp (op : T.Op) (args : List (Term T)) : Except BuildError (Term T) :=
  let sig := T.signature op
  if sig.arity = args.length then do
    matchArgs op 0 sig.args args
    return .app op args
  else throw (.arityMismatch (T.opText op) sig.arity args.length)

/-- A quantifier over one variable. The body is built in the extended context from the
variable bound, and is checked there: it may have been built elsewhere. -/
def mkQuant (q : Quantifier) (ctx : Context T) (sort : T.Sorts)
    (body : Context T → Term T → Except BuildError (Term T)) : Except BuildError (Term T) := do
  let inner := ctx.extend sort
  let t ← body inner (.var ctx.length sort)
  t.check inner
  t.expectBool
  return .quant q ctx.length sort t

end Term

end SmtScript
