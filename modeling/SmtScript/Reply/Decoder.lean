import SmtScript.Answer
import SmtScript.Recognizer
import SmtScript.Reply.Error
import SmtScript.Script.Command
import SmtScript.Sexp.Reader

/-!
Replies: one expression for each answer owed, in the order of the slots, and nothing after
the last. A verdict is an atom. A model is a list of definitions
`(define-fun <name> () <sort> <value>)`, one for each variable of the slot and in any order;
the atom `model` may stand before them.
-/

namespace SmtScript.Reply

variable {T : Theory}

def unexpected (expected : Text) (found : Sexp) : DecodeError :=
  .unexpectedToken expected found.text.excerpt

/-- The first expression of a text and the text after it, where something is expected. -/
def nextSexp (expected t : Text) : Except DecodeError (Sexp × Text) :=
  match Sexp.readOne t with
  | .ok r => .ok r
  | .error .unexpectedEnd => .error (.unexpectedEnd expected)
  | .error (.unexpectedClose rest) => .error (.unexpectedToken expected rest.excerpt)
  | .error (.tooDeep limit) => .error (.tooDeep limit)

/-! ### Verdicts -/

def verdictExpected : Text := "sat, unsat or unknown"

/-- The verdict that an expression is. -/
def verdictOf? : Sexp → Option Verdict
  | .atom a => Verdict.ofText? a
  | .list _ => none

def decodeVerdict (t : Text) : Except DecodeError (Verdict × Text) := do
  let (s, rest) ← nextSexp verdictExpected t
  match verdictOf? s with
  | some v => return (v, rest)
  | none => throw (unexpected verdictExpected s)

/-! ### Models -/

/-- The parts of a definition. -/
structure Definition where
  name : Text
  sort : Sexp
  value : Sexp

def definitionExpected : Text := "(define-fun <name> () <sort> <value>)"

def definition? : Sexp → Option Definition
  | .list [.atom keyword, .atom name, .list [], sort, value] =>
    if keyword = "define-fun" then some ⟨name, sort, value⟩ else none
  | _ => none

/-- The definitions of a model, without the atom that may head them. -/
def withoutHead : List Sexp → List Sexp
  | .atom a :: rest => if a = "model" then rest else .atom a :: rest
  | items => items

/-- The positions that have been given an assignment. -/
abbrev Filled (T : Theory) := List (Nat × Assignment T)

/-- The position and the assignment that a definition stands for, where `count` variables
are declared. -/
def decodeDefinition (r : Recognizer T) (count : Nat) (filled : Filled T) (d : Definition) :
    Except DecodeError (Nat × Assignment T) :=
  match (r.recognize? d.name).filter fun e => e.position < count with
  | none => .error (.unknownVariable d.name)
  | some e =>
    if T.sortText e.sort ≠ d.sort.text then
      .error (.sortMismatch d.name (T.sortText e.sort) d.sort.text)
    else if (filled.lookup e.position).isSome then .error (.duplicateVariable d.name)
    else
      match T.readValue e.sort d.value.text with
      | .ok v => .ok (e.position, ⟨e.name, e.sort, v⟩)
      | .error .unsupported => .error (.unsupportedModel T.name)
      | .error (.malformed reason) =>
        .error (.invalidValue d.name (T.sortText e.sort) d.value.text reason)

/-- Fills positions from the entries of a model, up to the first that is defective. -/
def fill (r : Recognizer T) (count : Nat) : Filled T → List Sexp → Except DecodeError (Filled T)
  | filled, [] => .ok filled
  | filled, entry :: rest =>
    match definition? entry with
    | none => .error (unexpected definitionExpected entry)
    | some d => do
      let a ← decodeDefinition r count filled d
      fill r count (a :: filled) rest

/-- What a variable is called that has no assignment. -/
def missingName (r : Recognizer T) (position : Nat) : Text :=
  (r.nameOf? position).getD ("<position " ++ Text.ofNat position ++ ">")

/-- The assignments of the given positions. -/
def collect (r : Recognizer T) (filled : Filled T) :
    List Nat → Except DecodeError (List (Assignment T))
  | [] => .ok []
  | position :: rest =>
    match filled.lookup position with
    | none => .error (.missingVariable (missingName r position))
    | some a => do
      let more ← collect r filled rest
      return a :: more

/-- The model over a context that the entries list. -/
def modelOfEntries (r : Recognizer T) (ctx : Context T) (entries : List Sexp) :
    Except DecodeError (Model T) := do
  let filled ← fill r ctx.length [] entries
  let assignments ← collect r filled (List.range ctx.length)
  return ⟨assignments⟩

def decodeModel (r : Recognizer T) (ctx : Context T) (t : Text) :
    Except DecodeError (Model T × Text) := do
  let (s, rest) ← nextSexp "a model" t
  match s with
  | .atom _ => throw (unexpected "a parenthesized model" s)
  | .list items =>
    let m ← modelOfEntries r ctx (withoutHead items)
    return (m, rest)

/-! ### Replies -/

def decodeSlot (r : Recognizer T) (t : Text) : Slot T → Except DecodeError (Answer T × Text)
  | .verdict => do
    let (v, rest) ← decodeVerdict t
    return (.verdict v, rest)
  | .model ctx => do
    let (m, rest) ← decodeModel r ctx t
    return (.model m, rest)

/-- The answers to the slots, in their order, and the text after them. -/
def decodeSlots (r : Recognizer T) :
    List (Slot T) → Text → Except DecodeError (List (Answer T) × Text)
  | [], t => .ok ([], t)
  | slot :: rest, t => do
    let (a, after) ← decodeSlot r t slot
    let (more, last) ← decodeSlots r rest after
    return (a :: more, last)

/-- The answers that a whole reply gives, most recent first. -/
def decode (r : Recognizer T) (slots : List (Slot T)) (t : Text) :
    Except DecodeError (List (Answer T)) := do
  let (answers, rest) ← decodeSlots r slots t
  match Lexeme.skipBlank rest with
  | [] => return answers.reverse
  | left => throw (.trailingInput (Text.excerpt left))

end SmtScript.Reply
