import SmtScript.Sexp.Basic
import SmtScript.Sexp.Lexeme
import SmtScript.Text.Numeral

/-!
Reading S-expressions. A reader takes one lexeme at a time and remembers the lists that
are open; it stops at the lexeme that completes the expression, so that what follows can be
read later. At most `maxDepth` lists may be open at once.
-/

namespace SmtScript.Sexp

open Lexeme (skipBlank)

/-- Why a text cannot be read. -/
inductive ReadError where
  /-- The text ends before the expression does. -/
  | unexpectedEnd
  /-- No list is open for the closing parenthesis that `rest` begins with, or `rest` is said
  to be left over after the expression. -/
  | unexpectedClose (rest : Text)
  | tooDeep (limit : Nat)
  deriving DecidableEq

def ReadError.message : ReadError → Text
  | .unexpectedEnd => "unexpected end of input"
  | .unexpectedClose rest => "unbalanced `)` at: " ++ rest
  | .tooDeep limit => "lists nested deeper than " ++ Text.ofNat limit

/-- The number of lists that may be open at once. -/
def maxDepth : Nat := 512

/-- The open lists, innermost first, each with the items it has so far, latest first. -/
abbrev OpenLists := List (List Sexp)

/-- What a reader knows after a lexeme. -/
inductive Progress where
  | pending (lists : OpenLists)
  | complete (s : Sexp)
  | tooDeep
  | unmatched

namespace OpenLists

/-- An expression that is inside no list completes what is read. -/
def add (s : Sexp) : OpenLists → Progress
  | [] => .complete s
  | items :: outer => .pending ((s :: items) :: outer)

def feed (lists : OpenLists) : Lexeme → Progress
  | .opening => if lists.length = maxDepth then .tooDeep else .pending ([] :: lists)
  | .closing =>
    match lists with
    | [] => .unmatched
    | items :: outer => add (.list items.reverse) outer
  | .atom a => add (.atom a) lists

end OpenLists

/-- Reads on from a point where the given lists are open. -/
def readFrom (lists : OpenLists) (t : Text) : Except ReadError (Sexp × Text) :=
  match _h : Lexeme.next? t with
  | none => .error .unexpectedEnd
  | some (lexeme, rest) =>
    match lists.feed lexeme with
    | .pending lists => readFrom lists rest
    | .complete s => .ok (s, rest)
    | .tooDeep => .error (.tooDeep maxDepth)
    | .unmatched => .error (.unexpectedClose (skipBlank t))
termination_by t.length
decreasing_by exact Lexeme.length_lt_of_next? _h

/-- The first expression of a text, and the text after it. -/
def readOne (t : Text) : Except ReadError (Sexp × Text) := readFrom [] t

/-- The only expression of a text: nothing but blanks may follow it. -/
def readExact (t : Text) : Except ReadError Sexp := do
  let (s, rest) ← readOne t
  match skipBlank rest with
  | [] => return s
  | ')' :: after => throw (.unexpectedClose (')' :: after))
  | after => throw (.unexpectedClose ("trailing input: " ++ after))

/-- Reading an expression consumes some of the text. -/
theorem length_lt_of_readFrom {lists : OpenLists} {t rest : Text} {s : Sexp}
    (h : readFrom lists t = .ok (s, rest)) : rest.length < t.length := by
  fun_induction readFrom lists t with
  | case1 => cases h
  | case2 lists t l r hl lists' _ ih =>
    have := Lexeme.length_lt_of_next? hl
    have := ih h
    omega
  | case3 lists t l r hl =>
    cases h
    exact Lexeme.length_lt_of_next? hl
  | case4 => cases h
  | case5 => cases h

theorem length_lt_of_readOne {t rest : Text} {s : Sexp} (h : readOne t = .ok (s, rest)) :
    rest.length < t.length :=
  length_lt_of_readFrom h

end SmtScript.Sexp
