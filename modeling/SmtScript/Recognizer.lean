import SmtScript.Theory

/-!
Which variable a name stands for. A recognizer is an ordered list of entries, of which the
first that fits is taken.
-/

namespace SmtScript

/-- A name, and the sort and position of the variable it stands for. -/
structure Entry (T : Theory) where
  name : Text
  sort : T.Sorts
  position : Nat

abbrev Recognizer (T : Theory) := List (Entry T)

namespace Recognizer

variable {T : Theory}

/-- Tries the first recognizer, and then the second. -/
def or (first second : Recognizer T) : Recognizer T := first ++ second

def recognize? (r : Recognizer T) (name : Text) : Option (Entry T) :=
  r.find? fun e => e.name == name

def nameOf? (r : Recognizer T) (position : Nat) : Option Text :=
  (r.find? fun e => e.position == position).map Entry.name

end Recognizer

end SmtScript
