import SmtScript.Text.Basic

/-!
Paths of the file system. Two paths are the same if they have the same components: a
repeated or final slash does not count, and neither does a point, unless a relative path
begins with it.
-/

namespace SmtScript

structure Path where
  text : Text

namespace Path

inductive Component where
  | root
  /-- The directory that a relative path starts from, where the path names it. -/
  | here
  | name (text : Text)
  deriving DecidableEq

/-- The pieces of a text between its slashes. -/
def pieces : Text → List Text
  | [] => [[]]
  | c :: rest =>
    if c = '/' then [] :: pieces rest
    else
      match pieces rest with
      | [] => [[c]]
      | piece :: more => (c :: piece) :: more

def components (p : Path) : List Component :=
  let names := (pieces p.text).filter fun piece => piece ≠ [] ∧ piece ≠ "."
  let start : List Component :=
    if p.text.head? = some '/' then [.root]
    else if (pieces p.text).head? = some ['.'] then [.here]
    else []
  start ++ names.map .name

instance : BEq Path := ⟨fun p q => p.components == q.components⟩

end Path

end SmtScript
