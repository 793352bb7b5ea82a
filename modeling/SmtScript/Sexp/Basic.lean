import SmtScript.Text.Basic

/-!
S-expressions and their canonical text, in which one space separates the items of a list.
-/

namespace SmtScript

inductive Sexp where
  | atom (text : Text)
  | list (items : List Sexp)

namespace Sexp

mutual

/-- The canonical text. -/
def text : Sexp → Text
  | .atom a => a
  | .list items => '(' :: (itemsText items ++ [')'])

/-- The canonical texts of the items, one space between each two. -/
def itemsText : List Sexp → Text
  | [] => []
  | [s] => s.text
  | s :: next :: rest => s.text ++ ' ' :: itemsText (next :: rest)

end

theorem itemsText_eq_joined (items : List Sexp) :
    itemsText items = Text.joined " " (items.map text) := by
  induction items with
  | nil => simp [itemsText, Text.joined]
  | cons s rest ih =>
    cases rest with
    | nil => simp [itemsText, Text.joined]
    | cons next rest => simp [itemsText, ih, Text.joined, List.intercalate]

mutual

/-- How many lists are open at once, at most, in the text. -/
def depth : Sexp → Nat
  | .atom _ => 0
  | .list items => itemsDepth items + 1

def itemsDepth : List Sexp → Nat
  | [] => 0
  | s :: rest => max s.depth (itemsDepth rest)

end

end Sexp

end SmtScript
