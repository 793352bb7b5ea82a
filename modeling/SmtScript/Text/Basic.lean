/-!
Text as a list of characters, which is what commands are written to and replies are read
from, and the white space that separates its words.
-/

namespace SmtScript

abbrev Text := List Char

instance : Coe String Text := ⟨String.toList⟩

namespace Text

/-- The ranges of code points with the Unicode property `White_Space`, first and last
included. -/
def whiteSpace : List (Nat × Nat) :=
  [(0x9, 0xD), (0x20, 0x20), (0x85, 0x85), (0xA0, 0xA0), (0x1680, 0x1680), (0x2000, 0x200A),
    (0x2028, 0x2029), (0x202F, 0x202F), (0x205F, 0x205F), (0x3000, 0x3000)]

def isBlank (c : Char) : Bool :=
  whiteSpace.any fun (first, last) => first ≤ c.toNat && c.toNat ≤ last

def trimStart (t : Text) : Text := t.dropWhile isBlank

def trimEnd (t : Text) : Text := (t.reverse.dropWhile isBlank).reverse

def trim (t : Text) : Text := trimEnd (trimStart t)

/-- The text up to the end of its first line. -/
def firstLine (t : Text) : Text := t.takeWhile (· != '\n')

/-- The items with a separator between each two. -/
def joined (separator : Text) (items : List Text) : Text := separator.intercalate items

end Text

end SmtScript
