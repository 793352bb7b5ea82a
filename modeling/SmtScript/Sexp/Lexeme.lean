import SmtScript.Text.Basic

/-!
The lexemes of S-expressions: parentheses and atoms. White space and comments, which run
from a semicolon to the end of the line, separate lexemes and mean nothing.

An atom is plain or quoted. A plain atom ends before white space, a parenthesis or a
semicolon; a quoted atom runs from one vertical bar to the next, and both bars belong to
it.
-/

namespace SmtScript

inductive Lexeme where
  | opening
  | closing
  | atom (text : Text)
  deriving DecidableEq

namespace Lexeme

mutual

/-- The text without its leading white space and comments. -/
def skipBlank : Text → Text
  | [] => []
  | c :: rest =>
    if c = ';' then skipComment rest
    else if Text.isBlank c then skipBlank rest
    else c :: rest

/-- The text after the comment it is inside of, as `skipBlank` goes on from there. -/
def skipComment : Text → Text
  | [] => []
  | c :: rest => if c = '\n' then skipBlank rest else skipComment rest

end

/-- Whether a character may stand in a plain atom. -/
def inAtom (c : Char) : Bool :=
  !(Text.isBlank c || c == '(' || c == ')' || c == ';')

/-- The first lexeme and the text after it. There is none at the end of the text, and none
where a quoted atom lacks its second bar. -/
def next? (t : Text) : Option (Lexeme × Text) :=
  match skipBlank t with
  | [] => none
  | '(' :: rest => some (.opening, rest)
  | ')' :: rest => some (.closing, rest)
  | '|' :: rest =>
    match rest.dropWhile (· != '|') with
    | [] => none
    | bar :: after => some (.atom ('|' :: (rest.takeWhile (· != '|') ++ [bar])), after)
  | c :: rest => some (.atom (c :: rest.takeWhile inAtom), rest.dropWhile inAtom)

/-! ### Progress -/

theorem length_skipBlank_le (t : Text) :
    (skipBlank t).length ≤ t.length ∧ (skipComment t).length ≤ t.length := by
  induction t with
  | nil => simp [skipBlank, skipComment]
  | cons c rest ih =>
    simp only [skipBlank, skipComment, List.length_cons]
    grind

/-- A lexeme takes at least one character. -/
theorem length_lt_of_next? {t rest : Text} {l : Lexeme} (h : next? t = some (l, rest)) :
    rest.length < t.length := by
  have hskip := (length_skipBlank_le t).1
  have hdrop (p : Char → Bool) (u : Text) : (u.dropWhile p).length ≤ u.length :=
    (List.dropWhile_suffix p).length_le
  unfold next? at h
  split at h
  · cases h
  · next hs =>
    cases h
    rw [hs, List.length_cons] at hskip
    omega
  · next hs =>
    cases h
    rw [hs, List.length_cons] at hskip
    omega
  · next u hs =>
    split at h
    · cases h
    · next bar after hbar =>
      cases h
      have := hdrop (· != '|') u
      rw [hs, List.length_cons] at hskip
      rw [hbar, List.length_cons] at this
      omega
  · next c u _ _ _ hs =>
    cases h
    have := hdrop inAtom u
    rw [hs, List.length_cons] at hskip
    omega

end Lexeme

end SmtScript
