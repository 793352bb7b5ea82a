import Mathlib.Data.List.Basic
import SmtScript.Proofs.Sexp.Atom

/-!
Scanning: the lexemes at the front of a text, and what is left after them.

The canonical text of an S-expression scans to its lexemes, and so does any text that has
other white space between the items of the outermost list, or none where an item ends at the
beginning of the next one.
-/

namespace SmtScript

namespace Lexeme

/-- White space and comments, each comment with the end of its line. -/
inductive Blank : Text → Prop where
  | nil : Blank []
  | space {c : Char} {b : Text} (hc : Text.isBlank c = true) (hb : Blank b) : Blank (c :: b)
  | comment {body b : Text} (hbody : '\n' ∉ body) (hb : Blank b) :
      Blank (';' :: (body ++ '\n' :: b))

lemma blank_of_isBlank {b : Text} (h : ∀ c ∈ b, Text.isBlank c = true) : Blank b := by
  induction b with
  | nil => exact .nil
  | cons c b ih => exact .space (h c (by simp)) (ih fun d hd => h d (by simp [hd]))

lemma blank_newline : Blank "\n" := .space (by decide) .nil

lemma blank_space : Blank " " := .space (by decide) .nil

/-- An atom ends at blanks, and where there are none at what follows. -/
lemma Blank.delimited_append {b r : Text} (hb : Blank b) (h : b ≠ [] ∨ Delimited r) :
    Delimited (b ++ r) := by
  cases hb with
  | nil => exact h.resolve_left (absurd rfl)
  | space hc => exact delimited_cons (by simp [inAtom, hc])
  | comment => exact delimited_cons (by decide)

lemma skipBlank_of_isBlank {c : Char} (h : Text.isBlank c = true) (t : Text) :
    skipBlank (c :: t) = skipBlank t := by
  have hc : c ≠ ';' := by rintro rfl; revert h; decide
  simp [skipBlank, hc, h]

lemma skipComment_append {body : Text} (h : '\n' ∉ body) (t : Text) :
    skipComment (body ++ '\n' :: t) = skipBlank t := by
  induction body with
  | nil => simp [skipComment]
  | cons c body ih =>
    obtain ⟨hc, hbody⟩ := List.ne_and_not_mem_of_not_mem_cons h
    simpa [skipComment, hc.symm] using ih hbody

/-- Leading blanks do not count. -/
lemma skipBlank_append {b : Text} (h : Blank b) (t : Text) :
    skipBlank (b ++ t) = skipBlank t := by
  induction h with
  | nil => rfl
  | space hc _ ih => rw [List.cons_append, skipBlank_of_isBlank hc, ih]
  | comment hbody _ ih =>
    rw [List.cons_append, List.append_assoc, List.cons_append, skipBlank, if_pos rfl,
      skipComment_append hbody, ih]

lemma next?_append {b : Text} (h : Blank b) (t : Text) : next? (b ++ t) = next? t := by
  unfold next?
  rw [skipBlank_append h]

/-- Among blanks there is no lexeme. -/
lemma next?_of_skipBlank {t : Text} (h : skipBlank t = []) : next? t = none := by
  simp [next?, h]

lemma skipBlank_of_inAtom {c : Char} (h : inAtom c = true) (t : Text) :
    skipBlank (c :: t) = c :: t := by
  simp only [inAtom, Bool.not_eq_true', Bool.or_eq_false_iff, beq_eq_false_iff_ne] at h
  simp [skipBlank, h.2, h.1.1.1]

/-! ### The lexeme at the front -/

@[simp] lemma next?_opening (t : Text) : next? ('(' :: t) = some (.opening, t) := rfl

@[simp] lemma next?_closing (t : Text) : next? (')' :: t) = some (.closing, t) := rfl

lemma takeWhile_append_delimited {a r : Text} (ha : ∀ c ∈ a, inAtom c = true)
    (hr : Delimited r) : (a ++ r).takeWhile inAtom = a := by
  rw [List.takeWhile_append_of_pos ha]
  cases r with
  | nil => simp
  | cons c r => simp [hr c (by simp)]

lemma dropWhile_append_delimited {a r : Text} (ha : ∀ c ∈ a, inAtom c = true)
    (hr : Delimited r) : (a ++ r).dropWhile inAtom = r := by
  rw [List.dropWhile_append_of_pos ha]
  cases r with
  | nil => simp
  | cons c r => simp [hr c (by simp)]

lemma next?_plain {a r : Text} (ha : Plain a) (hbar : a.head? ≠ some '|') (hr : Delimited r) :
    next? (a ++ r) = some (.atom a, r) := by
  obtain ⟨c, a, rfl⟩ := List.exists_cons_of_ne_nil ha.1
  have hc : inAtom c = true := ha.2 c (by simp)
  have ha' : ∀ d ∈ a, inAtom d = true := fun d hd => ha.2 d (by simp [hd])
  unfold next?
  rw [List.cons_append, skipBlank_of_inAtom hc]
  split
  · next h => cases h
  · next h => cases h; exact absurd hc (by decide)
  · next h => cases h; exact absurd hc (by decide)
  · next h => cases h; exact absurd rfl hbar
  · next h =>
    cases h
    rw [takeWhile_append_delimited ha' hr, dropWhile_append_delimited ha' hr]

lemma next?_quoted {a : Text} (ha : Quoted a) (r : Text) : next? (a ++ r) = some (.atom a, r) := by
  obtain ⟨body, hbody, rfl⟩ := ha
  have hne : ∀ c ∈ body, (c != '|') = true := by
    intro c hc
    rw [bne_iff_ne]
    rintro rfl
    exact hbody hc
  have htext : '|' :: (body ++ ['|']) ++ r = '|' :: (body ++ '|' :: r) := by simp
  have hdrop : (body ++ '|' :: r).dropWhile (· != '|') = '|' :: r := by
    rw [List.dropWhile_append_of_pos hne]
    simp
  have htake : (body ++ '|' :: r).takeWhile (· != '|') = body := by
    rw [List.takeWhile_append_of_pos hne]
    simp
  rw [htext]
  unfold next?
  rw [skipBlank_of_inAtom (by decide)]
  simp only [hdrop, htake]

/-- An atom is read up to its end. -/
lemma next?_atom {a r : Text} (ha : IsAtom a) (hr : Delimited r) :
    next? (a ++ r) = some (.atom a, r) := by
  rcases ha with ⟨ha, hbar⟩ | ha
  · exact next?_plain ha hbar hr
  · exact next?_quoted ha r

/-! ### Sequences of lexemes -/

/-- The text begins with the lexemes, and `rest` is left after them. -/
inductive Scan : Text → List Lexeme → Text → Prop where
  | nil (t : Text) : Scan t [] t
  | cons {t after rest : Text} {l : Lexeme} {ls : List Lexeme}
      (h : next? t = some (l, after)) (hs : Scan after ls rest) : Scan t (l :: ls) rest

lemma Scan.single {t rest : Text} {l : Lexeme} (h : next? t = some (l, rest)) :
    Scan t [l] rest :=
  .cons h (.nil rest)

lemma Scan.append {t after rest : Text} {ls ms : List Lexeme} (h : Scan t ls after)
    (h' : Scan after ms rest) : Scan t (ls ++ ms) rest := by
  induction h with
  | nil => exact h'
  | cons hn _ ih => exact .cons hn (ih h')

/-- Lexemes one after another are scanned in two parts. -/
lemma Scan.split {t rest : Text} {ls ms : List Lexeme} (h : Scan t (ls ++ ms) rest) :
    ∃ after, Scan t ls after ∧ Scan after ms rest := by
  induction ls generalizing t with
  | nil => exact ⟨t, .nil t, h⟩
  | cons l ls ih =>
    rw [List.cons_append] at h
    obtain _ | ⟨hn, hs⟩ := h
    obtain ⟨after, hls, hms⟩ := ih hs
    exact ⟨after, .cons hn hls, hms⟩

/-- Blanks before the first lexeme make no difference. -/
lemma Scan.blank {b t rest : Text} {ls : List Lexeme} (hb : Blank b) (hls : ls ≠ [])
    (h : Scan t ls rest) : Scan (b ++ t) ls rest := by
  cases h with
  | nil => exact absurd rfl hls
  | cons hn hs => exact .cons (by rw [next?_append hb, hn]) hs

end Lexeme

namespace Text

lemma joined_cons (separator t : Text) (rest : List Text) :
    joined separator (t :: rest) = t ++ rest.flatMap (separator ++ ·) := by
  induction rest generalizing t with
  | nil => simp [joined]
  | cons u rest ih =>
    have := ih u
    simp only [joined] at this ⊢
    rw [List.intercalate_cons_cons, this]
    simp

end Text

namespace Sexp

open Lexeme

mutual

/-- The lexemes of an expression. -/
def lexemes : Sexp → List Lexeme
  | .atom a => [.atom a]
  | .list items => .opening :: (itemsLexemes items ++ [.closing])

def itemsLexemes : List Sexp → List Lexeme
  | [] => []
  | s :: rest => s.lexemes ++ itemsLexemes rest

end

lemma lexemes_ne_nil (s : Sexp) : s.lexemes ≠ [] := by
  cases s <;> simp [lexemes]

/-- The expression can be read back from its text: every atom is one lexeme. -/
abbrev Readable (s : Sexp) : Prop := s.Atoms IsAtom

lemma text_list (items : List Sexp) :
    (Sexp.list items).text = '(' :: (Text.joined " " (items.map text) ++ [')']) := by
  rw [text, itemsText_eq_joined]

variable {gap : Text}

/-- Items after a gap each, up to the end of their list. -/
lemma scan_items_after (hgap : Blank gap) {items : List Sexp}
    (hends : ∀ s ∈ items, ∀ t, Delimited (gap ++ (s.text ++ t)))
    (hitems : ∀ s ∈ items, ∀ r, Delimited r → Scan (s.text ++ r) s.lexemes r) (r : Text) :
    Scan ((items.map text).flatMap (gap ++ ·) ++ ')' :: r) (itemsLexemes items) (')' :: r) ∧
      Delimited ((items.map text).flatMap (gap ++ ·) ++ ')' :: r) := by
  induction items with
  | nil => exact ⟨.nil _, delimited_closing r⟩
  | cons s items ih =>
    obtain ⟨hend, hends⟩ := List.forall_mem_cons.mp hends
    obtain ⟨hfirst, hrest⟩ := List.forall_mem_cons.mp hitems
    obtain ⟨hscan, hdelim⟩ := ih hends hrest
    have hs := hfirst _ hdelim
    simp only [List.map_cons, List.flatMap_cons, List.append_assoc, itemsLexemes]
    exact ⟨.append (.blank hgap s.lexemes_ne_nil hs) hscan, hend _⟩

/-- Items with a gap between each two, up to the end of their list. -/
lemma scan_items (hgap : Blank gap) {items : List Sexp}
    (hends : ∀ s ∈ items.tail, ∀ t, Delimited (gap ++ (s.text ++ t)))
    (hitems : ∀ s ∈ items, ∀ r, Delimited r → Scan (s.text ++ r) s.lexemes r) (r : Text) :
    Scan (Text.joined gap (items.map text) ++ ')' :: r) (itemsLexemes items) (')' :: r) := by
  cases items with
  | nil => exact .nil _
  | cons s items =>
    obtain ⟨hfirst, hrest⟩ := List.forall_mem_cons.mp hitems
    obtain ⟨hscan, hdelim⟩ := scan_items_after hgap hends hrest r
    rw [List.map_cons, Text.joined_cons, List.append_assoc, itemsLexemes]
    exact .append (hfirst _ hdelim) hscan

/-- A list with a gap between each two of its items, at which the one before it ends. -/
lemma scan_list (hgap : Blank gap) {items : List Sexp}
    (hends : ∀ s ∈ items.tail, ∀ t, Delimited (gap ++ (s.text ++ t)))
    (hitems : ∀ s ∈ items, ∀ r, Delimited r → Scan (s.text ++ r) s.lexemes r) (r : Text) :
    Scan ('(' :: (Text.joined gap (items.map text) ++ ')' :: r))
      (Sexp.list items).lexemes r :=
  .cons (next?_opening _) (.append (scan_items hgap hends hitems r) (.single (next?_closing r)))

/-- **The canonical text scans to the lexemes of the expression.** -/
theorem scan_text {s : Sexp} (hs : s.Readable) {r : Text} (hr : Delimited r) :
    Scan (s.text ++ r) s.lexemes r := by
  induction s generalizing r with
  | atom a => exact .single (next?_atom (atoms_atom.mp hs) hr)
  | list items ih =>
    have hends (s : Sexp) (_ : s ∈ items.tail) (t : Text) : Delimited (" " ++ (s.text ++ t)) :=
      delimited_space _
    have h := scan_list blank_space hends
      (fun s hm r hr => ih s hm (atoms_list.mp hs s hm) hr) r
    rw [text_list]
    simpa using h

end Sexp

end SmtScript
