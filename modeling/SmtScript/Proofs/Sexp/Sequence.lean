import SmtScript.Proofs.Sexp.Canonical

/-!
Texts of several expressions. A text is read expression by expression, each time from what
the last one has left, until no more can be read. So the expressions of a text with one
canonical text a line are found again, and reading ends where the text does.

How deep the lists of a canonical text are nested can be told from its parentheses alone.
-/

namespace SmtScript.Sexp

open Lexeme

/-- The expressions of a text, one after another, and why no more can be read. -/
def readAll (t : Text) : List Sexp × ReadError :=
  match _h : readOne t with
  | .error e => ([], e)
  | .ok (s, rest) =>
    let (more, e) := readAll rest
    (s :: more, e)
termination_by t.length
decreasing_by exact length_lt_of_readOne _h

lemma readAll_of_error {t : Text} {e : ReadError} (h : readOne t = .error e) :
    readAll t = ([], e) := by
  rw [readAll]
  split
  · next h' =>
    rw [h] at h'
    rw [Except.error.inj h']
  · next h' =>
    rw [h] at h'
    cases h'

lemma readAll_of_ok {t rest : Text} {s : Sexp} (h : readOne t = .ok (s, rest)) :
    readAll t = (s :: (readAll rest).1, (readAll rest).2) := by
  rw [readAll]
  split
  · next h' =>
    rw [h] at h'
    cases h'
  · next h' =>
    rw [h] at h'
    cases h'
    rfl

lemma readAll_append {b t : Text} (hb : Blank b) : readAll (b ++ t) = readAll t := by
  have heq : readOne (b ++ t) = readOne t := readOne_append hb
  cases h : readOne t with
  | error e => rw [readAll_of_error h, readAll_of_error (heq.trans h)]
  | ok r => rw [readAll_of_ok h, readAll_of_ok (heq.trans h)]

/-- **Expressions on lines of their own are all read**, and then the text is at its end. -/
theorem readAll_lines {lines : List Sexp} (h : ∀ s ∈ lines, s.Canonical) :
    readAll (lines.flatMap fun s => s.text ++ ("\n" : Text)) = (lines, .unexpectedEnd) := by
  induction lines with
  | nil => exact readAll_of_error (readOne_of_skipBlank rfl)
  | cons s lines ih =>
    obtain ⟨hs, hlines⟩ := List.forall_mem_cons.mp h
    let rest : Text := lines.flatMap fun s => s.text ++ "\n"
    have hread : readOne (s.text ++ ("\n" ++ rest)) = .ok (s, "\n" ++ rest) :=
      readOne_text hs.readable hs.depth_le (delimited_newline rest)
    rw [List.flatMap_cons, List.append_assoc, readAll_of_ok hread, readAll_append blank_newline,
      ih hlines]

/-! ### Nesting -/

/-- How many parentheses of a text are open at once, at most, if `level` are open before. -/
def nestingFrom (level : Nat) : Text → Nat
  | [] => level
  | c :: t =>
    if c = '(' then max level (nestingFrom (level + 1) t)
    else if c = ')' then max level (nestingFrom (level - 1) t)
    else nestingFrom level t

/-- How many parentheses of a text are open at once, at most. -/
def nesting (t : Text) : Nat := nestingFrom 0 t

lemma nestingFrom_opening (level : Nat) (t : Text) :
    nestingFrom level ('(' :: t) = max level (nestingFrom (level + 1) t) := rfl

lemma nestingFrom_closing (level : Nat) (t : Text) :
    nestingFrom level (')' :: t) = max level (nestingFrom (level - 1) t) := rfl

lemma nestingFrom_space (level : Nat) (t : Text) :
    nestingFrom level (' ' :: t) = nestingFrom level t := rfl

lemma le_nestingFrom (level : Nat) (t : Text) : level ≤ nestingFrom level t := by
  induction t with
  | nil => exact Nat.le_refl level
  | cons c t ih =>
    rw [nestingFrom]
    split_ifs
    · exact Nat.le_max_left _ _
    · exact Nat.le_max_left _ _
    · exact ih

/-- Plain atoms hold no parentheses. -/
lemma nestingFrom_plain {a : Text} (ha : ∀ c ∈ a, inAtom c = true) (level : Nat) (t : Text) :
    nestingFrom level (a ++ t) = nestingFrom level t := by
  induction a with
  | nil => rfl
  | cons c a ih =>
    obtain ⟨hc, ha⟩ := List.forall_mem_cons.mp ha
    have hopening : c ≠ '(' := by rintro rfl; exact absurd hc (by decide)
    have hclosing : c ≠ ')' := by rintro rfl; exact absurd hc (by decide)
    rw [List.cons_append, nestingFrom, if_neg hopening, if_neg hclosing, ih ha]

/-- What is to be shown of an expression: its text opens as many lists as it is deep. -/
def Nests (s : Sexp) : Prop :=
  ∀ (level : Nat) (t : Text),
    nestingFrom level (s.text ++ t) = max (level + s.depth) (nestingFrom level t)

lemma nestingFrom_itemsText {items : List Sexp} (hitems : ∀ s ∈ items, s.Nests) (level : Nat)
    (t : Text) : nestingFrom level (itemsText items ++ t) =
      max (level + itemsDepth items) (nestingFrom level t) := by
  have hle := le_nestingFrom level t
  induction items with
  | nil =>
    rw [itemsDepth, itemsText, List.nil_append]
    omega
  | cons s items ih =>
    obtain ⟨hs, hitems⟩ := List.forall_mem_cons.mp hitems
    cases items with
    | nil =>
      rw [itemsText, hs level t, itemsDepth, itemsDepth]
      omega
    | cons next rest =>
      have hdepth : itemsDepth (s :: next :: rest) = max s.depth (itemsDepth (next :: rest)) := rfl
      rw [itemsText, List.append_assoc, hs, List.cons_append, nestingFrom_space, ih hitems]
      omega

lemma nests (s : Sexp) (hs : s.Atoms Plain) : s.Nests := by
  induction hs with
  | @atom a ha =>
    intro level t
    have hle := le_nestingFrom level t
    rw [text, nestingFrom_plain ha.2, depth]
    omega
  | @list items _ ih =>
    intro level t
    have hle := le_nestingFrom level t
    rw [text, List.cons_append, List.append_assoc, nestingFrom_opening,
      nestingFrom_itemsText ih, List.singleton_append, nestingFrom_closing, depth,
      Nat.add_sub_cancel]
    omega

/-- **The parentheses of a canonical text are nested as its lists are.** -/
theorem nesting_text {s : Sexp} (hs : s.Atoms Plain) : nesting s.text = s.depth := by
  have h := nests s hs 0 []
  rw [List.append_nil] at h
  rw [nesting, h, nestingFrom]
  omega

end SmtScript.Sexp
