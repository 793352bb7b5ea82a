import Mathlib.Tactic.Common
import SmtScript.Sexp.Basic
import SmtScript.Sexp.Lexeme
import SmtScript.Text.Numeral

/-!
Which texts are atoms, and S-expressions all of whose atoms are of one kind.

A plain atom holds no character that separates lexemes. It is read as one lexeme if it does
not begin with a bar; a quoted atom, between its bars, may hold any other character.
-/

namespace SmtScript

namespace Lexeme

/-- A text that no separator interrupts. -/
def Plain (a : Text) : Prop := a ≠ [] ∧ ∀ c ∈ a, inAtom c = true

/-- A text that is read as one atom up to the next separator. -/
def Unquoted (a : Text) : Prop := Plain a ∧ a.head? ≠ some '|'

/-- A text between bars. -/
def Quoted (a : Text) : Prop := ∃ body, '|' ∉ body ∧ a = '|' :: (body ++ ['|'])

/-- A text that is read as one atom. -/
def IsAtom (a : Text) : Prop := (Plain a ∧ a.head? ≠ some '|') ∨ Quoted a

/-- A plain atom ends where the text begins. -/
def Delimited (t : Text) : Prop := ∀ c ∈ t.head?, inAtom c = false

-- by the list: the type of characters is finite, and running through all of it takes too long
instance (a : Text) : Decidable (Plain a) :=
  decidable_of_iff (a ≠ [] ∧ a.all inAtom = true) (and_congr_right fun _ => List.all_eq_true)

instance (a : Text) : Decidable (Unquoted a) :=
  inferInstanceAs (Decidable (Plain a ∧ a.head? ≠ some '|'))

@[simp] lemma delimited_nil : Delimited [] := by simp [Delimited]

lemma delimited_cons {c : Char} {t : Text} (h : inAtom c = false) : Delimited (c :: t) := by
  simpa [Delimited] using h

lemma delimited_space (t : Text) : Delimited (' ' :: t) := delimited_cons (by decide)

lemma delimited_opening (t : Text) : Delimited ('(' :: t) := delimited_cons (by decide)

lemma delimited_closing (t : Text) : Delimited (')' :: t) := delimited_cons (by decide)

lemma delimited_newline (t : Text) : Delimited ('\n' :: t) := delimited_cons (by decide)

lemma inAtom_of_isDigit {c : Char} (h : c.isDigit = true) : inAtom c = true := by
  have hdigit : 48 ≤ c.toNat ∧ c.toNat ≤ 57 := Char.isDigit_iff_toNat.mp h
  have hblank : Text.isBlank c = false := by
    simp only [Text.isBlank, Text.whiteSpace, List.any_cons, List.any_nil, Bool.or_false,
      Bool.or_eq_false_iff, Bool.and_eq_false_iff, decide_eq_false_iff_not]
    omega
  have hne (d : Char) (hd : d.toNat < 48 ∨ 57 < d.toNat) : (c == d) = false := by
    rw [beq_eq_false_iff_ne]
    rintro rfl
    omega
  simp [inAtom, hblank, hne '(' (by decide), hne ')' (by decide), hne ';' (by decide)]

lemma Plain.append {a b : Text} (ha : Plain a) (hb : ∀ c ∈ b, inAtom c = true) :
    Plain (a ++ b) := by
  refine ⟨by simp [ha.1], fun c hc => ?_⟩
  rcases List.mem_append.mp hc with h | h
  · exact ha.2 c h
  · exact hb c h

lemma plain_ofNat (n : Nat) : Plain (Text.ofNat n) := by
  have h := Text.isNumeral_ofNat n
  simp only [Text.isNumeral, Bool.and_eq_true, Bool.not_eq_true', List.isEmpty_eq_false_iff,
    List.all_eq_true] at h
  exact ⟨h.1, fun c hc => inAtom_of_isDigit (h.2 c hc)⟩

/-- A numeral begins with a digit. -/
lemma exists_ofNat_eq_cons (n : Nat) : ∃ d t, Text.ofNat n = d :: t ∧ d.isDigit = true := by
  have h := Text.isNumeral_ofNat n
  simp only [Text.isNumeral, Bool.and_eq_true, Bool.not_eq_true', List.isEmpty_eq_false_iff,
    List.all_eq_true] at h
  obtain ⟨d, t, hd⟩ := List.exists_cons_of_ne_nil h.1
  exact ⟨d, t, hd, h.2 d (by simp [hd])⟩

end Lexeme

namespace Sexp

/-- Induction on S-expressions, with the hypothesis for every item of a list. -/
@[elab_as_elim, induction_eliminator]
theorem induction {P : Sexp → Prop} (atom : ∀ a, P (.atom a))
    (list : ∀ items, (∀ s ∈ items, P s) → P (.list items)) : ∀ s, P s
  | .atom a => atom a
  | .list items => list items fun s _ => induction atom list s

lemma itemsDepth_le_iff {items : List Sexp} {n : Nat} :
    itemsDepth items ≤ n ↔ ∀ s ∈ items, s.depth ≤ n := by
  induction items with
  | nil => simp [itemsDepth]
  | cons s items ih => rw [itemsDepth, Nat.max_le, ih, List.forall_mem_cons]

/-- All atoms of the expression have the property. -/
inductive Atoms (P : Text → Prop) : Sexp → Prop where
  | atom {a : Text} (h : P a) : Atoms P (.atom a)
  | list {items : List Sexp} (h : ∀ s ∈ items, Atoms P s) : Atoms P (.list items)

variable {P : Text → Prop}

lemma atoms_atom {a : Text} : Atoms P (.atom a) ↔ P a :=
  ⟨fun | .atom h => h, .atom⟩

lemma atoms_list {items : List Sexp} : Atoms P (.list items) ↔ ∀ s ∈ items, Atoms P s :=
  ⟨fun | .list h => h, .list⟩

lemma Atoms.mono {Q : Text → Prop} {s : Sexp} (h : s.Atoms P) (hPQ : ∀ a, P a → Q a) :
    s.Atoms Q := by
  induction h with
  | atom h => exact .atom (hPQ _ h)
  | list _ ih => exact .list ih

end Sexp

end SmtScript
