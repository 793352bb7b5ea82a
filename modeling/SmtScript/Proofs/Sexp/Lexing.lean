import Mathlib.Data.List.TakeWhile
import SmtScript.Proofs.Sexp.Scan

/-!
What is taken from the front of a text as its first lexeme. An unquoted atom is the longest
there is: it ends where the text ends or a separator follows. A quoted atom ends at its
second bar, whatever follows.
-/

namespace SmtScript.Lexeme

lemma Quoted.not_unquoted {a : Text} (h : Quoted a) : ¬ Unquoted a := by
  obtain ⟨body, -, rfl⟩ := h
  exact fun hu => hu.2 rfl

/-- An atom begins with a character that stands in atoms; a bar does. -/
lemma IsAtom.exists_cons {a : Text} (h : IsAtom a) : ∃ c u, a = c :: u ∧ inAtom c = true := by
  rcases h with ⟨⟨hne, hin⟩, -⟩ | ⟨body, -, rfl⟩
  · obtain ⟨c, u, rfl⟩ := List.exists_cons_of_ne_nil hne
    exact ⟨c, u, rfl, hin c (by simp)⟩
  · exact ⟨'|', body ++ ['|'], rfl, by decide⟩

lemma IsAtom.not_delimited {a : Text} (h : IsAtom a) (r : Text) : ¬ Delimited (a ++ r) := by
  obtain ⟨c, u, rfl, hc⟩ := h.exists_cons
  intro hd
  have := hd c (by simp)
  rw [hc] at this
  cases this

/-! ### Blanks -/

/-- What is skipped before the text that is left are blanks; from inside a comment on, they
stand after the end of its line. -/
lemma exists_blank (t : Text) :
    (skipBlank t ≠ [] → ∃ b, Blank b ∧ t = b ++ skipBlank t) ∧
      (skipComment t ≠ [] →
        ∃ body b, '\n' ∉ body ∧ Blank b ∧ t = body ++ '\n' :: (b ++ skipComment t)) := by
  induction t with
  | nil => exact ⟨absurd rfl, absurd rfl⟩
  | cons c t ih =>
    obtain ⟨ihBlank, ihComment⟩ := ih
    refine ⟨fun h => ?_, fun h => ?_⟩
    · rw [skipBlank] at h ⊢
      split_ifs at h ⊢ with hsemi hblank
      · obtain ⟨body, b, hbody, hb, ht⟩ := ihComment h
        refine ⟨_, .comment hbody hb, ?_⟩
        rw [hsemi, List.cons_append, List.append_assoc, List.cons_append, ← ht]
      · obtain ⟨b, hb, ht⟩ := ihBlank h
        refine ⟨_, .space hblank hb, ?_⟩
        rw [List.cons_append, ← ht]
      · exact ⟨[], .nil, rfl⟩
    · rw [skipComment] at h ⊢
      split_ifs at h ⊢ with hline
      · obtain ⟨b, hb, ht⟩ := ihBlank h
        refine ⟨[], b, by simp, hb, ?_⟩
        rw [hline, List.nil_append, ← ht]
      · obtain ⟨body, b, hbody, hb, ht⟩ := ihComment h
        refine ⟨c :: body, b, by simp [Ne.symm hline, hbody], hb, ?_⟩
        rw [List.cons_append, ← ht]

/-- What is left begins with neither white space nor a comment. -/
lemma head_skipBlank (t : Text) :
    (∀ c ∈ (skipBlank t).head?, c ≠ ';' ∧ Text.isBlank c = false) ∧
      ∀ c ∈ (skipComment t).head?, c ≠ ';' ∧ Text.isBlank c = false := by
  induction t with
  | nil => exact ⟨nofun, nofun⟩
  | cons d t ih =>
    rw [skipBlank, skipComment]
    refine ⟨?_, ?_⟩
    · split_ifs with hsemi hblank
      · exact ih.2
      · exact ih.1
      · simp [hsemi, hblank]
    · split_ifs
      · exact ih.1
      · exact ih.2

/-! ### The first lexeme -/

/-- The text is the lexeme and then the rest. -/
inductive Front : Text → Lexeme → Text → Prop where
  | opening (r : Text) : Front ('(' :: r) .opening r
  | closing (r : Text) : Front (')' :: r) .closing r
  | unquoted {a r : Text} (ha : Unquoted a) (hr : Delimited r) : Front (a ++ r) (.atom a) r
  | quoted {a : Text} (ha : Quoted a) (r : Text) : Front (a ++ r) (.atom a) r

lemma Front.next? {t r : Text} {l : Lexeme} (h : Front t l r) : next? t = some (l, r) := by
  cases h with
  | opening => exact next?_opening r
  | closing => exact next?_closing r
  | unquoted ha hr => exact next?_plain ha.1 ha.2 hr
  | quoted ha => exact next?_quoted ha r

lemma quoted_takeWhile {t u : Text} {c : Char} (h : t.dropWhile (· != '|') = c :: u) :
    Quoted ('|' :: (t.takeWhile (· != '|') ++ [c])) ∧
      '|' :: t = '|' :: (t.takeWhile (· != '|') ++ [c]) ++ u := by
  have hc : c = '|' := by
    have := List.head?_dropWhile_not (· != '|') t
    rw [h] at this
    simpa using this
  subst hc
  refine ⟨⟨_, fun hmem => ?_, rfl⟩, ?_⟩
  · simpa using List.mem_takeWhile_imp hmem
  · have := List.takeWhile_append_dropWhile (p := (· != '|')) (l := t)
    rw [h] at this
    simp [this]

lemma unquoted_takeWhile {t : Text} {c : Char} (hc : inAtom c = true) (hbar : c ≠ '|') :
    Unquoted (c :: t.takeWhile inAtom) ∧ Delimited (t.dropWhile inAtom) := by
  refine ⟨⟨⟨by simp, ?_⟩, by simpa using hbar⟩, ?_⟩
  · rw [List.forall_mem_cons]
    exact ⟨hc, fun d hd => List.mem_takeWhile_imp hd⟩
  · intro d hd
    have := List.head?_dropWhile_not inAtom t
    rw [hd] at this
    simpa using this

/-- The first lexeme is taken where the blanks end. -/
lemma front_skipBlank {t r : Text} {l : Lexeme} (h : Lexeme.next? t = some (l, r)) :
    Front (skipBlank t) l r := by
  unfold Lexeme.next? at h
  split at h
  · cases h
  · next hs =>
    cases h
    rw [hs]
    exact .opening r
  · next hs =>
    cases h
    rw [hs]
    exact .closing r
  · next u hs =>
    split at h
    · cases h
    · next hbar =>
      cases h
      obtain ⟨hquoted, heq⟩ := quoted_takeWhile hbar
      rw [hs, heq]
      exact .quoted hquoted r
  · next c u hopen hclose hbar hs =>
    cases h
    have hc : inAtom c = true := by
      obtain ⟨hsemi, hblank⟩ := (head_skipBlank t).1 c (by simp [hs])
      simpa [inAtom, hblank, hsemi] using ⟨hopen, hclose⟩
    obtain ⟨hunquoted, hdelim⟩ := unquoted_takeWhile (t := u) hc hbar
    have hfront := Front.unquoted hunquoted hdelim
    rwa [List.cons_append, List.takeWhile_append_dropWhile, ← hs] at hfront

/-- **The first lexeme** is what a text begins with after its blanks. -/
theorem next?_eq_some_iff {t r : Text} {l : Lexeme} :
    Lexeme.next? t = some (l, r) ↔ ∃ b u, Blank b ∧ t = b ++ u ∧ Front u l r := by
  refine ⟨fun h => ?_, ?_⟩
  · have hne : skipBlank t ≠ [] := by
      intro hnil
      simp [Lexeme.next?, hnil] at h
    obtain ⟨b, hb, ht⟩ := (exists_blank t).1 hne
    exact ⟨b, skipBlank t, hb, ht, front_skipBlank h⟩
  · rintro ⟨b, u, hb, rfl, h⟩
    rw [next?_append hb, h.next?]

end SmtScript.Lexeme
