import SmtScript.Proofs.Sexp.Layout
import SmtScript.Proofs.Sexp.Sequence

/-!
The blanks at the front of a text. Skipping takes away all white space and comments there and
nothing else, in one way only; done comment by comment, it takes as many rounds at most as
there are semicolons. Since every expression that is read takes something more, a text holds no
more expressions than characters, and reading one after another comes to an end.
-/

namespace SmtScript

namespace Lexeme

/-- The rest is what the text leaves after its blanks: it begins with none. Where nothing is
left, the last comment may lack the end of its line. -/
structure Leaves (t rest : Text) : Prop where
  blanks : ∃ b, t = b ++ rest ∧ (Blank b ∨ rest = [] ∧ FinalBlank b)
  begins : ∀ c ∈ rest.head?, Text.isBlank c = false ∧ c ≠ ';'

lemma leaves_skipBlank (t : Text) : Leaves t (skipBlank t) where
  blanks := by
    by_cases h : skipBlank t = []
    · exact ⟨t, by rw [h, List.append_nil], .inr ⟨h, skipBlank_eq_nil_iff.mp h⟩⟩
    · obtain ⟨b, hb, ht⟩ := (exists_blank t).1 h
      exact ⟨b, ht, .inl hb⟩
  begins := fun c hc => ((head_skipBlank t).1 c hc).symm

/-- A text that begins with no blank is left as it is. -/
lemma skipBlank_of_begins {t : Text} (h : ∀ c ∈ t.head?, Text.isBlank c = false ∧ c ≠ ';') :
    skipBlank t = t := by
  cases t with
  | nil => rfl
  | cons c t =>
    obtain ⟨hblank, hsemi⟩ := h c rfl
    rw [skipBlank, if_neg hsemi, hblank, if_neg Bool.false_ne_true]

lemma Leaves.skipBlank_eq {t rest : Text} (h : Leaves t rest) : skipBlank t = rest := by
  obtain ⟨⟨b, rfl, hb | ⟨rfl, hb⟩⟩, hbegins⟩ := h
  · rw [skipBlank_append hb, skipBlank_of_begins hbegins]
  · rw [List.append_nil, hb.skipBlank]

/-- **Only the blanks are skipped**, and all of them. -/
theorem skipBlank_eq_iff {t rest : Text} : skipBlank t = rest ↔ Leaves t rest :=
  ⟨fun h => h ▸ leaves_skipBlank t, Leaves.skipBlank_eq⟩

lemma skipBlank_idem (t : Text) : skipBlank (skipBlank t) = skipBlank t :=
  skipBlank_of_begins (leaves_skipBlank t).begins

/-! ### Comment by comment -/

/-- A text that begins with a comment, without the comment and the white space after it. -/
def dropComment? : Text → Option Text
  | ';' :: comment => some (Text.trimStart ((comment.dropWhile (· != '\n')).drop 1))
  | _ => none

/-- Comments are dropped as long as one comes next; `n` times. -/
inductive Rounds : Nat → Text → Text → Prop where
  | done {t : Text} (h : dropComment? t = none) : Rounds 0 t t
  | again {n : Nat} {t u rest : Text} (h : dropComment? t = some u) (hr : Rounds n u rest) :
      Rounds (n + 1) t rest

lemma skipBlank_trimStart (t : Text) : skipBlank t.trimStart = skipBlank t := by
  induction t with
  | nil => rfl
  | cons c t ih =>
    rw [Text.trimStart, List.dropWhile_cons]
    split
    · next hblank => rw [skipBlank_of_isBlank hblank, ← ih, Text.trimStart]
    · rfl

lemma begins_trimStart (t : Text) : ∀ c ∈ t.trimStart.head?, Text.isBlank c = false := by
  intro c hc
  have h := List.head?_dropWhile_not Text.isBlank t
  rw [← Text.trimStart, Option.mem_def.mp hc] at h
  simpa using h

lemma skipComment_eq (t : Text) :
    skipComment t = skipBlank ((t.dropWhile (· != '\n')).drop 1) := by
  induction t with
  | nil => rfl
  | cons c t ih =>
    by_cases hline : c = '\n'
    · subst hline
      rfl
    · rw [skipComment, if_neg hline, ih, List.dropWhile_cons, if_pos (bne_iff_ne.mpr hline)]

lemma eq_cons_of_dropComment? {t u : Text} (h : dropComment? t = some u) :
    ∃ comment, t = ';' :: comment ∧
      u = Text.trimStart ((comment.dropWhile (· != '\n')).drop 1) := by
  unfold dropComment? at h
  split at h
  · exact ⟨_, rfl, (Option.some.inj h).symm⟩
  · cases h

/-- **One round** skips a part of the blanks. -/
lemma skipBlank_of_dropComment? {t u : Text} (h : dropComment? t = some u) :
    skipBlank u = skipBlank t := by
  obtain ⟨comment, rfl, rfl⟩ := eq_cons_of_dropComment? h
  rw [skipBlank_trimStart, ← skipComment_eq, skipBlank, if_pos rfl]

/-- A round takes a semicolon away. -/
lemma count_lt_of_dropComment? {t u : Text} (h : dropComment? t = some u) :
    u.count ';' < t.count ';' := by
  obtain ⟨comment, rfl, rfl⟩ := eq_cons_of_dropComment? h
  have hsuffix : Text.trimStart ((comment.dropWhile (· != '\n')).drop 1) <:+ comment :=
    (List.dropWhile_suffix _).trans ((List.drop_suffix _ _).trans (List.dropWhile_suffix _))
  rw [List.count_cons_self]
  exact Nat.lt_succ_of_le (hsuffix.sublist.count_le ';')

lemma ne_semicolon_of_dropComment? {t : Text} (h : dropComment? t = none) :
    ∀ c ∈ t.head?, c ≠ ';' := by
  rintro c hc rfl
  cases t with
  | nil => cases hc
  | cons d t =>
    cases hc
    cases h

/-- **Dropping comment by comment ends**, and has then skipped the blanks. -/
lemma exists_rounds {t : Text} (h : ∀ c ∈ t.head?, Text.isBlank c = false) :
    ∃ n ≤ t.count ';', Rounds n t (skipBlank t) := by
  -- a round takes a semicolon and trims what is left, so that the next one begins as this one did
  induction hcount : t.count ';' using Nat.strongRecOn generalizing t with
  | ind count ih =>
    subst hcount
    cases hdrop : dropComment? t with
    | none =>
      have hsemi := ne_semicolon_of_dropComment? hdrop
      rw [skipBlank_of_begins fun c hc => ⟨h c hc, hsemi c hc⟩]
      exact ⟨0, Nat.zero_le _, .done hdrop⟩
    | some u =>
      have hlt := count_lt_of_dropComment? hdrop
      obtain ⟨comment, -, hu⟩ := eq_cons_of_dropComment? hdrop
      obtain ⟨n, hn, hrounds⟩ := ih _ hlt (by rw [hu]; exact begins_trimStart _) rfl
      rw [skipBlank_of_dropComment? hdrop] at hrounds
      exact ⟨n + 1, by omega, .again hdrop hrounds⟩

end Lexeme

namespace Sexp

open Lexeme

/-! ### One expression after another -/

/-- The expressions are read one after another, and the rest is left. -/
inductive Reads : Text → List Sexp → Text → Prop where
  | nil (t : Text) : Reads t [] t
  | cons {t after rest : Text} {s : Sexp} {ss : List Sexp} (h : readOne t = .ok (s, after))
      (hs : Reads after ss rest) : Reads t (s :: ss) rest

/-- Every expression takes a character at least. -/
lemma Reads.length_le {t rest : Text} {ss : List Sexp} (h : Reads t ss rest) :
    ss.length + rest.length ≤ t.length := by
  induction h with
  | nil => exact Nat.le_of_eq (Nat.zero_add _)
  | cons hread _ ih =>
    have hlt := length_lt_of_readOne hread
    rw [List.length_cons]
    omega

/-- Reading goes on until an error ends it. -/
lemma reads_readAll (t : Text) :
    ∃ rest, Reads t (readAll t).1 rest ∧ readOne rest = .error (readAll t).2 := by
  fun_induction readAll t with
  | case1 t e h => exact ⟨t, .nil t, h⟩
  | case2 t s after h more e heq ih =>
    rw [heq] at ih
    obtain ⟨rest, hreads, herror⟩ := ih
    exact ⟨rest, .cons h hreads, herror⟩

/-- **Blanks are skipped exactly, and reading ends.** What is left of a text after its blanks is
the one rest that white space and comments precede and that begins with neither; dropping one
comment after another leads there in as many rounds as there are semicolons at most, and nothing
more is skipped a second time. An expression that is read leaves less than there was, so that
no more expressions than characters can be read one after another until an error comes. -/
theorem blanks_skipped (t : Text) :
    (∀ rest, skipBlank t = rest ↔ Leaves t rest) ∧
    (∃ n ≤ t.count ';', Rounds n t.trimStart (skipBlank t)) ∧
    skipBlank (skipBlank t) = skipBlank t ∧
    (∀ s rest, readOne t = .ok (s, rest) → rest.length < t.length) ∧
    (∃ rest, Reads t (readAll t).1 rest ∧ readOne rest = .error (readAll t).2) ∧
    ∀ ss rest, Reads t ss rest → ss.length + rest.length ≤ t.length := by
  refine ⟨fun rest => skipBlank_eq_iff, ?_, skipBlank_idem t, fun s rest => length_lt_of_readOne,
    reads_readAll t, fun ss rest => Reads.length_le⟩
  obtain ⟨n, hn, hrounds⟩ := exists_rounds (begins_trimStart t)
  rw [skipBlank_trimStart] at hrounds
  have hcount : t.trimStart.count ';' ≤ t.count ';' :=
    (List.dropWhile_suffix _).sublist.count_le ';'
  exact ⟨n, Nat.le_trans hn hcount, hrounds⟩

/-- A parenthesis in a comment is skipped, and the comment that ends the text is left. -/
theorem commented_blanks_skipped :
    readOne " ;(a\n(c);d" = .ok (.list [.atom "c"], ";d") ∧
      (";d" : Text).length < (" ;(a\n(c);d" : Text).length ∧ Leaves " ;(a\n(c);d" "(c);d" := by
  have hread : readOne " ;(a\n(c);d" = .ok (.list [.atom "c"], ";d") := by cbv
  have hskip : skipBlank " ;(a\n(c);d" = "(c);d" := by decide
  exact ⟨hread, (blanks_skipped _).2.2.2.1 _ _ hread, ((blanks_skipped _).1 _).mp hskip⟩

end Sexp

end SmtScript
