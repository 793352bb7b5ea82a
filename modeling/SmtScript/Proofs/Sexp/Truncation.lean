import SmtScript.Proofs.Sexp.Lexing
import SmtScript.Proofs.Sexp.Reading

/-!
Texts that are cut short. What a reader makes of the beginning of a text differs in three
ways at most from what it makes of the whole: there may be less left after the expression,
the expression may be unfinished, or the expression is an unquoted atom and is cut itself.
-/

namespace SmtScript

namespace Lexeme

/-! ### Blanks -/

/-- What is left after the blanks of a beginning is a beginning of what is left. -/
lemma skipBlank_truncated {p t : Text} (h : p <+: t) :
    skipBlank p <+: skipBlank t ∧ skipComment p <+: skipComment t := by
  induction t generalizing p with
  | nil =>
    obtain rfl := List.prefix_nil.mp h
    exact ⟨List.prefix_rfl, List.prefix_rfl⟩
  | cons c t ih =>
    cases p with
    | nil => exact ⟨List.nil_prefix, List.nil_prefix⟩
    | cons d p =>
      obtain ⟨rfl, hp⟩ := List.cons_prefix_cons.mp h
      obtain ⟨hblank, hcomment⟩ := ih hp
      simp only [skipBlank, skipComment]
      refine ⟨?_, ?_⟩
      · split_ifs
        · exact hcomment
        · exact hblank
        · exact h
      · split_ifs
        · exact hblank
        · exact hcomment

/-- Nothing is left of a beginning of blanks. -/
lemma skipBlank_eq_nil_truncated {p t : Text} (h : p <+: t) (ht : skipBlank t = []) :
    skipBlank p = [] := by
  have hp := (skipBlank_truncated h).1
  rwa [ht, List.prefix_nil] at hp

lemma next?_skipBlank (t : Text) : next? (skipBlank t) = next? t := by
  by_cases hnil : skipBlank t = []
  · simp [next?, hnil, skipBlank]
  · obtain ⟨b, hb, ht⟩ := (exists_blank t).1 hnil
    conv_rhs => rw [ht, next?_append hb]

/-! ### The first lexeme -/

/-- What is found at the front of a text that is cut short, where the whole text begins with
the lexeme and then the rest. -/
inductive Truncated (l : Lexeme) (rest : Text) : Option (Lexeme × Text) → Prop where
  /-- The cut is after the lexeme. -/
  | after {left : Text} (h : left <+: rest) : Truncated l rest (some (l, left))
  /-- Nothing that is before the cut is a lexeme. -/
  | missing : Truncated l rest none
  /-- The cut is inside an atom, and what is before it is an atom too. -/
  | inside {a cut : Text} (hl : l = .atom a) (h : cut <+: a) (hne : cut ≠ a) :
      Truncated l rest (some (.atom cut, []))

lemma Unquoted.truncated {a v : Text} (ha : Unquoted a) (hv : v <+: a) (hne : v ≠ []) :
    Unquoted v := by
  obtain ⟨⟨-, hin⟩, hbar⟩ := ha
  refine ⟨⟨hne, fun c hc => hin c (hv.subset hc)⟩, ?_⟩
  obtain ⟨w, rfl⟩ := hv
  rwa [List.head?_append_of_ne_nil v hne] at hbar

lemma Delimited.truncated {r w : Text} (hr : Delimited r) (hw : w <+: r) : Delimited w := by
  cases w with
  | nil => exact delimited_nil
  | cons c w =>
    obtain ⟨u, rfl⟩ := hw
    exact delimited_cons (hr c rfl)

/-- A quoted atom without its second bar is no lexeme. -/
lemma Quoted.next?_truncated {a v : Text} (ha : Quoted a) (hv : v <+: a) (hne : v ≠ a) :
    next? v = none := by
  obtain ⟨body, hbody, rfl⟩ := ha
  cases v with
  | nil => rfl
  | cons c w =>
    obtain ⟨rfl, hw⟩ := List.cons_prefix_cons.mp hv
    have hw : w <+: body := (List.prefix_concat_iff.mp hw).resolve_left fun h => hne (by rw [h])
    have hdrop : w.dropWhile (· != '|') = [] := by
      rw [List.dropWhile_eq_nil_iff]
      intro c hc
      rw [bne_iff_ne]
      rintro rfl
      exact hbody (hw.subset hc)
    unfold next?
    rw [skipBlank_of_inAtom (by decide)]
    simp only [hdrop]

/-- A cut is inside the first of two texts, or after it. -/
lemma inside_or_after {v a r : Text} (hv : v <+: a ++ r) :
    (v <+: a ∧ v ≠ a) ∨ ∃ w, w <+: r ∧ v = a ++ w := by
  rcases List.prefix_or_prefix_of_prefix hv (List.prefix_append a r) with hva | ⟨w, rfl⟩
  · by_cases heq : v = a
    · exact .inr ⟨[], List.nil_prefix, by simp [heq]⟩
    · exact .inl ⟨hva, heq⟩
  · exact .inr ⟨w, (List.prefix_append_right_inj a).mp hv, rfl⟩

lemma Front.truncated {u v rest : Text} {l : Lexeme} (h : Front u l rest) (hv : v <+: u) :
    Truncated l rest (Lexeme.next? v) := by
  cases h with
  | opening =>
    rcases List.prefix_cons_iff.mp hv with rfl | ⟨w, rfl, hw⟩
    · exact .missing
    · exact .after hw
  | closing =>
    rcases List.prefix_cons_iff.mp hv with rfl | ⟨w, rfl, hw⟩
    · exact .missing
    · exact .after hw
  | @unquoted a _ ha hr =>
    rcases inside_or_after hv with ⟨hva, hne⟩ | ⟨w, hw, rfl⟩
    · by_cases hnil : v = []
      · rw [hnil]
        exact .missing
      · have hv := ha.truncated hva hnil
        have hnext := next?_plain hv.1 hv.2 delimited_nil
        rw [List.append_nil] at hnext
        rw [hnext]
        exact .inside rfl hva hne
    · rw [next?_plain ha.1 ha.2 (hr.truncated hw)]
      exact .after hw
  | @quoted a ha =>
    rcases inside_or_after hv with ⟨hva, hne⟩ | ⟨w, hw, rfl⟩
    · rw [ha.next?_truncated hva hne]
      exact .missing
    · rw [next?_quoted ha]
      exact .after hw

/-- **The first lexeme of a text cut short** is that of the whole text, unless the cut is
before its end. -/
theorem next?_truncated {t p rest : Text} {l : Lexeme} (h : next? t = some (l, rest))
    (hp : p <+: t) : Truncated l rest (next? p) := by
  rw [← next?_skipBlank p]
  exact (front_skipBlank h).truncated (skipBlank_truncated hp).1

end Lexeme

namespace Sexp

open Lexeme

/-! ### Expressions -/

/-- What is read from a text that is cut short, where an expression and then the rest are
read from the whole text. -/
inductive Truncated (s : Sexp) (rest : Text) : Except ReadError (Sexp × Text) → Prop where
  /-- The cut is after the expression. -/
  | after {left : Text} (h : left <+: rest) : Truncated s rest (.ok (s, left))
  /-- The expression does not end before the cut. -/
  | unfinished : Truncated s rest (.error .unexpectedEnd)
  /-- The cut is inside an atom, and what is before it is an atom too. -/
  | inside {a cut : Text} (hs : s = .atom a) (h : cut <+: a) (hne : cut ≠ a) :
      Truncated s rest (.ok (.atom cut, []))

/-- **Cut short, a text gives the same expression**, or none, or an atom cut short. The
lists open at the cut are those open there in the whole text. -/
theorem readFrom_truncated {lists : OpenLists} {t p rest : Text} {s : Sexp}
    (h : readFrom lists t = .ok (s, rest)) (hp : p <+: t) :
    Truncated s rest (readFrom lists p) := by
  fun_induction readFrom lists t generalizing p with
  | case1 | case4 | case5 => cases h
  | case2 lists t l after hnext lists' hfeed ih =>
    have hfront := next?_truncated hnext hp
    generalize hp' : next? p = found at hfront
    cases hfront with
    | after hleft =>
      rw [readFrom_next hp' (by simp [hfeed]), hfeed, resume_pending]
      exact ih h hleft
    | missing =>
      rw [readFrom_of_none hp']
      exact .unfinished
    | inside hl =>
      -- an atom leaves a list pending only if one is open, and then a cut atom does so too
      subst hl
      cases lists with
      | nil => cases hfeed
      | cons items outer =>
        rw [readFrom_atom hp', OpenLists.add, resume_pending, readFrom_of_none rfl]
        exact .unfinished
  | case3 lists t l after hnext s' hfeed =>
    cases h
    have hfront := next?_truncated hnext hp
    generalize hp' : next? p = found at hfront
    cases hfront with
    | after hleft =>
      rw [readFrom_next hp' (by simp [hfeed]), hfeed, resume_complete]
      exact .after hleft
    | missing =>
      rw [readFrom_of_none hp']
      exact .unfinished
    | inside hl hcut hne =>
      subst hl
      cases lists with
      | nil =>
        cases hfeed
        rw [readFrom_atom hp', OpenLists.add, resume_complete]
        exact .inside rfl hcut hne
      | cons => cases hfeed

theorem readOne_truncated {t p rest : Text} {s : Sexp} (h : readOne t = .ok (s, rest))
    (hp : p <+: t) : Truncated s rest (readOne p) :=
  readFrom_truncated h hp

end Sexp

end SmtScript
