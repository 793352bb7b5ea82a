import SmtScript.Proofs.Sexp.Layout
import SmtScript.Proofs.Sexp.Truncation

/-!
Texts that go on. An unfinished text can be completed: the comment or the quoted atom that
it stops in is ended, and then all open lists are closed. Any other error is final: whatever
follows the text, the reader stops where it stopped before, for the same reason.
-/

namespace SmtScript

namespace Lexeme

/-! ### More text after a lexeme -/

lemma skipBlank_suffix (t : Text) : skipBlank t <:+ t := by
  by_cases h : skipBlank t = []
  · rw [h]
    exact List.nil_suffix
  · obtain ⟨b, -, ht⟩ := (exists_blank t).1 h
    exact ⟨b, ht.symm⟩

/-- More text changes nothing before it, where something is left after the blanks. -/
lemma skipBlank_append_of_ne_nil {t : Text} (h : skipBlank t ≠ []) (u : Text) :
    skipBlank (t ++ u) = skipBlank t ++ u := by
  obtain ⟨b, hb, ht⟩ := (exists_blank t).1 h
  have hhead := (head_skipBlank t).1
  obtain ⟨c, w, hw⟩ := List.exists_cons_of_ne_nil h
  rw [hw] at hhead ht ⊢
  obtain ⟨hsemi, hblank⟩ := hhead c (by simp)
  rw [ht, List.append_assoc, skipBlank_append hb, List.cons_append, skipBlank, if_neg hsemi,
    hblank, if_neg Bool.false_ne_true]

lemma Delimited.append {r u : Text} (hr : Delimited r) (hu : r = [] → Delimited u) :
    Delimited (r ++ u) := by
  cases r with
  | nil => exact hu rfl
  | cons c r => exact delimited_cons (hr c rfl)

/-- An atom at the very end of a text may go on; no other lexeme does. -/
lemma Front.append {t r u : Text} {l : Lexeme} (h : Front t l r)
    (hu : ∀ a, l = .atom a → r = [] → Delimited u) : Front (t ++ u) l (r ++ u) := by
  cases h with
  | opening => exact .opening _
  | closing => exact .closing _
  | unquoted ha hr =>
    rw [List.append_assoc]
    exact .unquoted ha (hr.append (hu _ rfl))
  | quoted ha =>
    rw [List.append_assoc]
    exact .quoted ha _

lemma Front.suffix {t r : Text} {l : Lexeme} (h : Front t l r) : r <:+ t := by
  cases h with
  | opening | closing => exact List.suffix_cons _ _
  | unquoted | quoted => exact List.suffix_append _ _

lemma suffix_of_next? {t r : Text} {l : Lexeme} (h : next? t = some (l, r)) : r <:+ t :=
  (front_skipBlank h).suffix.trans (skipBlank_suffix t)

lemma skipBlank_ne_nil_of_next? {t r : Text} {l : Lexeme} (h : next? t = some (l, r)) :
    skipBlank t ≠ [] := by
  intro hnil
  rw [next?_of_skipBlank hnil] at h
  cases h

/-- **The first lexeme stays** when the text goes on, unless it is an atom that does. -/
theorem next?_append_of_eq_some {t r u : Text} {l : Lexeme} (h : next? t = some (l, r))
    (hu : ∀ a, l = .atom a → r = [] → Delimited u) : next? (t ++ u) = some (l, r ++ u) := by
  rw [← next?_skipBlank, skipBlank_append_of_ne_nil (skipBlank_ne_nil_of_next? h)]
  exact ((front_skipBlank h).append hu).next?

/-! ### Completing a lexeme -/

/-- With the end of its line, a comment at the end of a text is one like any other. -/
lemma FinalBlank.blank {b : Text} (h : FinalBlank b) : Blank (b ++ ("\n" : Text)) := by
  induction h with
  | nil => exact blank_newline
  | unended hbody => exact .comment hbody .nil
  | space hc _ ih => exact .space hc ih
  | comment hbody _ ih =>
    rw [List.cons_append, List.append_assoc, List.cons_append]
    exact .comment hbody ih

/-- Where there is no lexeme, only blanks are left or a quoted atom lacks its second bar. -/
lemma next?_eq_none {t : Text} (h : next? t = none) :
    skipBlank t = [] ∨ ∃ body, '|' ∉ body ∧ skipBlank t = '|' :: body := by
  unfold next? at h
  split at h
  · next hs => exact .inl hs
  · cases h
  · cases h
  · next body hs =>
    split at h
    · next hdrop =>
      refine .inr ⟨body, fun hmem => ?_, hs⟩
      simpa using List.dropWhile_eq_nil_iff.mp hdrop '|' hmem
    · cases h
  · cases h

/-- **A text without a lexeme can go on with an atom**, after which the rest is free. -/
lemma exists_atom_of_next?_eq_none {t : Text} (h : next? t = none) :
    ∃ u a, (t = [] → Delimited u) ∧
      ∀ v, Delimited v → next? (t ++ (u ++ v)) = some (.atom a, v) := by
  rcases next?_eq_none h with hblank | ⟨body, hbody, hbar⟩
  · -- the line may be a comment: the atom stands on the next one
    have hb : Blank (t ++ ("\n" : Text)) := (skipBlank_eq_nil_iff.mp hblank).blank
    have ha : IsAtom "a" := .inl (by decide)
    refine ⟨"\na", "a", fun _ => delimited_newline _, fun v hv => ?_⟩
    have hnext := next?_append hb (("a" : Text) ++ v)
    rw [next?_atom ha hv, List.append_assoc] at hnext
    exact hnext
  · have hne : skipBlank t ≠ [] := by simp [hbar]
    have hquoted : Quoted ('|' :: (body ++ ['|'])) := ⟨body, hbody, rfl⟩
    refine ⟨"|", '|' :: (body ++ ['|']), ?_, fun v _ => ?_⟩
    · rintro rfl
      exact absurd rfl hne
    · rw [← next?_skipBlank, skipBlank_append_of_ne_nil hne, hbar]
      have hnext := next?_quoted hquoted v
      rwa [List.cons_append, List.append_assoc] at hnext

end Lexeme

namespace Sexp

open Lexeme

/-! ### Completing an expression -/

/-- One closing parenthesis for each open list. -/
def OpenLists.closers (lists : OpenLists) : Text := List.replicate lists.length ')'

lemma OpenLists.delimited_closers (lists : OpenLists) : Delimited lists.closers := by
  cases lists with
  | nil => exact delimited_nil
  | cons => exact delimited_closing _

/-- Once an item is complete, closing all lists completes the expression. -/
lemma exists_resume_closers (s : Sexp) (lists : OpenLists) :
    ∃ r, (lists.add s).resume lists.closers = .ok r := by
  induction lists generalizing s with
  | nil => exact ⟨(s, []), rfl⟩
  | cons items outer ih =>
    obtain ⟨r, hr⟩ := ih (.list (s :: items).reverse)
    refine ⟨r, ?_⟩
    rw [OpenLists.add, resume_pending, OpenLists.closers, List.length_cons, List.replicate_succ,
      readFrom_closing (next?_closing _)]
    exact hr

/-- **An unfinished text can be completed**, whatever lists are open. -/
theorem exists_completion {lists : OpenLists} {t : Text}
    (h : readFrom lists t = .error .unexpectedEnd) :
    ∃ u, (t = [] → Delimited u) ∧ ∃ r, readFrom lists (t ++ u) = .ok r := by
  fun_induction readFrom lists t with
  | case1 lists t hnext =>
    obtain ⟨u, a, hu, hatom⟩ := exists_atom_of_next?_eq_none hnext
    obtain ⟨r, hr⟩ := exists_resume_closers (.atom a) lists
    refine ⟨u ++ lists.closers, fun ht => (hu ht).append fun _ => lists.delimited_closers, r, ?_⟩
    rw [readFrom_atom (hatom _ lists.delimited_closers), hr]
  | case2 lists t l after hnext lists' hfeed ih =>
    obtain ⟨u, hu, r, hr⟩ := ih h
    refine ⟨u, ?_, r, ?_⟩
    · rintro rfl
      cases hnext
    · have hnext' := next?_append_of_eq_some hnext fun _ _ => hu
      rw [readFrom_next hnext' (by simp [hfeed]), hfeed, resume_pending, hr]
  | case3 | case4 | case5 => cases h

/-! ### Final errors -/

/-- The error for a text that goes on: what is quoted goes on with it. -/
def ReadError.append (u : Text) : ReadError → ReadError
  | .unexpectedClose rest => .unexpectedClose (rest ++ u)
  | e => e

lemma add_ne_tooDeep (s : Sexp) (lists : OpenLists) : lists.add s ≠ .tooDeep := by
  cases lists <;> simp [OpenLists.add]

lemma eq_opening_of_tooDeep {lists : OpenLists} {l : Lexeme} (h : lists.feed l = .tooDeep) :
    l = .opening := by
  cases l with
  | opening => rfl
  | closing =>
    cases lists with
    | nil => cases h
    | cons items outer => exact absurd h (add_ne_tooDeep _ outer)
  | atom a => exact absurd h (add_ne_tooDeep _ lists)

lemma eq_closing_of_unmatched {lists : OpenLists} {l : Lexeme} (h : lists.feed l = .unmatched) :
    l = .closing := by
  cases l with
  | closing => rfl
  | opening =>
    rw [OpenLists.feed] at h
    split at h <;> cases h
  | atom a => exact absurd h (add_ne_unmatched _ lists)

lemma readFrom_unmatched {lists : OpenLists} {t rest : Text} {l : Lexeme}
    (h : next? t = some (l, rest)) (hl : lists.feed l = .unmatched) :
    readFrom lists t = .error (.unexpectedClose (skipBlank t)) := by
  rw [readFrom]
  split
  · next h' => rw [h] at h'; cases h'
  · next h' =>
    rw [h] at h'
    cases h'
    rw [hl]

/-- **No text makes up for an error** that is not the end of the text. -/
theorem readFrom_error_append {lists : OpenLists} {t : Text} {e : ReadError}
    (h : readFrom lists t = .error e) (he : e ≠ .unexpectedEnd) (u : Text) :
    readFrom lists (t ++ u) = .error (e.append u) := by
  fun_induction readFrom lists t with
  | case1 => exact absurd (Except.error.inj h).symm he
  | case2 lists t l after hnext lists' hfeed ih =>
    -- at its end the text would only be unfinished
    have hafter : after ≠ [] := by
      rintro rfl
      rw [readFrom_of_none rfl] at h
      exact he (Except.error.inj h).symm
    have hnext' : next? (t ++ u) = some (l, after ++ u) :=
      next?_append_of_eq_some hnext fun _ _ hnil => absurd hnil hafter
    rw [readFrom_next hnext' (by simp [hfeed]), hfeed, resume_pending, ih h]
  | case3 => cases h
  | case4 lists t l after hnext hfeed =>
    obtain rfl := Except.error.inj h
    obtain rfl := eq_opening_of_tooDeep hfeed
    have hnext' : next? (t ++ u) = some (.opening, after ++ u) :=
      next?_append_of_eq_some hnext fun _ ha => by cases ha
    rw [readFrom_next hnext' (by simp [hfeed]), hfeed]
    rfl
  | case5 lists t l after hnext hfeed =>
    obtain rfl := Except.error.inj h
    obtain rfl := eq_closing_of_unmatched hfeed
    have hnext' : next? (t ++ u) = some (.closing, after ++ u) :=
      next?_append_of_eq_some hnext fun _ ha => by cases ha
    rw [readFrom_unmatched hnext' hfeed,
      skipBlank_append_of_ne_nil (skipBlank_ne_nil_of_next? hnext)]
    rfl

lemma suffix_of_readFrom {lists : OpenLists} {t rest : Text} {s : Sexp}
    (h : readFrom lists t = .ok (s, rest)) : rest <:+ t := by
  fun_induction readFrom lists t with
  | case1 | case4 | case5 => cases h
  | case2 lists t l after hnext lists' _ ih => exact (ih h).trans (suffix_of_next? hnext)
  | case3 lists t l after hnext =>
    cases h
    exact suffix_of_next? hnext

lemma suffix_of_readOne {t rest : Text} {s : Sexp} (h : readOne t = .ok (s, rest)) :
    rest <:+ t :=
  suffix_of_readFrom h

/-- **The text is quoted from the closing parenthesis on** that matches no opening one. -/
theorem suffix_of_unexpectedClose {lists : OpenLists} {t rest : Text}
    (h : readFrom lists t = .error (.unexpectedClose rest)) :
    rest <:+ t ∧ rest.head? = some ')' := by
  fun_induction readFrom lists t with
  | case1 | case3 | case4 => cases h
  | case2 lists t l after hnext lists' hfeed ih =>
    obtain ⟨hsuffix, hhead⟩ := ih h
    exact ⟨hsuffix.trans (suffix_of_next? hnext), hhead⟩
  | case5 lists t l after hnext hfeed =>
    cases h
    obtain rfl := eq_closing_of_unmatched hfeed
    have hfront := front_skipBlank hnext
    refine ⟨skipBlank_suffix t, ?_⟩
    generalize skipBlank t = v at hfront
    cases hfront
    rfl

lemma ne_nil_of_pending {lists lists' : OpenLists} {l : Lexeme}
    (h : lists.feed l = .pending lists') : lists' ≠ [] := by
  have hadd {s : Sexp} {outer : OpenLists} (h : outer.add s = .pending lists') : lists' ≠ [] := by
    cases outer <;> cases h
    exact List.cons_ne_nil _ _
  cases l with
  | opening =>
    rw [OpenLists.feed] at h
    split at h <;> cases h
    exact List.cons_ne_nil _ _
  | closing =>
    cases lists with
    | nil => cases h
    | cons items outer => exact hadd h
  | atom a => exact hadd h

/-- **A closing parenthesis is unmatched only where nothing has been read yet.** -/
theorem eq_skipBlank_of_unexpectedClose {lists : OpenLists} {t rest : Text}
    (h : readFrom lists t = .error (.unexpectedClose rest)) :
    lists = [] ∧ rest = skipBlank t := by
  fun_induction readFrom lists t with
  | case1 | case3 | case4 => cases h
  | case2 lists t l after hnext lists' hfeed ih => exact absurd (ih h).1 (ne_nil_of_pending hfeed)
  | case5 lists t l after hnext hfeed =>
    obtain rfl := eq_closing_of_unmatched hfeed
    cases h
    refine ⟨?_, rfl⟩
    cases lists with
    | nil => rfl
    | cons items outer => exact absurd hfeed (add_ne_unmatched _ outer)

lemma eq_maxDepth_of_tooDeep {lists : OpenLists} {t : Text} {limit : Nat}
    (h : readFrom lists t = .error (.tooDeep limit)) : limit = maxDepth := by
  fun_induction readFrom lists t with
  | case1 | case3 | case5 => cases h
  | case2 _ _ _ _ _ _ _ ih => exact ih h
  | case4 =>
    cases h
    rfl

/-- **An error is final unless the text is unfinished.** A text ends too early exactly if no
expression can be read from it, and one can once the text goes on in some way. A closing
parenthesis that matches none, and lists that are nested too deep, are refused whatever
follows. -/
theorem readOne_errors_final (t : Text) :
    (readOne t = .error .unexpectedEnd ↔
      (∀ r, readOne t ≠ .ok r) ∧ ∃ u r, readOne (t ++ u) = .ok r) ∧
    (∀ rest, readOne t = .error (.unexpectedClose rest) →
      rest <:+ t ∧ rest.head? = some ')' ∧
        ∀ u, readOne (t ++ u) = .error (.unexpectedClose (rest ++ u))) ∧
    ∀ limit, readOne t = .error (.tooDeep limit) →
      limit = maxDepth ∧ ∀ u, readOne (t ++ u) = .error (.tooDeep maxDepth) := by
  refine ⟨⟨fun h => ?_, ?_⟩, fun rest h => ?_, fun limit h => ?_⟩
  · obtain ⟨u, -, r, hr⟩ := exists_completion h
    refine ⟨fun r' hr' => ?_, u, r, hr⟩
    rw [h] at hr'
    cases hr'
  · rintro ⟨hnot, u, ⟨s, rest⟩, hr⟩
    have hcut := readOne_truncated hr (List.prefix_append t u)
    generalize readOne t = found at hcut hnot
    cases hcut with
    | unfinished => rfl
    | after => exact absurd rfl (hnot _)
    | inside => exact absurd rfl (hnot _)
  · obtain ⟨hsuffix, hhead⟩ := suffix_of_unexpectedClose h
    exact ⟨hsuffix, hhead, readFrom_error_append h nofun⟩
  · obtain rfl := eq_maxDepth_of_tooDeep h
    exact ⟨rfl, readFrom_error_append h nofun⟩

example : readOne "(- 1 ; minus" = .error .unexpectedEnd ∧
    readOne "(- 1 ; minus\n)" = .ok (.list [.atom "-", .atom "1"], []) ∧
    readOne "; one\n) |" = .error (.unexpectedClose ") |") :=
  ⟨by cbv, by cbv, by cbv⟩

end Sexp

end SmtScript
