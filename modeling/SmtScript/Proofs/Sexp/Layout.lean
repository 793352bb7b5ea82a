import SmtScript.Proofs.Sexp.Lexing

/-!
Texts laid out from lexemes. Blanks may stand before each lexeme and after the last; where an
atom follows an unquoted one, some have to. The comment at the end of a text may lack the end
of its line. A text is laid out from the lexemes that are scanned from it, and from no others.
-/

namespace SmtScript.Lexeme

/-- The characters of a lexeme. -/
def text : Lexeme → Text
  | .opening => "("
  | .closing => ")"
  | .atom a => a

/-- An atom has to be plain or quoted. -/
def IsToken : Lexeme → Prop
  | .atom a => IsAtom a
  | .opening | .closing => True

/-- The lexeme is an atom that goes on to the next separator. -/
def IsUnquoted (l : Lexeme) : Prop := ∃ a, l = .atom a ∧ Unquoted a

/-- White space and comments up to the end of the text, where a comment may lack the end of
its line. -/
inductive FinalBlank : Text → Prop where
  | nil : FinalBlank []
  | unended {body : Text} (hbody : '\n' ∉ body) : FinalBlank (';' :: body)
  | space {c : Char} {b : Text} (hc : Text.isBlank c = true) (hb : FinalBlank b) :
      FinalBlank (c :: b)
  | comment {body b : Text} (hbody : '\n' ∉ body) (hb : FinalBlank b) :
      FinalBlank (';' :: (body ++ '\n' :: b))

/-- The text is the lexemes in order, each after blanks, and then more blanks. An atom after
an unquoted one has at least one blank before it. -/
inductive Layout : List Lexeme → Text → Prop where
  | nil {b : Text} (hb : FinalBlank b) : Layout [] b
  | cons {l : Lexeme} {ls : List Lexeme} {b t : Text} (hb : Blank b) (hl : l.IsToken)
      (h : Layout ls t)
      (hgap : ∀ a more, ls = .atom a :: more → l.IsUnquoted →
        ∃ b' u, Blank b' ∧ b' ≠ [] ∧ t = b' ++ u) : Layout (l :: ls) (b ++ (l.text ++ t))

/-! ### The end of a text -/

lemma FinalBlank.delimited {b : Text} (h : FinalBlank b) : Delimited b := by
  cases h with
  | nil => exact delimited_nil
  | unended | comment => exact delimited_cons (by decide)
  | space hc => exact delimited_cons (by simp [inAtom, hc])

lemma skipComment_of_not_mem {body : Text} (h : '\n' ∉ body) : skipComment body = [] := by
  induction body with
  | nil => rfl
  | cons c body ih =>
    obtain ⟨hc, hbody⟩ := List.ne_and_not_mem_of_not_mem_cons h
    rw [skipComment, if_neg hc.symm, ih hbody]

lemma FinalBlank.skipBlank {b : Text} (h : FinalBlank b) : skipBlank b = [] := by
  induction h with
  | nil => rfl
  | unended hbody => rw [Lexeme.skipBlank, if_pos rfl, skipComment_of_not_mem hbody]
  | space hc _ ih => rw [skipBlank_of_isBlank hc, ih]
  | comment hbody _ ih => rw [Lexeme.skipBlank, if_pos rfl, skipComment_append hbody, ih]

/-- Where nothing is left after the blanks, there are blanks only; from inside a comment on,
they stand after the end of its line, if it has one. -/
lemma finalBlank_of_skip (t : Text) :
    (skipBlank t = [] → FinalBlank t) ∧
      (skipComment t = [] →
        '\n' ∉ t ∨ ∃ body b, '\n' ∉ body ∧ FinalBlank b ∧ t = body ++ '\n' :: b) := by
  induction t with
  | nil => exact ⟨fun _ => .nil, fun _ => .inl List.not_mem_nil⟩
  | cons c t ih =>
    obtain ⟨ihBlank, ihComment⟩ := ih
    refine ⟨fun h => ?_, fun h => ?_⟩
    · rw [skipBlank] at h
      split_ifs at h with hsemi hblank
      · rw [hsemi]
        rcases ihComment h with hend | ⟨body, b, hbody, hb, rfl⟩
        · exact .unended hend
        · exact .comment hbody hb
      · exact .space hblank (ihBlank h)
    · rw [skipComment] at h
      split_ifs at h with hline
      · exact .inr ⟨[], t, List.not_mem_nil, ihBlank h, by rw [hline]; rfl⟩
      · rcases ihComment h with hend | ⟨body, b, hbody, hb, rfl⟩
        · exact .inl (by simp [Ne.symm hline, hend])
        · exact .inr ⟨c :: body, b, by simp [Ne.symm hline, hbody], hb, rfl⟩

/-- **Only blanks are left** exactly where skipping them leaves nothing. -/
theorem skipBlank_eq_nil_iff {t : Text} : skipBlank t = [] ↔ FinalBlank t :=
  ⟨(finalBlank_of_skip t).1, FinalBlank.skipBlank⟩

/-! ### What is laid out is scanned -/

lemma Layout.delimited {l : Lexeme} {ls : List Lexeme} {t : Text} (h : Layout ls t)
    (hgap : ∀ a more, ls = .atom a :: more → l.IsUnquoted →
      ∃ b u, Blank b ∧ b ≠ [] ∧ t = b ++ u) (hl : l.IsUnquoted) : Delimited t := by
  cases h with
  | nil hb => exact hb.delimited
  | @cons next _ _ _ hb =>
    cases next with
    | opening | closing => exact hb.delimited_append (.inr (delimited_cons (by decide)))
    | atom =>
      obtain ⟨b', u, hb', hne, heq⟩ := hgap _ _ rfl hl
      rw [heq]
      exact hb'.delimited_append (.inl hne)

lemma IsToken.next? {l : Lexeme} (hl : l.IsToken) {t : Text} (ht : l.IsUnquoted → Delimited t) :
    Lexeme.next? (l.text ++ t) = some (l, t) := by
  cases l with
  | opening => exact next?_opening t
  | closing => exact next?_closing t
  | atom a =>
    rcases hl with hunquoted | hquoted
    · exact next?_plain hunquoted.1 hunquoted.2 (ht ⟨a, rfl, hunquoted⟩)
    · exact next?_quoted hquoted t

lemma Layout.scan {ls : List Lexeme} {t : Text} (h : Layout ls t) :
    ∃ rest, Scan t ls rest ∧ skipBlank rest = [] := by
  induction h with
  | nil hb => exact ⟨_, .nil _, hb.skipBlank⟩
  | @cons l ls b t hb hl h hgap ih =>
    obtain ⟨rest, hscan, hrest⟩ := ih
    have hnext := hl.next? fun hunquoted => h.delimited hgap hunquoted
    exact ⟨rest, .cons (by rw [next?_append hb, hnext]) hscan, hrest⟩

/-! ### What is scanned is laid out -/

lemma Front.token {u r : Text} {l : Lexeme} (h : Front u l r) :
    u = l.text ++ r ∧ l.IsToken ∧ (l.IsUnquoted → Delimited r) := by
  cases h with
  | opening | closing =>
    refine ⟨rfl, trivial, ?_⟩
    rintro ⟨a, heq, -⟩
    cases heq
  | unquoted ha hr => exact ⟨rfl, .inl ha, fun _ => hr⟩
  | quoted ha =>
    refine ⟨rfl, .inr ha, ?_⟩
    rintro ⟨a', heq, hunquoted⟩
    obtain rfl := Lexeme.atom.inj heq
    exact absurd hunquoted ha.not_unquoted

/-- Before an atom a text without an atom's character has a blank. -/
lemma Layout.blank_of_delimited {a : Text} {ls : List Lexeme} {t : Text}
    (h : Layout (.atom a :: ls) t) (hd : Delimited t) :
    ∃ b u, Blank b ∧ b ≠ [] ∧ t = b ++ u := by
  cases h with
  | @cons _ _ b u hb ha =>
    refine ⟨b, _, hb, ?_, rfl⟩
    rintro rfl
    exact IsAtom.not_delimited ha u hd

lemma Scan.layout {t rest : Text} {ls : List Lexeme} (h : Scan t ls rest)
    (hrest : skipBlank rest = []) : Layout ls t := by
  induction h with
  | nil => exact .nil (skipBlank_eq_nil_iff.mp hrest)
  | cons hnext _ ih =>
    have hlayout := ih hrest
    obtain ⟨b, u, hb, rfl, hfront⟩ := next?_eq_some_iff.mp hnext
    obtain ⟨rfl, hl, hdelim⟩ := hfront.token
    refine .cons hb hl hlayout ?_
    -- without a blank the unquoted atom would go on with the atom after it
    rintro a more rfl hunquoted
    exact hlayout.blank_of_delimited (hdelim hunquoted)

/-- **A text is laid out from the lexemes that are scanned from it**, up to blanks at its
end. -/
theorem layout_iff_scan {ls : List Lexeme} {t : Text} :
    Layout ls t ↔ ∃ rest, Scan t ls rest ∧ skipBlank rest = [] :=
  ⟨Layout.scan, fun ⟨_, hscan, hrest⟩ => hscan.layout hrest⟩

lemma Scan.unique {t rest rest' : Text} {ls ms : List Lexeme} (h : Scan t ls rest)
    (h' : Scan t ms rest') (hrest : skipBlank rest = []) (hrest' : skipBlank rest' = []) :
    ls = ms := by
  induction h generalizing ms with
  | nil =>
    cases h' with
    | nil => rfl
    | cons hnext => cases hnext.symm.trans (next?_of_skipBlank hrest)
  | cons hnext _ ih =>
    cases h' with
    | nil => cases hnext.symm.trans (next?_of_skipBlank hrest')
    | cons hnext' hs' =>
      obtain ⟨rfl, rfl⟩ := Prod.mk.inj (Option.some.inj (hnext.symm.trans hnext'))
      rw [ih hs' hrest]

/-- **A text is laid out in one way only.** -/
theorem Layout.unique {ls ms : List Lexeme} {t : Text} (h : Layout ls t) (h' : Layout ms t) :
    ls = ms := by
  obtain ⟨rest, hscan, hrest⟩ := h.scan
  obtain ⟨rest', hscan', hrest'⟩ := h'.scan
  exact hscan.unique hscan' hrest hrest'

/-! ### Deciding -/

/-- What is left of a text after the lexemes, if it begins with them. -/
def restAfter? : List Lexeme → Text → Option Text
  | [], t => some t
  | l :: ls, t =>
    match next? t with
    | some (l', after) => if l = l' then restAfter? ls after else none
    | none => none

lemma restAfter?_eq_some {ls : List Lexeme} {t rest : Text} :
    restAfter? ls t = some rest ↔ Scan t ls rest := by
  induction ls generalizing t with
  | nil =>
    refine ⟨fun h => ?_, ?_⟩
    · obtain rfl := Option.some.inj h
      exact .nil t
    · rintro ⟨⟩
      rfl
  | cons l ls ih =>
    rw [restAfter?]
    refine ⟨fun h => ?_, ?_⟩
    · split at h
      · next l' after hnext =>
        split_ifs at h with heq
        subst heq
        exact .cons hnext (ih.mp h)
      · cases h
    · rintro (_ | ⟨hnext, hs⟩)
      simp only [hnext, if_true, ih.mpr hs]

instance (ls : List Lexeme) (t : Text) : Decidable (Layout ls t) :=
  decidable_of_iff ((restAfter? ls t).any (fun rest => skipBlank rest = []) = true) <| by
    simp [layout_iff_scan, restAfter?_eq_some, Option.any_eq_true]

/-- Two atoms are no longer two if the blank between them is left out. -/
example : Layout [.atom "a", .atom "|b|"] " a;\n|b|" ∧ ¬ Layout [.atom "a", .atom "|b|"] "a|b|" ∧
    Layout [.atom "|b|", .atom "a"] "|b|a; no line end" := by
  decide

end SmtScript.Lexeme
