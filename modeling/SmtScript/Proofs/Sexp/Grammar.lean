import SmtScript.Proofs.Sexp.Lexing
import SmtScript.Proofs.Sexp.Reading

/-!
The grammar of S-expressions, and that the reader accepts exactly what it derives.

A rendering of an expression has blanks anywhere between its lexemes. Only where an atom
follows an unquoted one does a blank have to stand, since the two would be one atom without
it. So `(a|b c|)` is a list of two unquoted atoms, and `(|a|b)` one of a quoted and an
unquoted atom.
-/

namespace SmtScript.Sexp

open Lexeme

/-- The expression is an atom that goes on to the next separator. -/
def IsUnquoted (s : Sexp) : Prop := ∃ a, s = .atom a ∧ Unquoted a

mutual

/-- The text is blanks and then the atom of the expression or, in parentheses, renderings
of its items and more blanks. -/
inductive Rendering : Sexp → Text → Prop where
  | atom {a b : Text} (hb : Blank b) (ha : IsAtom a) : Rendering (.atom a) (b ++ a)
  | list {items : List Sexp} {b w b' : Text} (hb : Blank b) (h : ItemsRendering items w)
      (hb' : Blank b') : Rendering (.list items) (b ++ '(' :: (w ++ (b' ++ [')'])))

/-- The text is renderings of the items in order. An atom after an unquoted one has blanks
before it. -/
inductive ItemsRendering : List Sexp → Text → Prop where
  | nil : ItemsRendering [] []
  | cons {s : Sexp} {items : List Sexp} {w v : Text} (h : Rendering s w)
      (hs : ItemsRendering items v)
      (hgap : ∀ a more, items = .atom a :: more → s.IsUnquoted →
        ∃ b u, Blank b ∧ b ≠ [] ∧ v = b ++ u) : ItemsRendering (s :: items) (w ++ v)

end

/-! ### Renderings are scanned -/

/-- What is to be shown of an expression: its renderings scan to its lexemes. -/
def ScansRenderings (s : Sexp) : Prop :=
  ∀ {w r : Text}, s.Rendering w → (s.IsUnquoted → Delimited r) → Scan (w ++ r) s.lexemes r

/-- The next item does not run into an unquoted atom. -/
lemma ItemsRendering.delimited {s : Sexp} {items : List Sexp} {v r : Text}
    (h : ItemsRendering items v)
    (hgap : ∀ a more, items = .atom a :: more → s.IsUnquoted →
      ∃ b u, Blank b ∧ b ≠ [] ∧ v = b ++ u) (hs : s.IsUnquoted) (hr : Delimited r) :
    Delimited (v ++ r) := by
  cases h with
  | nil => exact hr
  | cons hnext =>
    cases hnext with
    | atom =>
      obtain ⟨b, u, hb, hne, heq⟩ := hgap _ _ rfl hs
      rw [heq, List.append_assoc]
      exact hb.delimited_append (.inl hne)
    | list hb =>
      simp only [List.append_assoc, List.cons_append]
      exact hb.delimited_append (.inr (delimited_cons (by decide)))

lemma ItemsRendering.scan {items : List Sexp} (hitems : ∀ s ∈ items, s.ScansRenderings)
    {w r : Text} (h : ItemsRendering items w) (hr : Delimited r) :
    Scan (w ++ r) (itemsLexemes items) r := by
  induction items generalizing w with
  | nil =>
    cases h
    exact .nil r
  | cons s items ih =>
    obtain ⟨hfirst, hrest⟩ := List.forall_mem_cons.mp hitems
    cases h with
    | @cons _ _ w v hs hv hgap =>
      rw [List.append_assoc]
      exact .append (hfirst hs fun hplain => hv.delimited hgap hplain hr) (ih hrest hv)

theorem scansRenderings (s : Sexp) : s.ScansRenderings := by
  induction s with
  | atom a =>
    intro w r h hr
    cases h with
    | @atom _ b hb ha =>
      rw [List.append_assoc]
      refine .blank hb (lexemes_ne_nil _) (.single ?_)
      rcases ha with hunquoted | hquoted
      · exact next?_plain hunquoted.1 hunquoted.2 (hr ⟨a, rfl, hunquoted⟩)
      · exact next?_quoted hquoted r
  | list items ih =>
    intro w r h _
    cases h with
    | @list _ b v b' hb hv hb' =>
      have hclose : Scan (b' ++ ')' :: r) [.closing] r :=
        .blank hb' (by simp) (.single (next?_closing r))
      have hitems := hv.scan ih (hb'.delimited_append (.inr (delimited_closing r)))
      have hlist : Scan ('(' :: (v ++ (b' ++ ')' :: r))) (list items).lexemes r :=
        .cons (next?_opening _) (hitems.append hclose)
      simpa using Scan.blank hb (lexemes_ne_nil _) hlist

/-! ### What is scanned is a rendering -/

/-- What is to be shown of an expression: a text that scans to its lexemes begins with a
rendering of it, and an unquoted atom ends there. -/
def RendersScans (s : Sexp) : Prop :=
  ∀ {t r : Text}, Scan t s.lexemes r →
    ∃ w, s.Rendering w ∧ t = w ++ r ∧ (s.IsUnquoted → Delimited r)

lemma Rendering.blank_of_delimited {a w r : Text} (h : Rendering (.atom a) w)
    (hd : Delimited (w ++ r)) : ∃ b u, Blank b ∧ b ≠ [] ∧ w = b ++ u := by
  cases h with
  | @atom _ b hb ha =>
    refine ⟨b, a, hb, ?_, rfl⟩
    rintro rfl
    exact ha.not_delimited r hd

lemma exists_itemsRendering {items : List Sexp} (hitems : ∀ s ∈ items, s.RendersScans)
    {t r : Text} (h : Scan t (itemsLexemes items) r) :
    ∃ w, ItemsRendering items w ∧ t = w ++ r := by
  induction items generalizing t with
  | nil =>
    cases h
    exact ⟨[], .nil, rfl⟩
  | cons s items ih =>
    obtain ⟨hfirst, hrest⟩ := List.forall_mem_cons.mp hitems
    obtain ⟨after, hscan, hscans⟩ := Scan.split h
    obtain ⟨w, hw, rfl, hplain⟩ := hfirst hscan
    obtain ⟨v, hv, rfl⟩ := ih hrest hscans
    refine ⟨w ++ v, .cons hw hv ?_, (List.append_assoc w v r).symm⟩
    -- without a blank the unquoted atom would go on with the atom after it
    rintro a more rfl hs
    cases hv with
    | @cons _ _ v v' hatom =>
      have hd := hplain hs
      rw [List.append_assoc] at hd
      obtain ⟨b, u, hb, hne, rfl⟩ := hatom.blank_of_delimited hd
      exact ⟨b, u ++ v', hb, hne, List.append_assoc b u v'⟩

theorem rendersScans (s : Sexp) : s.RendersScans := by
  induction s with
  | atom a =>
    intro t r h
    obtain _ | ⟨hnext, ⟨⟩⟩ := h
    obtain ⟨b, u, hb, rfl, hfront⟩ := next?_eq_some_iff.mp hnext
    cases hfront with
    | unquoted ha hr =>
      exact ⟨b ++ a, .atom hb (.inl ha), (List.append_assoc b a r).symm, fun _ => hr⟩
    | quoted ha =>
      refine ⟨b ++ a, .atom hb (.inr ha), (List.append_assoc b a r).symm, ?_⟩
      rintro ⟨a', heq, hunquoted⟩
      obtain rfl := Sexp.atom.inj heq
      exact absurd hunquoted ha.not_unquoted
  | list items ih =>
    intro t r h
    obtain _ | ⟨hopen, h⟩ := h
    obtain ⟨after, hscan, hclose⟩ := Scan.split h
    obtain _ | ⟨hclose, ⟨⟩⟩ := hclose
    obtain ⟨b, u, hb, rfl, hfront⟩ := next?_eq_some_iff.mp hopen
    cases hfront
    obtain ⟨w, hw, rfl⟩ := exists_itemsRendering ih hscan
    obtain ⟨b', u', hb', rfl, hfront⟩ := next?_eq_some_iff.mp hclose
    cases hfront
    refine ⟨_, .list hb hw hb', by simp, ?_⟩
    rintro ⟨a, heq, -⟩
    cases heq

/-- **The reader accepts exactly its grammar.** It reads an expression and leaves a rest if
the text is a rendering of the expression and then the rest, the lists in it are nested
within the limit, and an unquoted atom ends where the rest begins. -/
theorem readOne_eq_ok_iff {t r : Text} {s : Sexp} :
    readOne t = .ok (s, r) ↔
      ∃ w, s.Rendering w ∧ t = w ++ r ∧ s.depth ≤ maxDepth ∧ (s.IsUnquoted → Delimited r) := by
  rw [readOne_iff_scan]
  refine ⟨?_, ?_⟩
  · rintro ⟨hscan, hd⟩
    obtain ⟨w, hw, ht, hplain⟩ := s.rendersScans hscan
    exact ⟨w, hw, ht, hd, hplain⟩
  · rintro ⟨w, hw, rfl, hd, hplain⟩
    exact ⟨s.scansRenderings hw hplain, hd⟩

example : readOne "(a|b c|) (|a|b)" = .ok (.list [.atom "a|b", .atom "c|"], " (|a|b)") ∧
    readOne " (|a|b)" = .ok (.list [.atom "|a|", .atom "b"], []) :=
  ⟨by cbv, by cbv⟩

end SmtScript.Sexp
