import SmtScript.Proofs.Sexp.Grammar

/-!
Expressions that have been read. What is read from any text is read again from its canonical
text, and so is every expression inside it. So nothing is lost where a part of a reply is
written out before it is looked at.
-/

namespace SmtScript.Sexp

open Lexeme

/-- The canonical text can be read: every atom is one lexeme, and the lists are nested within
the limit. -/
structure Canonical (s : Sexp) : Prop where
  readable : s.Readable
  depth_le : s.depth ≤ maxDepth

/-- **The canonical text is read as the expression.** -/
theorem Canonical.readExact_text {s : Sexp} (h : s.Canonical) : readExact s.text = .ok s :=
  Sexp.readExact_text h.readable h.depth_le

/-- **Canonical texts tell expressions apart.** -/
theorem Canonical.text_inj {s s' : Sexp} (h : s.Canonical) (h' : s'.Canonical) :
    s.text = s'.text ↔ s = s' := by
  refine ⟨fun htext => ?_, congrArg text⟩
  have hread := h.readExact_text
  rw [htext, h'.readExact_text] at hread
  exact (Except.ok.inj hread).symm

/-- The text begins with something. -/
lemma Canonical.exists_cons {s : Sexp} (h : s.Canonical) :
    ∃ c t, s.text = c :: t ∧ Text.isBlank c = false := by
  cases s with
  | atom a =>
    obtain ⟨c, t, ht, hc⟩ := (atoms_atom.mp h.readable).exists_cons
    refine ⟨c, t, ht, ?_⟩
    simp only [inAtom, Bool.not_eq_true', Bool.or_eq_false_iff] at hc
    exact hc.1.1.1
  | list items => exact ⟨'(', _, rfl, by decide⟩

/-- The canonical text of what a text is read as. -/
def canonicalText (t : Text) : Except ReadError Text := do
  return (← readExact t).text

lemma canonicalText_eq_ok {t w : Text} :
    canonicalText t = .ok w ↔ ∃ s, readExact t = .ok s ∧ s.text = w := by
  simp only [canonicalText, bind_eq_ok, pure_eq_ok]

/-! ### Inside an expression -/

/-- The expression is the whole of the other one, or an item of a list in it. -/
inductive Inside : Sexp → Sexp → Prop where
  | whole (s : Sexp) : Inside s s
  | item {u s : Sexp} {items : List Sexp} (h : Inside u s) (hs : s ∈ items) :
      Inside u (.list items)

lemma Canonical.item {s : Sexp} {items : List Sexp} (h : (list items).Canonical)
    (hs : s ∈ items) : s.Canonical := by
  have hdepth : itemsDepth items ≤ maxDepth := by
    have := h.depth_le
    rw [depth] at this
    omega
  exact ⟨atoms_list.mp h.readable s hs, itemsDepth_le_iff.mp hdepth s hs⟩

lemma Canonical.inside {u s : Sexp} (h : s.Canonical) (hu : u.Inside s) : u.Canonical := by
  induction hu with
  | whole => exact h
  | item _ hs ih => exact ih (h.item hs)

/-! ### What has been read -/

lemma ItemsRendering.exists_rendering {items : List Sexp} {w : Text}
    (h : ItemsRendering items w) : ∀ s ∈ items, ∃ v, s.Rendering v := by
  induction items generalizing w with
  | nil => exact nofun
  | cons s items ih =>
    cases h with
    | cons hs hitems => exact List.forall_mem_cons.mpr ⟨⟨_, hs⟩, ih hitems⟩

lemma Rendering.readable {s : Sexp} {w : Text} (h : s.Rendering w) : s.Readable := by
  induction s generalizing w with
  | atom a =>
    cases h with
    | atom _ ha => exact .atom ha
  | list items ih =>
    cases h with
    | list _ hitems =>
      refine .list fun s hs => ?_
      obtain ⟨v, hv⟩ := hitems.exists_rendering s hs
      exact ih s hs hv

/-- **What is read can be written and read again.** -/
theorem canonical_of_readOne {t rest : Text} {s : Sexp} (h : readOne t = .ok (s, rest)) :
    s.Canonical := by
  obtain ⟨hscan, hd⟩ := readOne_iff_scan.mp h
  obtain ⟨w, hw, -⟩ := s.rendersScans hscan
  exact ⟨hw.readable, hd⟩

/-- So can whatever stands inside it. -/
lemma canonical_of_inside {t rest : Text} {top s : Sexp} (h : readOne t = .ok (top, rest))
    (hs : s.Inside top) : s.Canonical :=
  (canonical_of_readOne h).inside hs

/-- **Writing again changes nothing**: canonical text is read as what it was written from. -/
theorem canonicalText_idem {t w : Text} (h : canonicalText t = .ok w) :
    canonicalText w = .ok w := by
  obtain ⟨s, hread, rfl⟩ := canonicalText_eq_ok.mp h
  obtain ⟨rest, hread, -⟩ := readExact_eq_ok.mp hread
  exact canonicalText_eq_ok.mpr ⟨s, (canonical_of_readOne hread).readExact_text, rfl⟩

end SmtScript.Sexp
