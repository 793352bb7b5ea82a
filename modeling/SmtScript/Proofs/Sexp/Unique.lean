import SmtScript.Proofs.Sexp.Scan

/-!
Canonical texts can be read in one way only. An expression of plain atoms is told from the
front of a text, provided that what follows cannot belong to its last atom; neither the
depth limit of a reader nor its treatment of bars matters here.
-/

namespace SmtScript.Sexp

open Lexeme

/-- A plain atom is told from the front of a text. -/
lemma plain_append_inj {a a' r r' : Text} (ha : Plain a) (ha' : Plain a') (hr : Delimited r)
    (hr' : Delimited r') (h : a ++ r = a' ++ r') : a = a' ∧ r = r' := by
  have htake := congrArg (List.takeWhile inAtom) h
  rw [takeWhile_append_delimited ha.2 hr, takeWhile_append_delimited ha'.2 hr'] at htake
  subst htake
  exact ⟨rfl, List.append_cancel_left h⟩

lemma plain_append_ne {a : Text} (ha : Plain a) {c : Char} (hc : inAtom c = false)
    (r t : Text) : a ++ r ≠ c :: t := by
  obtain ⟨d, a, rfl⟩ := List.exists_cons_of_ne_nil ha.1
  intro h
  rw [← (List.cons.inj h).1, ha.2 d (by simp)] at hc
  cases hc

/-- A text begins with an atom or an opening parenthesis. -/
lemma text_append_ne {s : Sexp} (hs : s.Atoms Plain) (r t : Text) : s.text ++ r ≠ ')' :: t := by
  cases s with
  | atom a => exact plain_append_ne (atoms_atom.mp hs) (by decide) r t
  | list items =>
    rw [text_list]
    exact fun h => absurd (List.cons.inj h).1 (by decide)

/-- The texts of the items, each after a space. -/
def itemsAfter (items : List Sexp) : Text := (items.map text).flatMap ((" " : Text) ++ ·)

lemma itemsAfter_cons (s : Sexp) (items : List Sexp) (t : Text) :
    itemsAfter (s :: items) ++ t = ' ' :: (s.text ++ (itemsAfter items ++ t)) := by
  simp [itemsAfter]

lemma text_list_cons (s : Sexp) (items : List Sexp) (t : Text) :
    (list (s :: items)).text ++ t = '(' :: (s.text ++ (itemsAfter items ++ ')' :: t)) := by
  rw [text_list, List.map_cons, Text.joined_cons, itemsAfter]
  simp

lemma delimited_itemsAfter (items : List Sexp) (t : Text) :
    Delimited (itemsAfter items ++ ')' :: t) := by
  cases items with
  | nil => exact delimited_closing t
  | cons s items =>
    rw [itemsAfter_cons]
    exact delimited_space _

/-- Lists with one text have one text of their items. -/
lemma itemsAfter_eq {items items' : List Sexp} (hs : ∀ s ∈ items, s.Atoms Plain)
    (hs' : ∀ s ∈ items', s.Atoms Plain) {r r' : Text}
    (h : (list items).text ++ r = (list items').text ++ r') :
    itemsAfter items ++ ')' :: r = itemsAfter items' ++ ')' :: r' := by
  cases items with
  | nil =>
    cases items' with
    | nil => exact (List.cons.inj h).2
    | cons s' items' =>
      rw [text_list_cons] at h
      exact absurd (List.cons.inj h).2.symm (text_append_ne (hs' s' (by simp)) _ _)
  | cons s items =>
    rw [text_list_cons] at h
    cases items' with
    | nil => exact absurd (List.cons.inj h).2 (text_append_ne (hs s (by simp)) _ _)
    | cons s' items' =>
      rw [text_list_cons] at h
      rw [itemsAfter_cons, itemsAfter_cons, (List.cons.inj h).2]

/-- What is to be shown of an expression: it is told from the front of a text. -/
def FrontDetermined (s : Sexp) : Prop :=
  s.Atoms Plain → ∀ {s' : Sexp} {r r' : Text}, s'.Atoms Plain → Delimited r → Delimited r' →
    s.text ++ r = s'.text ++ r' → s = s' ∧ r = r'

lemma itemsAfter_inj {items items' : List Sexp} (hitems : ∀ s ∈ items, s.FrontDetermined)
    (hs : ∀ s ∈ items, s.Atoms Plain) (hs' : ∀ s ∈ items', s.Atoms Plain) {r r' : Text}
    (h : itemsAfter items ++ ')' :: r = itemsAfter items' ++ ')' :: r') :
    items = items' ∧ r = r' := by
  induction items generalizing items' with
  | nil =>
    cases items' with
    | nil => exact ⟨rfl, (List.cons.inj h).2⟩
    | cons s' items' =>
      rw [itemsAfter_cons] at h
      exact absurd (List.cons.inj h).1 (by decide)
  | cons s items ih =>
    rw [itemsAfter_cons] at h
    cases items' with
    | nil => exact absurd (List.cons.inj h).1 (by decide)
    | cons s' items' =>
      rw [itemsAfter_cons] at h
      obtain ⟨hfirst, hitems⟩ := List.forall_mem_cons.mp hitems
      obtain ⟨hplain, hplains⟩ := List.forall_mem_cons.mp hs
      obtain ⟨hplain', hplains'⟩ := List.forall_mem_cons.mp hs'
      obtain ⟨rfl, hrest⟩ := hfirst hplain hplain' (delimited_itemsAfter items r)
        (delimited_itemsAfter items' r') (List.cons.inj h).2
      obtain ⟨rfl, rfl⟩ := ih hitems hplains hplains' hrest
      exact ⟨rfl, rfl⟩

/-- **An expression of plain atoms is told from the front of a text.** -/
theorem frontDetermined (s : Sexp) : s.FrontDetermined := by
  induction s with
  | atom a =>
    intro hs s' r r' hs' hr hr' h
    have ha := atoms_atom.mp hs
    cases s' with
    | atom a' =>
      obtain ⟨rfl, rfl⟩ := plain_append_inj ha (atoms_atom.mp hs') hr hr' h
      exact ⟨rfl, rfl⟩
    | list items' =>
      rw [text_list] at h
      exact absurd h (plain_append_ne ha (by decide) _ _)
  | list items ih =>
    intro hs s' r r' hs' hr hr' h
    cases s' with
    | atom a' =>
      rw [text_list] at h
      exact absurd h.symm (plain_append_ne (atoms_atom.mp hs') (by decide) _ _)
    | list items' =>
      have hitems := atoms_list.mp hs
      have hitems' := atoms_list.mp hs'
      obtain ⟨rfl, rfl⟩ := itemsAfter_inj ih hitems hitems' (itemsAfter_eq hitems hitems' h)
      exact ⟨rfl, rfl⟩

end SmtScript.Sexp
