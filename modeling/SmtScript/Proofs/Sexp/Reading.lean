import SmtScript.Proofs.Except
import SmtScript.Proofs.Sexp.Scan
import SmtScript.Sexp.Reader

/-!
Reading what has been written: a reader that is given the lexemes of an expression builds
that expression and stops after them, wherever the depth limit allows it. It builds nothing
else: its open lists always account for the lexemes that it has taken.
-/

namespace SmtScript.Sexp

open Lexeme

/-- How a reader goes on after a lexeme that left the given knowledge. -/
def Progress.resume (rest : Text) : Progress → Except ReadError (Sexp × Text)
  | .pending lists => readFrom lists rest
  | .complete s => .ok (s, rest)
  | .tooDeep => .error (.tooDeep maxDepth)
  | .unmatched => .error (.unexpectedClose rest)

@[simp] lemma resume_pending (lists : OpenLists) (rest : Text) :
    (Progress.pending lists).resume rest = readFrom lists rest := rfl

@[simp] lemma resume_complete (s : Sexp) (rest : Text) :
    (Progress.complete s).resume rest = .ok (s, rest) := rfl

/-- The reader takes the next lexeme. -/
lemma readFrom_next {lists : OpenLists} {t rest : Text} {l : Lexeme}
    (h : next? t = some (l, rest)) (hl : lists.feed l ≠ .unmatched) :
    readFrom lists t = (lists.feed l).resume rest := by
  rw [readFrom]
  split
  · next h' => rw [h] at h'; cases h'
  · next h' =>
    rw [h] at h'
    cases h'
    split
    · next hfeed => rw [hfeed, resume_pending]
    · next hfeed => rw [hfeed, resume_complete]
    · next hfeed => rw [hfeed]; rfl
    · next hfeed => exact absurd hfeed hl

lemma readFrom_of_none {lists : OpenLists} {t : Text} (h : next? t = none) :
    readFrom lists t = .error .unexpectedEnd := by
  rw [readFrom]
  split
  · rfl
  · next h' => rw [h] at h'; cases h'

lemma readFrom_opening {lists : OpenLists} {t rest : Text} (h : next? t = some (.opening, rest))
    (hd : lists.length < maxDepth) : readFrom lists t = readFrom ([] :: lists) rest := by
  have hfeed : lists.feed .opening = .pending ([] :: lists) := if_neg (by omega)
  rw [readFrom_next h (by simp [hfeed]), hfeed, resume_pending]

lemma add_ne_unmatched (s : Sexp) (lists : OpenLists) : lists.add s ≠ .unmatched := by
  cases lists <;> simp [OpenLists.add]

lemma readFrom_closing {items : List Sexp} {lists : OpenLists} {t rest : Text}
    (h : next? t = some (.closing, rest)) :
    readFrom (items :: lists) t = (lists.add (.list items.reverse)).resume rest :=
  readFrom_next h (add_ne_unmatched _ _)

lemma readFrom_atom {lists : OpenLists} {a t rest : Text}
    (h : next? t = some (.atom a, rest)) :
    readFrom lists t = (lists.add (.atom a)).resume rest :=
  readFrom_next h (add_ne_unmatched _ _)

/-- What the reader does with the lexemes of an expression. -/
def Rebuilds (s : Sexp) : Prop :=
  ∀ (lists : OpenLists) (t rest : Text), Scan t s.lexemes rest →
    lists.length + s.depth ≤ maxDepth → readFrom lists t = (lists.add s).resume rest

/-- The items of a list are collected one after another. -/
lemma readFrom_items {items : List Sexp} (hs : ∀ s ∈ items, s.Rebuilds) (before : List Sexp)
    {lists : OpenLists} {t rest : Text} (h : Scan t (itemsLexemes items) rest)
    (hd : lists.length + itemsDepth items < maxDepth) :
    readFrom (before :: lists) t = readFrom ((items.reverse ++ before) :: lists) rest := by
  induction items generalizing before t with
  | nil =>
    cases h
    rfl
  | cons s items ih =>
    rw [itemsDepth] at hd
    obtain ⟨after, hfirst, hrest⟩ := Scan.split h
    obtain ⟨hs, hitems⟩ := List.forall_mem_cons.mp hs
    have hread := hs (before :: lists) t after hfirst (by rw [List.length_cons]; omega)
    rw [hread, OpenLists.add, resume_pending, ih hitems (s :: before) hrest (by omega)]
    simp

/-- **The lexemes of an expression rebuild it.** -/
theorem rebuilds (s : Sexp) : s.Rebuilds := by
  induction s with
  | atom a =>
    intro lists t rest h _
    obtain _ | ⟨hn, ⟨⟩⟩ := h
    exact readFrom_atom hn
  | list items ih =>
    intro lists t rest h hd
    rw [depth] at hd
    obtain _ | ⟨hopen, h⟩ := h
    obtain ⟨after, hitems, hclose⟩ := Scan.split h
    obtain _ | ⟨hclose, ⟨⟩⟩ := hclose
    rw [readFrom_opening hopen (by omega), readFrom_items ih [] hitems (by omega),
      readFrom_closing hclose]
    simp

/-- An expression whose lexemes are scanned is read. -/
theorem readOne_of_scan {s : Sexp} {t rest : Text} (h : Scan t s.lexemes rest)
    (hd : s.depth ≤ maxDepth) : readOne t = .ok (s, rest) := by
  rw [readOne, rebuilds s [] t rest h (by simpa using hd)]
  rfl

/-- **The canonical text is read back**, up to a place where an atom ends. -/
theorem readOne_text {s : Sexp} (hs : s.Readable) (hd : s.depth ≤ maxDepth) {rest : Text}
    (hr : Delimited rest) : readOne (s.text ++ rest) = .ok (s, rest) :=
  readOne_of_scan (scan_text hs hr) hd

/-- A text is one expression if nothing but blanks is left after the first. -/
lemma readExact_eq_ok {t : Text} {s : Sexp} :
    readExact t = .ok s ↔ ∃ rest, readOne t = .ok (s, rest) ∧ skipBlank rest = [] := by
  unfold readExact
  rw [bind_eq_ok]
  refine ⟨?_, ?_⟩
  · rintro ⟨⟨s', rest⟩, hread, hrest⟩
    dsimp only at hrest
    split at hrest
    · next hblank =>
      obtain rfl := pure_eq_ok.mp hrest
      exact ⟨rest, hread, hblank⟩
    · cases hrest
    · cases hrest
  · rintro ⟨rest, hread, hblank⟩
    refine ⟨(s, rest), hread, ?_⟩
    dsimp only
    rw [hblank]
    rfl

theorem readExact_text {s : Sexp} (hs : s.Readable) (hd : s.depth ≤ maxDepth) :
    readExact s.text = .ok s := by
  have h := readOne_text hs hd delimited_nil
  rw [List.append_nil] at h
  exact readExact_eq_ok.mpr ⟨[], h, rfl⟩

/-- A reader does not notice blanks before the expression. -/
lemma readOne_append {b t : Text} (hb : Blank b) : readOne (b ++ t) = readOne t := by
  unfold readOne
  rw [readFrom, readFrom, next?_append hb, skipBlank_append hb]

/-- Nothing is read from a text of blanks. -/
lemma readOne_of_skipBlank {t : Text} (h : skipBlank t = []) :
    readOne t = .error .unexpectedEnd :=
  readFrom_of_none (next?_of_skipBlank h)

/-! ### What has been taken -/

lemma itemsLexemes_append (items items' : List Sexp) :
    itemsLexemes (items ++ items') = itemsLexemes items ++ itemsLexemes items' := by
  induction items with
  | nil => rfl
  | cons s items ih => simp [itemsLexemes, ih]

lemma itemsDepth_append (items items' : List Sexp) :
    itemsDepth (items ++ items') = max (itemsDepth items) (itemsDepth items') := by
  induction items with
  | nil => simp [itemsDepth]
  | cons s items ih => simp [itemsDepth, ih, Nat.max_assoc]

/-- The lexemes that led to the open lists. -/
def OpenLists.lexemes : OpenLists → List Lexeme
  | [] => []
  | items :: outer => OpenLists.lexemes outer ++ .opening :: itemsLexemes items.reverse

/-- Each of the open lists, if it ended here, would be within the depth limit. -/
def OpenLists.Shallow : OpenLists → Prop
  | [] => True
  | items :: outer =>
    outer.length + (Sexp.list items.reverse).depth ≤ maxDepth ∧ OpenLists.Shallow outer

lemma OpenLists.Shallow.length_le {lists : OpenLists} (h : lists.Shallow) :
    lists.length ≤ maxDepth := by
  cases lists with
  | nil => exact Nat.zero_le _
  | cons items outer =>
    have := h.1
    rw [depth] at this
    rw [List.length_cons]
    omega

/-- What the reader knows accounts for the lexemes that it has taken. -/
def Progress.Explains (taken : List Lexeme) : Progress → Prop
  | .pending lists => lists.lexemes = taken ∧ lists.Shallow
  | .complete s => s.lexemes = taken ∧ s.depth ≤ maxDepth
  | .tooDeep | .unmatched => True

lemma explains_add {s : Sexp} {lists : OpenLists} (h : lists.Shallow)
    (hd : lists.length + s.depth ≤ maxDepth) :
    (lists.add s).Explains (lists.lexemes ++ s.lexemes) := by
  cases lists with
  | nil => exact ⟨rfl, by simpa using hd⟩
  | cons items outer =>
    obtain ⟨hitems, houter⟩ := h
    refine ⟨?_, ?_, houter⟩
    · simp [OpenLists.lexemes, itemsLexemes_append, itemsLexemes]
    · rw [List.length_cons] at hd
      rw [depth] at hitems ⊢
      simp only [List.reverse_cons, itemsDepth_append, itemsDepth, Nat.max_zero]
      omega

/-- **One step**: the next lexeme is accounted for. -/
lemma explains_feed {lists : OpenLists} (h : lists.Shallow) (l : Lexeme) :
    (lists.feed l).Explains (lists.lexemes ++ [l]) := by
  cases l with
  | opening =>
    have hle := h.length_le
    rw [OpenLists.feed]
    split
    · trivial
    · next hne => exact ⟨rfl, by simp only [List.reverse_nil, depth, itemsDepth]; omega, h⟩
  | closing =>
    cases lists with
    | nil => trivial
    | cons items outer =>
      have hadd := explains_add h.2 h.1
      simpa [OpenLists.feed, OpenLists.lexemes, Sexp.lexemes] using hadd
  | atom a => exact explains_add h (by simpa [depth] using h.length_le)

/-- **A whole reading**: the lexemes from the open lists on make up the expression. -/
theorem scan_of_readFrom {lists : OpenLists} {t rest : Text} {s : Sexp} (h : lists.Shallow)
    (hread : readFrom lists t = .ok (s, rest)) :
    ∃ ls, Scan t ls rest ∧ s.lexemes = lists.lexemes ++ ls ∧ s.depth ≤ maxDepth := by
  fun_induction readFrom lists t with
  | case1 | case4 | case5 => cases hread
  | case2 lists t l after hnext lists' hfeed ih =>
    have hstep := explains_feed h l
    rw [hfeed] at hstep
    obtain ⟨hlexemes, hshallow⟩ := hstep
    obtain ⟨ls, hscan, heq, hdepth⟩ := ih hshallow hread
    refine ⟨l :: ls, .cons hnext hscan, ?_, hdepth⟩
    rw [heq, hlexemes, List.append_assoc, List.singleton_append]
  | case3 lists t l after hnext s' hfeed =>
    have hstep := explains_feed h l
    rw [hfeed] at hstep
    cases hread
    exact ⟨[l], .single hnext, hstep⟩

/-- **An expression is read exactly if its lexemes are scanned**, within the depth limit. -/
theorem readOne_iff_scan {t rest : Text} {s : Sexp} :
    readOne t = .ok (s, rest) ↔ Scan t s.lexemes rest ∧ s.depth ≤ maxDepth := by
  refine ⟨fun h => ?_, fun ⟨hscan, hd⟩ => readOne_of_scan hscan hd⟩
  obtain ⟨ls, hscan, heq, hd⟩ := scan_of_readFrom (show OpenLists.Shallow [] from trivial) h
  obtain rfl : s.lexemes = ls := heq
  exact ⟨hscan, hd⟩

end SmtScript.Sexp
