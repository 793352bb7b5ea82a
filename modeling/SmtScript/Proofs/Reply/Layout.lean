import SmtScript.Proofs.Reply.Shape
import SmtScript.Proofs.Sexp.Layout

/-!
The layout of a reply. Which answers a reply gives is settled by its lexemes: it is decoded if
they are those of expressions that answer the slots, one each. So nothing depends on the white
space and the comments between the lexemes, nor on whether the last comment ends.
-/

namespace SmtScript.Reply

open Lexeme

variable {T : Theory} {r : Recognizer T}

/-- The expressions are answers to the slots, one each. -/
inductive GivesAll (r : Recognizer T) : List (Slot T) → List Sexp → List (Answer T) → Prop where
  | nil : GivesAll r [] [] []
  | cons {slot : Slot T} {s : Sexp} {a : Answer T} {slots : List (Slot T)} {ss : List Sexp}
      {answers : List (Answer T)} (h : Gives r slot s a) (hs : GivesAll r slots ss answers) :
      GivesAll r (slot :: slots) (s :: ss) (a :: answers)

/-- **The slots take the lexemes of their expressions**, and nothing else. -/
theorem decodeSlots_eq_ok {slots : List (Slot T)} {t rest : Text}
    {answers : List (Answer T)} :
    decodeSlots r slots t = .ok (answers, rest) ↔
      ∃ ss, GivesAll r slots ss answers ∧ Sexp.itemsDepth ss ≤ Sexp.maxDepth ∧
        Scan t (Sexp.itemsLexemes ss) rest := by
  induction slots generalizing t answers with
  | nil =>
    refine ⟨fun h => ?_, ?_⟩
    · obtain ⟨rfl, rfl⟩ := Prod.mk.inj (Except.ok.inj h)
      exact ⟨[], .nil, Nat.zero_le _, .nil t⟩
    · rintro ⟨_, ⟨⟩, -, ⟨⟩⟩
      rfl
  | cons slot slots ih =>
    rw [decodeSlots_cons_eq_ok]
    refine ⟨?_, ?_⟩
    · rintro ⟨s, after, a, more, hread, hgives, hmore, rfl⟩
      obtain ⟨hscan, hdepth⟩ := Sexp.readOne_iff_scan.mp hread
      obtain ⟨ss, hall, hdepths, hscans⟩ := ih.mp hmore
      exact ⟨s :: ss, .cons hgives hall, Nat.max_le.mpr ⟨hdepth, hdepths⟩, hscan.append hscans⟩
    · rintro ⟨_, _ | ⟨hgives, hall⟩, hdepth, hscan⟩
      obtain ⟨hdepth, hdepths⟩ := Nat.max_le.mp hdepth
      obtain ⟨after, hscan, hscans⟩ := Scan.split hscan
      exact ⟨_, after, _, _, Sexp.readOne_iff_scan.mpr ⟨hscan, hdepth⟩, hgives,
        ih.mpr ⟨_, hall, hdepths, hscans⟩, rfl⟩

/-- **A reply is decoded** if it is laid out from expressions that answer the slots. -/
theorem decode_eq_ok_iff_layout {slots : List (Slot T)} {t : Text} {answers : List (Answer T)} :
    decode r slots t = .ok answers ↔
      ∃ ss inOrder, GivesAll r slots ss inOrder ∧ Sexp.itemsDepth ss ≤ Sexp.maxDepth ∧
        Layout (Sexp.itemsLexemes ss) t ∧ answers = inOrder.reverse := by
  simp only [decode_eq_ok, decodeSlots_eq_ok, layout_iff_scan]
  refine ⟨?_, ?_⟩
  · rintro ⟨inOrder, rest, ⟨ss, hall, hdepth, hscan⟩, hrest, rfl⟩
    exact ⟨ss, inOrder, hall, hdepth, ⟨rest, hscan, hrest⟩, rfl⟩
  · rintro ⟨ss, inOrder, hall, hdepth, ⟨rest, hscan, hrest⟩, rfl⟩
    exact ⟨inOrder, rest, ⟨ss, hall, hdepth, hscan⟩, hrest, rfl⟩

lemma decode_of_layout {ls : List Lexeme} {t t' : Text} (h : Layout ls t) (h' : Layout ls t')
    {slots : List (Slot T)} {answers : List (Answer T)} (hdecode : decode r slots t = .ok answers) :
    decode r slots t' = .ok answers := by
  obtain ⟨ss, inOrder, hall, hdepth, hlayout, rfl⟩ := decode_eq_ok_iff_layout.mp hdecode
  obtain rfl := h.unique hlayout
  exact decode_eq_ok_iff_layout.mpr ⟨ss, inOrder, hall, hdepth, h', rfl⟩

/-- **Layout does not matter.** Two replies that are laid out from the same lexemes are
accepted alike and give the same answers. -/
theorem decode_layout {ls : List Lexeme} {t t' : Text} (h : Layout ls t) (h' : Layout ls t')
    (slots : List (Slot T)) (answers : List (Answer T)) :
    decode r slots t = .ok answers ↔ decode r slots t' = .ok answers :=
  ⟨decode_of_layout h h', decode_of_layout h' h⟩

/-- The lexemes of `Script.sampleReply`. -/
def sampleLexemes : List Lexeme :=
  Sexp.itemsLexemes [.atom "sat", .list (modelItems true Script.sampleModel.reverse)]

/-- `Script.sampleReply` between comments, with blanks only where atoms need them. -/
def denseReply : Text :=
  "; (check-sat)\nsat(model(define-fun x2()Real(-(/ 1.0;\n3.0)))(define-fun x0()Int(- 5)));done"

theorem denseReply_decode_layout :
    Layout sampleLexemes Script.sampleReply ∧ Layout sampleLexemes denseReply ∧
      decode Script.sampleRecognizer Script.sample.slots denseReply =
        .ok Script.sampleAnswers.reverse := by
  have hspaced : Layout sampleLexemes Script.sampleReply := by decide +kernel
  have hdense : Layout sampleLexemes denseReply := by decide +kernel
  exact ⟨hspaced, hdense, (decode_layout hspaced hdense _ _).mp Script.decode_sampleReply⟩

end SmtScript.Reply
