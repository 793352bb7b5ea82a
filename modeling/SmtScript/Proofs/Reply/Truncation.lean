import SmtScript.Proofs.Reply.Shape
import SmtScript.Proofs.Sexp.Truncation

/-!
Replies that are cut short. The beginning of a reply that is decoded gives the same answers
if only blanks are cut off; otherwise it is refused as malformed, and never taken for other
answers or for a model that lacks a variable.
-/

namespace SmtScript

/-! ### Verdicts -/

lemma Verdict.ofText?_eq_some {t : Text} {v : Verdict} : ofText? t = some v ↔ t = v.text := by
  refine ⟨fun h => ?_, ?_⟩
  · unfold ofText? at h
    split_ifs at h with hsat hunsat hunknown
    · cases h
      exact hsat
    · cases h
      exact hunsat
    · cases h
      exact hunknown
  · rintro rfl
    exact ofText?_text v

/-- No verdict is the beginning of another. -/
lemma Verdict.eq_of_begins {v w : Verdict} (h : v.text <+: w.text) : v = w := by
  cases v <;> cases w <;> first | rfl | exact absurd h (by decide)

/-- A verdict that is cut is none. -/
lemma Verdict.ofText?_truncated {a cut : Text} {v : Verdict} (h : ofText? a = some v)
    (hcut : cut <+: a) (hne : cut ≠ a) : ofText? cut = none := by
  obtain rfl := ofText?_eq_some.mp h
  cases hw : ofText? cut with
  | none => rfl
  | some w =>
    obtain rfl := ofText?_eq_some.mp hw
    exact absurd (congrArg text (eq_of_begins hcut)) hne

namespace Reply

variable {T : Theory} {r : Recognizer T} {α β : Type}

/-- The reply is refused, and the error says that it is malformed. -/
def Malformed (x : Except DecodeError α) : Prop := ∃ e, x = .error e ∧ e.isSyntax = true

lemma Malformed.bind {x : Except DecodeError α} (h : Malformed x)
    (f : α → Except DecodeError β) : Malformed (x >>= f) := by
  obtain ⟨e, rfl, he⟩ := h
  exact ⟨e, rfl, he⟩

/-! ### One slot -/

lemma malformed_nextSexp {t : Text} (h : Sexp.readOne t = .error .unexpectedEnd)
    (expected : Text) : Malformed (nextSexp expected t) := by
  unfold nextSexp
  rw [h]
  exact ⟨_, rfl, rfl⟩

/-- An answer that does not end is malformed, whatever it was to be. -/
lemma malformed_of_unfinished {t : Text} (h : Sexp.readOne t = .error .unexpectedEnd)
    (slot : Slot T) : Malformed (decodeSlot r t slot) := by
  cases slot with
  | verdict => exact ((malformed_nextSexp h _).bind _).bind _
  | model ctx => exact ((malformed_nextSexp h _).bind _).bind _

lemma malformed_decodeVerdict {t rest : Text} {s : Sexp} (h : Sexp.readOne t = .ok (s, rest))
    (hs : verdictOf? s = none) : Malformed (decodeVerdict t) := by
  have hnext : nextSexp verdictExpected t = .ok (s, rest) := nextSexp_eq_ok.mpr h
  refine ⟨unexpected verdictExpected s, ?_, rfl⟩
  rw [decodeVerdict, hnext, ok_bind]
  simp only [hs]
  rfl

/-- **One step**: cut short, a reply gives the same answer to a slot and less is left after
it, or it is malformed. -/
theorem decodeSlot_truncated {slot : Slot T} {t p rest : Text} {a : Answer T}
    (h : decodeSlot r t slot = .ok (a, rest)) (hp : p <+: t) :
    (∃ left, left <+: rest ∧ decodeSlot r p slot = .ok (a, left)) ∨
      Malformed (decodeSlot r p slot) := by
  obtain ⟨s, hread, hgives⟩ := decodeSlot_eq_ok.mp h
  have hcut := Sexp.readOne_truncated hread hp
  generalize hread' : Sexp.readOne p = found at hcut
  cases hcut with
  | @after left hleft => exact .inl ⟨left, hleft, decodeSlot_eq_ok.mpr ⟨s, hread', hgives⟩⟩
  | unfinished => exact .inr (malformed_of_unfinished hread' slot)
  | inside hs hcut hne =>
    subst hs
    cases hgives with
    | verdict hv =>
      have hnone := Verdict.ofText?_truncated hv hcut hne
      exact .inr ((malformed_decodeVerdict hread' hnone).bind _)

/-! ### Replies -/

/-- **All slots**: the answers are the same up to the cut, and there the reply is malformed. -/
theorem decodeSlots_truncated {slots : List (Slot T)} {t p rest : Text}
    {answers : List (Answer T)} (h : decodeSlots r slots t = .ok (answers, rest))
    (hp : p <+: t) :
    (∃ left, left <+: rest ∧ decodeSlots r slots p = .ok (answers, left)) ∨
      Malformed (decodeSlots r slots p) := by
  induction slots generalizing t p answers with
  | nil =>
    obtain ⟨rfl, rfl⟩ := Prod.mk.inj (Except.ok.inj h)
    exact .inl ⟨p, hp, rfl⟩
  | cons slot slots ih =>
    rw [decodeSlots] at h ⊢
    obtain ⟨⟨a, after⟩, hfirst, h⟩ := bind_eq_ok.mp h
    obtain ⟨⟨more, last⟩, hrest, h⟩ := bind_eq_ok.mp h
    obtain ⟨rfl, rfl⟩ := Prod.mk.inj (pure_eq_ok.mp h)
    rcases decodeSlot_truncated hfirst hp with ⟨left, hleft, hcut⟩ | hcut
    · rw [hcut, ok_bind]
      rcases ih hrest hleft with ⟨left', hleft', hmore⟩ | hmore
      · refine .inl ⟨left', hleft', ?_⟩
        simp only [hmore, ok_bind]
        rfl
      · exact .inr (hmore.bind _)
    · exact .inr (hcut.bind _)

/-- **A reply that is cut short is never mistaken.** Of a reply that is decoded, every
beginning gives the same answers or is refused as malformed. -/
theorem decode_truncated {slots : List (Slot T)} {t p : Text} {answers : List (Answer T)}
    (h : decode r slots t = .ok answers) (hp : p <+: t) :
    decode r slots p = .ok answers ∨
      ∃ e, decode r slots p = .error e ∧ e.isSyntax = true := by
  obtain ⟨inOrder, rest, hslots, hrest, rfl⟩ := decode_eq_ok.mp h
  rcases decodeSlots_truncated hslots hp with ⟨left, hleft, hcut⟩ | hcut
  · have hblank := Lexeme.skipBlank_eq_nil_truncated hleft hrest
    exact .inl (decode_eq_ok.mpr ⟨inOrder, left, hcut, hblank, rfl⟩)
  · exact .inr (hcut.bind _)

/-- The beginning of `sampleReply` up to a cut inside the first number of its model. -/
def sampleCut : Text := "sat\n(model\n  (define-fun x2 () Real (- (/ 1"

theorem sampleCut_refused :
    decode Script.sampleRecognizer Script.sample.slots Script.sampleReply =
        .ok Script.sampleAnswers.reverse ∧
      sampleCut <+: Script.sampleReply ∧
      ∃ e, decode Script.sampleRecognizer Script.sample.slots sampleCut = .error e ∧
        e.isSyntax = true := by
  have hcut : sampleCut <+: Script.sampleReply := by decide
  refine ⟨Script.decode_sampleReply, hcut, ?_⟩
  have hrefused : (decode Script.sampleRecognizer Script.sample.slots sampleCut).isOk = false := by
    decide +kernel
  refine (decode_truncated Script.decode_sampleReply hcut).resolve_left fun h => ?_
  rw [h] at hrefused
  cases hrefused

end Reply

end SmtScript
