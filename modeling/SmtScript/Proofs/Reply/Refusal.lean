import SmtScript.Proofs.Reply.Defects
import SmtScript.Proofs.Sexp.Completion

/-!
Where a reply is refused. The slots get their answers one after another, up to one for which
the text is no answer; or they all do, and there is text left.
-/

namespace SmtScript.Reply

open Lexeme (skipBlank)

variable {T : Theory} {r : Recognizer T}

/-- A text is no verdict if its first expression cannot be read, or is none. -/
lemma decodeVerdict_eq_error {t : Text} {x : DecodeError} :
    decodeVerdict t = .error x ↔
      nextSexp verdictExpected t = .error x ∨
        ∃ s rest, Sexp.readOne t = .ok (s, rest) ∧ verdictOf? s = none ∧
          x = unexpected verdictExpected s := by
  rw [decodeVerdict, bind_eq_error]
  refine or_congr_right ?_
  simp only [nextSexp_eq_ok]
  refine ⟨?_, ?_⟩
  · rintro ⟨⟨s, rest⟩, hread, h⟩
    split at h
    · cases h
    · next hnone =>
      cases h
      exact ⟨s, rest, hread, hnone, rfl⟩
  · rintro ⟨s, rest, hread, hnone, rfl⟩
    exact ⟨(s, rest), hread, by simp only [hnone]; rfl⟩

lemma decodeSlot_eq_error {slot : Slot T} {t : Text} {x : DecodeError} :
    decodeSlot r t slot = .error x ↔
      (slot = .verdict ∧ decodeVerdict t = .error x) ∨
        ∃ ctx, slot = .model ctx ∧ decodeModel r ctx t = .error x := by
  cases slot with
  | verdict =>
    rw [decodeSlot, bind_eq_error_of_ok]
    · simp
    · exact fun _ => ⟨_, rfl⟩
  | model ctx =>
    rw [decodeSlot, bind_eq_error_of_ok]
    · simp
    · exact fun _ => ⟨_, rfl⟩

/-- **All slots**: one is refused, and those before it have got their answers. -/
theorem decodeSlots_eq_error {slots : List (Slot T)} {t : Text} {x : DecodeError} :
    decodeSlots r slots t = .error x ↔
      ∃ done slot later answers u, slots = done ++ slot :: later ∧
        decodeSlots r done t = .ok (answers, u) ∧ decodeSlot r u slot = .error x := by
  refine ⟨fun h => ?_, ?_⟩
  · induction slots generalizing t with
    | nil => cases h
    | cons slot slots ih =>
      rw [decodeSlots, bind_eq_error] at h
      rcases h with h | ⟨⟨a, after⟩, hslot, h⟩
      · exact ⟨[], slot, slots, [], t, rfl, rfl, h⟩
      · rw [bind_eq_error_of_ok] at h
        · obtain ⟨done, refused, later, answers, u, rfl, hdone, hrefused⟩ := ih h
          obtain ⟨s, hread, hgives⟩ := decodeSlot_eq_ok.mp hslot
          refine ⟨slot :: done, refused, later, a :: answers, u, rfl, ?_, hrefused⟩
          exact decodeSlots_cons_eq_ok.mpr ⟨s, after, a, answers, hread, hgives, hdone, rfl⟩
        · exact fun _ => ⟨_, rfl⟩
  · rintro ⟨done, slot, later, answers, u, rfl, hdone, hslot⟩
    induction done generalizing t answers with
    | nil =>
      obtain ⟨-, rfl⟩ := Prod.mk.inj (Except.ok.inj hdone)
      rw [List.nil_append, decodeSlots, bind_eq_error]
      exact .inl hslot
    | cons first done ih =>
      obtain ⟨s, after, a, more, hread, hgives, hmore, -⟩ := decodeSlots_cons_eq_ok.mp hdone
      have hfirst : decodeSlot r t first = .ok (a, after) := decodeSlot_eq_ok.mpr ⟨s, hread, hgives⟩
      rw [List.cons_append, decodeSlots, hfirst, ok_bind]
      exact bind_eq_error.mpr (.inl (ih more hmore))

lemma suffix_of_decodeSlots {slots : List (Slot T)} {t rest : Text} {answers : List (Answer T)}
    (h : decodeSlots r slots t = .ok (answers, rest)) : rest <:+ t := by
  induction slots generalizing t answers with
  | nil =>
    obtain ⟨-, rfl⟩ := Prod.mk.inj (Except.ok.inj h)
    exact List.suffix_rfl
  | cons slot slots ih =>
    obtain ⟨s, after, a, more, hread, -, hmore, -⟩ := decodeSlots_cons_eq_ok.mp h
    exact (ih hmore).trans (Sexp.suffix_of_readOne hread)

lemma decode_eq_error {slots : List (Slot T)} {t : Text} {x : DecodeError} :
    decode r slots t = .error x ↔
      decodeSlots r slots t = .error x ∨
        ∃ answers rest, decodeSlots r slots t = .ok (answers, rest) ∧ skipBlank rest ≠ [] ∧
          x = .trailingInput (skipBlank rest).excerpt := by
  rw [decode, bind_eq_error]
  refine or_congr_right ⟨?_, ?_⟩
  · rintro ⟨⟨answers, rest⟩, hslots, h⟩
    dsimp only at h
    split at h
    · cases h
    · next hleft =>
      cases h
      exact ⟨answers, rest, hslots, hleft, rfl⟩
  · rintro ⟨answers, rest, hslots, hleft, rfl⟩
    refine ⟨(answers, rest), hslots, ?_⟩
    dsimp only
    split
    · next hnil => exact absurd hnil hleft
    · rfl

end SmtScript.Reply
