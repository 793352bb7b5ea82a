import SmtScript.Proofs.Reply.Model

/-!
When a reply is decoded: each slot takes the next expression, which has to be an answer of
its kind, and only blanks are left after the last.
-/

namespace SmtScript.Reply

variable {T : Theory} {r : Recognizer T}

/-- The expression is an answer to the slot. -/
inductive Gives (r : Recognizer T) : Slot T → Sexp → Answer T → Prop where
  | verdict {s : Sexp} {v : Verdict} (h : verdictOf? s = some v) : Gives r .verdict s (.verdict v)
  | model {ctx : Context T} {items : List Sexp} {m : Model T}
      (h : modelOfEntries r ctx (withoutHead items) = .ok m) :
      Gives r (.model ctx) (.list items) (.model m)

lemma nextSexp_eq_ok {expected t : Text} {p : Sexp × Text} :
    nextSexp expected t = .ok p ↔ Sexp.readOne t = .ok p := by
  unfold nextSexp
  split
  · next h => rw [h, Except.ok.injEq, Except.ok.injEq]
  all_goals next h => rw [h]; exact ⟨nofun, nofun⟩

lemma decodeVerdict_eq_ok {t rest : Text} {v : Verdict} :
    decodeVerdict t = .ok (v, rest) ↔
      ∃ s, Sexp.readOne t = .ok (s, rest) ∧ verdictOf? s = some v := by
  simp only [decodeVerdict, bind_eq_ok, nextSexp_eq_ok]
  refine ⟨?_, ?_⟩
  · rintro ⟨⟨s, rest'⟩, hread, h⟩
    split at h
    · next v' hv =>
      obtain ⟨rfl, rfl⟩ := Prod.mk.inj (pure_eq_ok.mp h)
      exact ⟨s, hread, hv⟩
    · cases h
  · rintro ⟨s, hread, hv⟩
    exact ⟨(s, rest), hread, by simp only [hv]; rfl⟩

lemma decodeModel_eq_ok {ctx : Context T} {t rest : Text} {m : Model T} :
    decodeModel r ctx t = .ok (m, rest) ↔
      ∃ items, Sexp.readOne t = .ok (.list items, rest) ∧
        modelOfEntries r ctx (withoutHead items) = .ok m := by
  simp only [decodeModel, bind_eq_ok, nextSexp_eq_ok]
  refine ⟨?_, ?_⟩
  · rintro ⟨⟨_ | items, rest'⟩, hread, h⟩
    · cases h
    · obtain ⟨m', hm, h⟩ := bind_eq_ok.mp h
      obtain ⟨rfl, rfl⟩ := Prod.mk.inj (pure_eq_ok.mp h)
      exact ⟨items, hread, hm⟩
  · rintro ⟨items, hread, hm⟩
    exact ⟨(.list items, rest), hread, bind_eq_ok.mpr ⟨m, hm, rfl⟩⟩

/-- **One slot** takes one expression, which answers it. -/
theorem decodeSlot_eq_ok {slot : Slot T} {t rest : Text} {a : Answer T} :
    decodeSlot r t slot = .ok (a, rest) ↔
      ∃ s, Sexp.readOne t = .ok (s, rest) ∧ Gives r slot s a := by
  cases slot with
  | verdict =>
    simp only [decodeSlot, bind_eq_ok]
    refine ⟨?_, ?_⟩
    · rintro ⟨⟨v, rest'⟩, hv, h⟩
      obtain ⟨rfl, rfl⟩ := Prod.mk.inj (pure_eq_ok.mp h)
      obtain ⟨s, hread, hs⟩ := decodeVerdict_eq_ok.mp hv
      exact ⟨s, hread, .verdict hs⟩
    · rintro ⟨s, hread, h⟩
      cases h with
      | verdict hs => exact ⟨_, decodeVerdict_eq_ok.mpr ⟨s, hread, hs⟩, rfl⟩
  | model ctx =>
    simp only [decodeSlot, bind_eq_ok]
    refine ⟨?_, ?_⟩
    · rintro ⟨⟨m, rest'⟩, hm, h⟩
      obtain ⟨rfl, rfl⟩ := Prod.mk.inj (pure_eq_ok.mp h)
      obtain ⟨items, hread, hitems⟩ := decodeModel_eq_ok.mp hm
      exact ⟨.list items, hread, .model hitems⟩
    · rintro ⟨_, hread, h⟩
      cases h with
      | model hitems => exact ⟨_, decodeModel_eq_ok.mpr ⟨_, hread, hitems⟩, rfl⟩

lemma decodeSlots_cons_eq_ok {slot : Slot T} {slots : List (Slot T)} {t last : Text}
    {answers : List (Answer T)} :
    decodeSlots r (slot :: slots) t = .ok (answers, last) ↔
      ∃ s rest a more, Sexp.readOne t = .ok (s, rest) ∧ Gives r slot s a ∧
        decodeSlots r slots rest = .ok (more, last) ∧ answers = a :: more := by
  simp only [decodeSlots, bind_eq_ok]
  refine ⟨?_, ?_⟩
  · rintro ⟨⟨a, rest⟩, ha, ⟨more, last'⟩, hmore, h⟩
    obtain ⟨rfl, rfl⟩ := Prod.mk.inj (pure_eq_ok.mp h)
    obtain ⟨s, hread, hs⟩ := decodeSlot_eq_ok.mp ha
    exact ⟨s, rest, a, more, hread, hs, hmore, rfl⟩
  · rintro ⟨s, rest, a, more, hread, hs, hmore, rfl⟩
    exact ⟨(a, rest), decodeSlot_eq_ok.mpr ⟨s, hread, hs⟩, (more, last), hmore, rfl⟩

/-- **A reply is decoded** if it has an answer for every slot and nothing else. -/
theorem decode_eq_ok {slots : List (Slot T)} {t : Text} {answers : List (Answer T)} :
    decode r slots t = .ok answers ↔
      ∃ inOrder rest, decodeSlots r slots t = .ok (inOrder, rest) ∧
        Lexeme.skipBlank rest = [] ∧ answers = inOrder.reverse := by
  simp only [decode, bind_eq_ok]
  refine ⟨?_, ?_⟩
  · rintro ⟨⟨inOrder, rest⟩, hall, h⟩
    split at h
    · next hrest => exact ⟨inOrder, rest, hall, hrest, (pure_eq_ok.mp h).symm⟩
    · cases h
  · rintro ⟨inOrder, rest, hall, hrest, rfl⟩
    exact ⟨(inOrder, rest), hall, by simp only [hrest]; rfl⟩

end SmtScript.Reply
