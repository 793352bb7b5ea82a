import SmtScript.Proofs.Arith.Grammar
import SmtScript.Proofs.Reply.Shape

/-!
What is accepted has the shape that the script has declared: an answer for each slot, of its
kind, and in every model one assignment for each variable declared when the model was asked
for, under the name that was printed for it and with its sort.
-/

namespace SmtScript

variable {T : Theory}

/-- The model has one assignment for each variable of the context, under the name that the
recognizer has for its position and with its sort, and it knows no other names. -/
structure Model.Covers (m : Model T) (r : Recognizer T) (ctx : Context T) : Prop where
  size_eq : m.size = ctx.length
  assigned : ∀ p < ctx.length, ∃ a, m.assignments[p]? = some a ∧
    r.nameOf? p = some a.name ∧ ctx[p]? = some a.sort
  value?_name : ∀ p < ctx.length, ∀ name, r.nameOf? p = some name → m.value? name = m.valueAt? p
  value?_other : ∀ name, (∀ p < ctx.length, r.nameOf? p ≠ some name) → m.value? name = none

/-- The values of the model are of the sorts that it names. -/
def Model.WellSorted (m : Model arith) : Prop := ∀ a ∈ m.assignments, a.value.sort = a.sort

/-- If the answer is a model, its values are of their sorts. -/
def Answer.WellSorted : Answer arith → Prop
  | .verdict _ => True
  | .model m => m.WellSorted

/-- The answer is of the kind of the slot. -/
inductive Answer.Fits (r : Recognizer T) : Slot T → Answer T → Prop where
  | verdict (v : Verdict) : Fits r .verdict (.verdict v)
  | model {ctx : Context T} {m : Model T} (h : m.Covers r ctx) : Fits r (.model ctx) (.model m)

namespace Reply

/-! ### Models -/

section

variable {full ctx : Context T} {numbers : List Nat} (hlen : numbers.length = full.length)
  (hnumbers : numbers.Pairwise (· < ·)) (hctx : ctx <+: full)

include hlen hnumbers hctx

lemma exists_assignment {entries : List Sexp} {m : Model T}
    (h : modelOfEntries (.numbered full numbers) ctx entries = .ok m) {p : Nat}
    (hp : p < ctx.length) :
    ∃ a, m.assignments[p]? = some a ∧
      (Recognizer.numbered full numbers).nameOf? p = some a.name ∧ ctx[p]? = some a.sort := by
  have hsize := (modelOfEntries_eq_ok.mp h).1
  have hp' : p < m.assignments.length := hsize ▸ hp
  obtain ⟨hn, hname, hsort⟩ := getElem_assignments hlen hctx hnumbers h hp'
  refine ⟨_, List.getElem?_eq_getElem hp', ?_, hsort⟩
  rw [Recognizer.nameOf?_numbered hlen, List.getElem?_eq_getElem hn, hname]
  rfl

/-- **A model that is accepted covers its context.** -/
theorem covers_of_modelOfEntries {entries : List Sexp} {m : Model T}
    (h : modelOfEntries (.numbered full numbers) ctx entries = .ok m) :
    m.Covers (.numbered full numbers) ctx := by
  have hsize := (modelOfEntries_eq_ok.mp h).1
  have hassigned (p : Nat) (hp : p < ctx.length) := exists_assignment hlen hnumbers hctx h hp
  have hnames : (m.assignments.map Assignment.name).Nodup := by
    refine List.pairwise_map.mpr ((pairwise_assignments hlen hctx hnumbers h).imp ?_)
    rintro a b ⟨i, j, hlt, ha, hb⟩
    rw [ha, hb, ne_eq, Naming.nameOf_inj]
    exact Nat.ne_of_lt hlt
  refine ⟨hsize, hassigned, fun p hp name hname => ?_, fun name hother => ?_⟩
  · obtain ⟨a, ha, hname', -⟩ := hassigned p hp
    obtain rfl := Option.some.inj (hname'.symm.trans hname)
    have hfound := (find?_eq_some_of_nodup hnames).mpr ⟨List.mem_of_getElem? ha, rfl⟩
    rw [Model.value?, hfound, Model.valueAt?, ha]
  · rw [Model.value?, List.find?_eq_none.mpr, Option.map_none]
    intro a ha
    obtain ⟨p, hp, rfl⟩ := List.mem_iff_getElem.mp ha
    rw [beq_iff_eq]
    rintro rfl
    have hp' : p < ctx.length := hsize ▸ hp
    obtain ⟨a, ha, hname, -⟩ := hassigned p hp'
    rw [List.getElem?_eq_getElem hp, Option.some.injEq] at ha
    exact hother p hp' (ha ▸ hname)

end

/-- In arithmetic a model assigns values of the sorts declared. -/
lemma wellSorted_of_modelOfEntries {r : Recognizer arith} {ctx : Context arith}
    {entries : List Sexp} {m : Model arith} (h : modelOfEntries r ctx entries = .ok m) :
    m.WellSorted := by
  intro a ha
  obtain ⟨p, hp⟩ := List.mem_iff_getElem?.mp ha
  obtain ⟨entry, -, hassigns⟩ := exists_assigns h hp
  cases hassigns with
  | mk _ _ _ _ hvalue =>
    obtain ⟨e, -, hdenotes⟩ := Arith.readValue_eq_ok.mp hvalue
    exact hdenotes.sort_eq

/-! ### Replies -/

/-- The answers to the slots, one each, come from expressions that give them. -/
lemma forall₂_of_decodeSlots {r : Recognizer T} {P : Slot T → Answer T → Prop}
    {slots : List (Slot T)}
    (hP : ∀ slot ∈ slots, ∀ s a, Gives r slot s a → P slot a) {t rest : Text}
    {answers : List (Answer T)} (h : decodeSlots r slots t = .ok (answers, rest)) :
    List.Forall₂ P slots answers := by
  induction slots generalizing t answers with
  | nil =>
    obtain ⟨rfl, -⟩ := Prod.mk.inj (Except.ok.inj h)
    exact .nil
  | cons slot slots ih =>
    obtain ⟨hslot, hslots⟩ := List.forall_mem_cons.mp hP
    obtain ⟨s, after, a, more, -, hgives, hmore, rfl⟩ := decodeSlots_cons_eq_ok.mp h
    exact .cons (hslot s a hgives) (ih hslots hmore)

lemma forall₂_of_decode {r : Recognizer T} {P : Slot T → Answer T → Prop}
    {slots : List (Slot T)}
    (hP : ∀ slot ∈ slots, ∀ s a, Gives r slot s a → P slot a) {t : Text}
    {answers : List (Answer T)} (h : decode r slots t = .ok answers) :
    List.Forall₂ P slots.reverse answers := by
  obtain ⟨inOrder, rest, hslots, -, rfl⟩ := decode_eq_ok.mp h
  exact List.rel_reverse (forall₂_of_decodeSlots hP hslots)

lemma fits_of_gives {full : Context T} {numbers : List Nat}
    (hlen : numbers.length = full.length) (hnumbers : numbers.Pairwise (· < ·)) {slot : Slot T}
    (hslot : slot.Within full) {s : Sexp} {a : Answer T}
    (h : Gives (.numbered full numbers) slot s a) : a.Fits (.numbered full numbers) slot := by
  cases h with
  | @verdict _ v => exact .verdict v
  | model hm => exact .model (covers_of_modelOfEntries hlen hnumbers hslot hm)

lemma wellSorted_of_gives {r : Recognizer arith} {slot : Slot arith} {s : Sexp}
    {a : Answer arith} (h : Gives r slot s a) : a.WellSorted := by
  cases h with
  | verdict => trivial
  | model hentries => exact wellSorted_of_modelOfEntries hentries

lemma wellSorted_of_decode {r : Recognizer arith} {slots : List (Slot arith)} {t : Text}
    {answers : List (Answer arith)} (h : decode r slots t = .ok answers) :
    ∀ a ∈ answers, a.WellSorted := by
  intro a ha
  have hall := forall₂_of_decode (P := fun _ a => a.WellSorted)
    (fun _ _ _ _ hgives => wellSorted_of_gives hgives) h
  obtain ⟨_, -, hsorted⟩ := exists_of_mem_forall₂ hall ha
  exact hsorted

end Reply

namespace Script

open Reply

/-- **Every reply that is accepted has the declared shape.** For a reachable script there are
as many answers as slots, and each, the most recent first, is of the kind of its slot; each
model covers the variables of its slot. In arithmetic its values are of their sorts. -/
theorem Reachable.answers_fit :
    (∀ {T : Theory} {s : Script T}, s.Reachable → ∃ printed, s.print = .ok printed ∧
      ∀ t answers, decode printed.recognizer s.slots t = .ok answers →
        answers.length = s.slots.length ∧
        ∀ (i : Nat) (slot : Slot T), s.slots.reverse[i]? = some slot →
          ∃ a : Answer T, answers[i]? = some a ∧ a.Fits printed.recognizer slot) ∧
    ∀ (r : Recognizer arith) slots t answers, decode r slots t = .ok answers →
      ∀ m, .model m ∈ answers → m.WellSorted := by
  refine ⟨fun {T s} h => ?_, fun r slots t answers h m hm => wellSorted_of_decode h _ hm⟩
  obtain ⟨last, hordered, hdepth, hprint⟩ := h.print_eq
  refine ⟨_, hprint, fun t answers hdecode => ?_⟩
  have hfits : List.Forall₂ (Answer.Fits (.numbered s.context last.live)) s.slots.reverse
      answers :=
    forall₂_of_decode (fun slot hslot _ _ hgives =>
      fits_of_gives hdepth hordered.increasing (h.within slot hslot) hgives) hdecode
  obtain ⟨hlength, hitems⟩ := List.forall₂_iff_get.mp hfits
  refine ⟨by rw [← hlength, List.length_reverse], fun i slot hslot => ?_⟩
  obtain ⟨hi, rfl⟩ := List.getElem?_eq_some_iff.mp hslot
  exact ⟨_, List.getElem?_eq_getElem (hlength ▸ hi), hitems i hi (hlength ▸ hi)⟩

theorem sample_answers_fit :
    sample.Reachable ∧ decode sampleRecognizer sample.slots sampleReply =
        .ok sampleAnswers.reverse ∧
      (⟨sampleModel⟩ : Model arith).Covers sampleRecognizer [.int, .real] ∧
      (⟨sampleModel⟩ : Model arith).WellSorted := by
  obtain ⟨hfits, hsorted⟩ := Reachable.answers_fit
  obtain ⟨printed, hprint, hall⟩ := hfits sample_reachable
  rw [sample_recognizer hprint] at hall
  obtain ⟨-, hslots⟩ := hall sampleReply _ decode_sampleReply
  refine ⟨sample_reachable, decode_sampleReply, ?_, ?_⟩
  · obtain ⟨a, ha, hfit⟩ := hslots 0 (.model [.int, .real]) rfl
    obtain rfl := Option.some.inj ha
    cases hfit with
    | model h => exact h
  · exact hsorted _ _ _ _ decode_sampleReply ⟨sampleModel⟩ (by simp [sampleAnswers])

end Script

end SmtScript
