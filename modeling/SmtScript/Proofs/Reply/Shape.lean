import Mathlib.Data.List.Pairwise
import SmtScript.Proofs.Arith.Symbols
import SmtScript.Proofs.Reply.RoundTrip

/-!
A reply tells which answers it gives. The expressions that answer a slot say what the slot
is: a verdict is an atom, and a model is a list that names every variable of its context
with its sort. The names come with increasing numbers, so that their order is known too,
whichever numbers the script had given.
-/

namespace SmtScript

namespace Reply

variable {T : Theory}

/-! ### What an entry says -/

lemma recognize?_name {r : Recognizer T} {name : Text} {e : Entry T}
    (h : r.recognize? name = some e) : e.name = name := by
  simpa using List.find?_some h

/-- What an entry assigns can be told from the entry alone, but for the position. -/
lemma Assigns.assignment_eq (hinj : Function.Injective T.sortText) {r r' : Recognizer T}
    {n n' : Nat} {entry : Sexp} {x x' : Nat × Assignment T} (h : Assigns r n entry x)
    (h' : Assigns r' n' entry x') : x.2 = x'.2 := by
  cases h with
  | @mk d e v hd hname _ hsort hvalue =>
    cases h' with
    | @mk d' e' v' hd' hname' _ hsort' hvalue' =>
      obtain rfl := Option.some.inj (hd.symm.trans hd')
      have hnames : e.name = e'.name := (recognize?_name hname).trans (recognize?_name hname').symm
      have hsorts : e.sort = e'.sort := hinj (hsort.trans hsort'.symm)
      rw [hsorts, hvalue', Except.ok.injEq] at hvalue
      rw [hnames, hsorts, hvalue]

lemma assignments_eq (hinj : Function.Injective T.sortText) {r r' : Recognizer T} {n n' : Nat}
    {entries : List Sexp} {xs xs' : List (Nat × Assignment T)}
    (h : List.Forall₂ (Assigns r n) entries xs) (h' : List.Forall₂ (Assigns r' n') entries xs') :
    xs.map Prod.snd = xs'.map Prod.snd := by
  induction h generalizing xs' with
  | nil =>
    cases h'
    rfl
  | cons hx _ ih =>
    obtain _ | ⟨hx', h'⟩ := h'
    rw [List.map_cons, List.map_cons, hx.assignment_eq hinj hx', ih h']

/-- The entries of a model are what it lists, in some order. -/
lemma modelOfEntries_perm (hinj : Function.Injective T.sortText) {r r' : Recognizer T}
    {ctx ctx' : Context T} {entries : List Sexp} {m m' : Model T}
    (h : modelOfEntries r ctx entries = .ok m) (h' : modelOfEntries r' ctx' entries = .ok m') :
    m.assignments.Perm m'.assignments := by
  obtain ⟨hlen, xs, hall, hxs⟩ := modelOfEntries_eq_ok.mp h
  obtain ⟨hlen', xs', hall', hxs'⟩ := modelOfEntries_eq_ok.mp h'
  have hsnd := hxs.map Prod.snd
  have hsnd' := hxs'.map Prod.snd
  rw [List.map_snd_zip (by simp [hlen])] at hsnd
  rw [List.map_snd_zip (by simp [hlen'])] at hsnd'
  rw [assignments_eq hinj hall hall'] at hsnd
  exact hsnd.symm.trans hsnd'

/-! ### What a model says -/

/-- The first assignment has a name with a smaller number. -/
def Before (a b : Assignment T) : Prop :=
  ∃ i j, i < j ∧ a.name = Naming.nameOf i ∧ b.name = Naming.nameOf j

lemma Before.asymm {a b : Assignment T} (h : Before a b) : ¬ Before b a := by
  obtain ⟨i, j, hlt, ha, hb⟩ := h
  rintro ⟨j', i', hlt', hb', ha'⟩
  have hi : i = i' := Naming.nameOf_inj.mp (ha.symm.trans ha')
  have hj : j = j' := Naming.nameOf_inj.mp (hb.symm.trans hb')
  omega

section

variable {full ctx : Context T} {numbers : List Nat} (hlen : numbers.length = full.length)
  (hctx : ctx <+: full)

include hlen hctx

/-- An assignment of a model has the name and the sort of its position. -/
lemma getElem_assignments (hnumbers : numbers.Pairwise (· < ·)) {entries : List Sexp}
    {m : Model T} (h : modelOfEntries (.numbered full numbers) ctx entries = .ok m) {p : Nat}
    (hp : p < m.assignments.length) :
    ∃ hn : p < numbers.length, m.assignments[p].name = Naming.nameOf numbers[p] ∧
      ctx[p]? = some m.assignments[p].sort := by
  have hn : p < numbers.length := by
    have := (modelOfEntries_eq_ok.mp h).1
    have := hctx.length_le
    omega
  obtain ⟨entry, -, hassigns⟩ := exists_assigns h (List.getElem?_eq_getElem hp)
  obtain ⟨rest, rfl⟩ := hctx
  generalize m.assignments[p] = a at hassigns
  cases hassigns with
  | @mk d e v _ hname hposition _ _ =>
    obtain ⟨hd, hsort, hnumber⟩ :=
      (Recognizer.recognize?_numbered hlen (hnumbers.imp Nat.ne_of_lt)).mp hname
    rw [List.getElem?_append_left hposition] at hsort
    rw [List.getElem?_eq_getElem hn, ← hd] at hnumber
    exact ⟨hn, (Option.some.inj hnumber).symm, hsort⟩

lemma map_sort_assignments (hnumbers : numbers.Pairwise (· < ·)) {entries : List Sexp}
    {m : Model T} (h : modelOfEntries (.numbered full numbers) ctx entries = .ok m) :
    m.assignments.map Assignment.sort = ctx := by
  have hm := (modelOfEntries_eq_ok.mp h).1
  refine List.ext_getElem (by simp [hm]) fun p hp hp' => ?_
  rw [List.length_map] at hp
  obtain ⟨-, -, hsort⟩ := getElem_assignments hlen hctx hnumbers h hp
  rw [List.getElem_map]
  exact (List.getElem?_eq_some_iff.mp hsort).2.symm

lemma pairwise_assignments (hnumbers : numbers.Pairwise (· < ·)) {entries : List Sexp}
    {m : Model T} (h : modelOfEntries (.numbered full numbers) ctx entries = .ok m) :
    m.assignments.Pairwise Before := by
  rw [List.pairwise_iff_getElem]
  intro p q hp hq hlt
  obtain ⟨hn, hname, -⟩ := getElem_assignments hlen hctx hnumbers h hp
  obtain ⟨hn', hname', -⟩ := getElem_assignments hlen hctx hnumbers h hq
  exact ⟨_, _, List.pairwise_iff_getElem.mp hnumbers p q hn hn' hlt, hname, hname'⟩

end

/-- **The entries of a model tell its context and its assignments.** -/
theorem modelOfEntries_inj (hinj : Function.Injective T.sortText) {full full' ctx ctx' : Context T}
    {numbers numbers' : List Nat} (hlen : numbers.length = full.length)
    (hlen' : numbers'.length = full'.length) (hnumbers : numbers.Pairwise (· < ·))
    (hnumbers' : numbers'.Pairwise (· < ·)) (hctx : ctx <+: full) (hctx' : ctx' <+: full')
    {entries : List Sexp} {m m' : Model T}
    (h : modelOfEntries (.numbered full numbers) ctx entries = .ok m)
    (h' : modelOfEntries (.numbered full' numbers') ctx' entries = .ok m') :
    ctx = ctx' ∧ m = m' := by
  have hassignments : m.assignments = m'.assignments :=
    List.Perm.eq_of_pairwise (fun a b _ _ hab hba => absurd hba hab.asymm)
      (pairwise_assignments hlen hctx hnumbers h)
      (pairwise_assignments hlen' hctx' hnumbers' h') (modelOfEntries_perm hinj h h')
  refine ⟨?_, ?_⟩
  · rw [← map_sort_assignments hlen hctx hnumbers h, hassignments,
      map_sort_assignments hlen' hctx' hnumbers' h']
  · cases m
    cases m'
    exact congrArg Model.mk hassignments

/-! ### What a reply says -/

section

variable {full full' : Context T} {numbers numbers' : List Nat}
  (hinj : Function.Injective T.sortText) (hlen : numbers.length = full.length)
  (hlen' : numbers'.length = full'.length) (hnumbers : numbers.Pairwise (· < ·))
  (hnumbers' : numbers'.Pairwise (· < ·))

include hinj hlen hlen' hnumbers hnumbers'

/-- **An expression tells the slot that it answers**, and the answer. -/
theorem gives_inj {slot slot' : Slot T} (hslot : slot.Within full)
    (hslot' : slot'.Within full') {s : Sexp} {a a' : Answer T}
    (h : Gives (.numbered full numbers) slot s a)
    (h' : Gives (.numbered full' numbers') slot' s a') : slot = slot' ∧ a = a' := by
  cases h with
  | verdict hv =>
    cases h' with
    | verdict hv' =>
      obtain rfl := Option.some.inj (hv.symm.trans hv')
      exact ⟨rfl, rfl⟩
    | model => cases hv
  | model hm =>
    cases h' with
    | verdict hv => cases hv
    | model hm' =>
      obtain ⟨rfl, rfl⟩ := modelOfEntries_inj hinj hlen hlen' hnumbers hnumbers' hslot hslot' hm
        hm'
      exact ⟨rfl, rfl⟩

/-- Both readers take the same expressions from the reply, and come to its end together. -/
theorem decodeSlots_inj {slots slots' : List (Slot T)}
    (hslots : ∀ slot ∈ slots, slot.Within full)
    (hslots' : ∀ slot ∈ slots', slot.Within full') {t rest rest' : Text}
    {answers answers' : List (Answer T)}
    (h : decodeSlots (.numbered full numbers) slots t = .ok (answers, rest))
    (h' : decodeSlots (.numbered full' numbers') slots' t = .ok (answers', rest'))
    (hrest : Lexeme.skipBlank rest = []) (hrest' : Lexeme.skipBlank rest' = []) :
    slots = slots' ∧ answers = answers' := by
  induction slots generalizing slots' t answers answers' with
  | nil =>
    obtain ⟨rfl, rfl⟩ := Prod.mk.inj (Except.ok.inj h)
    cases slots' with
    | nil =>
      obtain ⟨rfl, -⟩ := Prod.mk.inj (Except.ok.inj h')
      exact ⟨rfl, rfl⟩
    | cons slot' slots' =>
      obtain ⟨s, after, a, more, hread, -⟩ := decodeSlots_cons_eq_ok.mp h'
      rw [Sexp.readOne_of_skipBlank hrest] at hread
      cases hread
  | cons slot slots ih =>
    obtain ⟨s, after, a, more, hread, hgives, hmore, rfl⟩ := decodeSlots_cons_eq_ok.mp h
    cases slots' with
    | nil =>
      obtain ⟨-, rfl⟩ := Prod.mk.inj (Except.ok.inj h')
      rw [Sexp.readOne_of_skipBlank hrest'] at hread
      cases hread
    | cons slot' slots' =>
      obtain ⟨s', after', a', more', hread', hgives', hmore', rfl⟩ :=
        decodeSlots_cons_eq_ok.mp h'
      obtain ⟨rfl, rfl⟩ := Prod.mk.inj (Except.ok.inj (hread.symm.trans hread'))
      obtain ⟨hslot, hrest⟩ := List.forall_mem_cons.mp hslots
      obtain ⟨hslot', hrest'⟩ := List.forall_mem_cons.mp hslots'
      obtain ⟨rfl, rfl⟩ :=
        gives_inj hinj hlen hlen' hnumbers hnumbers' hslot hslot' hgives hgives'
      obtain ⟨rfl, rfl⟩ := ih hrest hrest' hmore hmore'
      exact ⟨rfl, rfl⟩

end

end Reply

namespace Script

open Reply

/-- **A reply identifies the answers owed.** If one text is decoded for two scripts, then
both owe the same answers in the same order, over the same variables, and both are given
the same answers; however the scripts differ otherwise. -/
theorem Reachable.slots_eq {s s' : Script arith} (h : s.Reachable) (h' : s'.Reachable) :
    ∃ printed printed', s.print = .ok printed ∧ s'.print = .ok printed' ∧
      ∀ t answers answers', decode printed.recognizer s.slots t = .ok answers →
        decode printed'.recognizer s'.slots t = .ok answers' →
          s.slots = s'.slots ∧ answers = answers' := by
  obtain ⟨last, hordered, hdepth, hprint⟩ := h.print_eq
  obtain ⟨last', hordered', hdepth', hprint'⟩ := h'.print_eq
  refine ⟨_, _, hprint, hprint', fun t answers answers' hdecode hdecode' => ?_⟩
  obtain ⟨inOrder, rest, hslots, hrest, rfl⟩ := decode_eq_ok.mp hdecode
  obtain ⟨inOrder', rest', hslots', hrest', rfl⟩ := decode_eq_ok.mp hdecode'
  obtain ⟨hsame, rfl⟩ := decodeSlots_inj Arith.Srt.text_injective hdepth hdepth'
    hordered.increasing hordered'.increasing h.within h'.within hslots hslots' hrest hrest'
  exact ⟨hsame, rfl⟩

/-- Calls that lead to another script than `sampleCalls`, with the same answers owed. -/
def twinCalls : List (Call arith) :=
  [.declareConst Arith.Srt.int, .assert sampleTerm, .setLogic "ALL", .declareConst Arith.Srt.real,
    .checkSat, .getModel]

def twin : Script arith := twinCalls.foldl perform empty

lemma twin_reachable : twin.Reachable :=
  reachable_of_assert_eq sampleTerm_built (by simp [twinCalls, Call.commands])

lemma twin_recognizer {printed : Printed arith} (h : twin.print = .ok printed) :
    printed.recognizer = sampleRecognizer :=
  map_of_ok h rfl

lemma decode_sampleReply :
    decode sampleRecognizer sample.slots sampleReply = .ok sampleAnswers.reverse := by
  have hslots : ∀ slot ∈ sample.slots, slot.Within [Arith.Srt.int, Arith.Srt.real] :=
    sample_reachable.within
  have hlen : [0, 2].length = [Arith.Srt.int, Arith.Srt.real].length := rfl
  rw [← joined_sampleBlocks]
  exact decode_of_reports hlen (by decide) sample_reports hslots

theorem sample_twin_slots_eq :
    sample.Reachable ∧ twin.Reachable ∧ sample.slots = twin.slots := by
  refine ⟨sample_reachable, twin_reachable, ?_⟩
  obtain ⟨printed, printed', hprint, hprint', hall⟩ :=
    Reachable.slots_eq sample_reachable twin_reachable
  rw [sample_recognizer hprint, twin_recognizer hprint'] at hall
  exact (hall sampleReply _ _ decode_sampleReply decode_sampleReply).1

end Script

end SmtScript
