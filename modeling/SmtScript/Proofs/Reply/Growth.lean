import SmtScript.Proofs.Script.Printing
import SmtScript.Reply.Decoder

/-!
Scripts that grow. What is pushed onto a script adds to the end of its text, of its recognizer
and of the answers owed. The longer recognizer knows more names, but those stand for positions
that no model of the shorter script has. So a reply to the shorter script is decoded alike by
both: the answers are the same, or else the error is, with all that it quotes.
-/

namespace SmtScript

variable {T : Theory}

namespace Script

/-- Both scripts are written, the second one as the first with more after it: more lines, and
entries for the later positions. -/
lemma Reachable.print_extend {s : Script T} (h : s.Reachable) (cs : List (Command T)) :
    let s' := (extend cs).scriptAfter s
    ∃ text text' r more, s.print = .ok ⟨text, r⟩ ∧ s'.print = .ok ⟨text ++ text', r ++ more⟩ ∧
      (∀ p < s.context.length, ∃ e ∈ r, e.position = p) ∧
      ∀ e ∈ more, s.context.length ≤ e.position := by
  intro s'
  obtain ⟨accepted, -, hcommands, hruns⟩ := s.extend_runs cs
  obtain ⟨hordered, hdepth, hprint⟩ := h.print_eq_lines
  have hruns' : Runs .initial s'.commands s'.state := by
    rw [hcommands]
    exact h.runs.append hruns
  obtain ⟨-, hdepth', hprint'⟩ := print_eq_of_runs hruns'
  obtain ⟨-, -, more, -, hmore⟩ := hruns.print_eq hdepth hordered
  have hnaming : s'.naming = Command.namingAfterAll s.naming accepted := by
    rw [naming, hcommands]
    exact List.foldl_append
  have hrecognizer : Recognizer.numbered s'.context s'.naming.live =
      Recognizer.numbered s.context s.naming.live ++ more := by
    rw [hnaming]
    exact hmore
  refine ⟨_, Command.lines accepted s.naming, _, more, hprint, ?_, fun p hp => ?_, ?_⟩
  · rw [hprint', hrecognizer, hcommands, Command.lines_append]
    rfl
  · have hmem : p ∈ (Recognizer.numbered s.context s.naming.live).map Entry.position := by
      rw [Recognizer.map_position_numbered hdepth, List.mem_range]
      exact hp
    exact List.mem_map.mp hmem
  · exact Recognizer.le_position_of_append hdepth hdepth' hrecognizer

end Script

/-! ### Replies -/

namespace Reply

variable {r r' : Recognizer T}

lemma decodeDefinition_congr {count : Nat} (h : r.AgreeBelow count r') (filled : Filled T)
    (d : Definition) :
    decodeDefinition r count filled d = decodeDefinition r' count filled d := by
  unfold decodeDefinition
  rw [h.recognize?_eq]

lemma fill_congr {count : Nat} (h : r.AgreeBelow count r') (filled : Filled T)
    (entries : List Sexp) : fill r count filled entries = fill r' count filled entries := by
  induction entries generalizing filled with
  | nil => rfl
  | cons entry entries ih =>
    rw [fill, fill]
    cases definition? entry with
    | none => rfl
    | some d => simp only [decodeDefinition_congr h, ih]

/-- Only a position that lacks an assignment is looked up in the recognizer. -/
lemma collect_congr {count : Nat} (h : r.AgreeBelow count r') (filled : Filled T)
    {positions : List Nat} (hp : ∀ p ∈ positions, p < count) :
    collect r filled positions = collect r' filled positions := by
  induction positions with
  | nil => rfl
  | cons p positions ih =>
    obtain ⟨hfirst, hrest⟩ := List.forall_mem_cons.mp hp
    rw [collect, collect, ih hrest, missingName, missingName, h.nameOf?_eq p hfirst]

lemma modelOfEntries_congr {ctx : Context T} (h : r.AgreeBelow ctx.length r')
    (entries : List Sexp) : modelOfEntries r ctx entries = modelOfEntries r' ctx entries := by
  have hcollect (filled : Filled T) : collect r filled (List.range ctx.length) =
      collect r' filled (List.range ctx.length) :=
    collect_congr h filled fun p hp => List.mem_range.mp hp
  simp only [modelOfEntries, fill_congr h, hcollect]

/-- **One slot**: a model is decoded alike if the recognizers agree about its variables. -/
theorem decodeSlot_congr {ctx : Context T} (h : r.AgreeBelow ctx.length r') {slot : Slot T}
    (hslot : slot.Within ctx) (t : Text) : decodeSlot r t slot = decodeSlot r' t slot := by
  cases slot with
  | verdict => rfl
  | model first =>
    have hfirst : first <+: ctx := hslot
    have hagree : r.AgreeBelow first.length r' := h.mono hfirst.length_le
    simp only [decodeSlot, decodeModel, modelOfEntries_congr hagree]

lemma decodeSlots_congr {ctx : Context T} (h : r.AgreeBelow ctx.length r')
    {slots : List (Slot T)} (hslots : ∀ slot ∈ slots, slot.Within ctx) (t : Text) :
    decodeSlots r slots t = decodeSlots r' slots t := by
  induction slots generalizing t with
  | nil => rfl
  | cons slot slots ih =>
    obtain ⟨hslot, hslots⟩ := List.forall_mem_cons.mp hslots
    simp only [decodeSlots, decodeSlot_congr h hslot, ih hslots]

/-- **A whole reply** is decoded alike, whatever it is. -/
theorem decode_congr {ctx : Context T} (h : r.AgreeBelow ctx.length r')
    {slots : List (Slot T)} (hslots : ∀ slot ∈ slots, slot.Within ctx) (t : Text) :
    decode r slots t = decode r' slots t := by
  rw [decode, decode, decodeSlots_congr h hslots]

end Reply

namespace Script

/-- **A script that grows leaves its earlier answers as they are.** More accepted commands add
to the end of the text, of the recognizer and of the answers owed. The answers owed before
are decoded from every text as they were: accepted with the same result, or refused with the
same error. -/
theorem Reachable.decode_extend {s s' : Script T} (h : s.Reachable) {cs : List (Command T)}
    (hs : (extend cs).run s = .ok () s') :
    ∃ printed printed', s.print = .ok printed ∧ s'.print = .ok printed' ∧
      printed.text <+: printed'.text ∧ printed.recognizer <+: printed'.recognizer ∧
      s.slots <+: s'.slots ∧
      ∀ t, Reply.decode printed'.recognizer s.slots t =
        Reply.decode printed.recognizer s.slots t := by
  obtain rfl := Builder.scriptAfter_of_ok hs
  obtain ⟨text, text', r, more, hprint, hprint', hr, hmore⟩ := h.print_extend cs
  obtain ⟨accepted, -, -, hruns⟩ := s.extend_runs cs
  have hagree : r.AgreeBelow s.context.length (r ++ more) :=
    Recognizer.agreeBelow_append hr hmore
  refine ⟨_, _, hprint, hprint', List.prefix_append _ _, List.prefix_append _ _,
    hruns.slots_prefix, fun t => ?_⟩
  exact (Reply.decode_congr hagree h.within t).symm

/-- Calls that ask for the value of one variable. -/
def earlierCalls : List (Call arith) := [.declareConst Arith.Srt.int, .checkSat, .getModel]

def earlier : Script arith := earlierCalls.foldl perform empty

/-- Commands after `earlierCalls`: another variable, and another model. -/
def laterCommands : List (Command arith) :=
  [.assert sampleTerm, .declareConst Arith.Srt.real, .checkSat, .getModel]

/-- A reply to `earlier` with a value for a variable that is declared later. -/
def earlyReply : Text := "sat ((define-fun x0 () Int 1) (define-fun x2 () Real 2.0))"

lemma earlier_reachable : earlier.Reachable :=
  reachable_of_assert_eq sampleTerm_built (by simp [earlierCalls, Call.commands])

/-- The longer script knows the variable, and still refuses it to the first model. -/
theorem earlier_decode_extend :
    earlier.Reachable ∧ ∃ printed printed', earlier.print = .ok printed ∧
      ((extend laterCommands).scriptAfter earlier).print = .ok printed' ∧
      (printed'.recognizer.recognize? "x2").map Entry.position = some 1 ∧
      (Reply.decode printed.recognizer earlier.slots earlyReply).map (fun _ => ()) =
        .error (.unknownVariable "x2") ∧
      Reply.decode printed'.recognizer earlier.slots earlyReply =
        Reply.decode printed.recognizer earlier.slots earlyReply := by
  have hextend : (extend laterCommands).run earlier =
      .ok () ((extend laterCommands).scriptAfter earlier) := rfl
  obtain ⟨printed, printed', hprint, hprint', -, -, -, hdecode⟩ :=
    Reachable.decode_extend earlier_reachable hextend
  have hrecognizer : printed.recognizer = [⟨"x0", .int, 0⟩] := map_of_ok hprint rfl
  have hrecognizer' : printed'.recognizer = [⟨"x0", .int, 0⟩, ⟨"x2", .real, 1⟩] :=
    map_of_ok hprint' rfl
  refine ⟨earlier_reachable, printed, printed', hprint, hprint', ?_, ?_, hdecode earlyReply⟩
  · rw [hrecognizer']
    rfl
  · rw [hrecognizer]
    decide +kernel

end Script

end SmtScript
