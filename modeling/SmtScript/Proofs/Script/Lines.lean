import SmtScript.Proofs.Script.Readable

/-!
Which scripts are written one command to a line. What is written of a command holds no line
end unless the command names a logic, which is written as it was given. A line end in the name
of a logic ends the line of its command, and what follows may then read as a command that the
script does not have.
-/

namespace SmtScript

open Lexeme

/-! ### The lines of a text -/

namespace Text

/-- The pieces of a split text do not hold what it was split at. -/
lemma not_mem_of_mem_splitOn {c : Char} {t piece : Text} (h : piece ∈ t.splitOn c) :
    c ∉ piece := by
  induction t generalizing piece with
  | nil =>
    obtain rfl := List.mem_singleton.mp h
    exact List.not_mem_nil
  | cons d t ih =>
    obtain ⟨first, rest, hsplit⟩ := List.exists_cons_of_ne_nil (List.splitOn_ne_nil c t)
    rw [List.splitOn_eq_splitOnP, List.splitOnP_cons_eq_if_modifyHead,
      ← List.splitOn_eq_splitOnP, hsplit] at h
    rw [hsplit] at ih
    split at h
    · rcases List.mem_cons.mp h with rfl | h
      · exact List.not_mem_nil
      · exact ih h
    · next hd =>
      -- `d` is put before the first piece of the rest
      have hne : c ≠ d := fun heq => hd (beq_iff_eq.mpr heq.symm)
      rw [List.modifyHead_cons, List.mem_cons] at h
      rcases h with rfl | h
      · exact List.not_mem_cons_of_ne_of_not_mem hne (ih List.mem_cons_self)
      · exact ih (List.mem_cons_of_mem first h)

/-- Lines written one after another are found again exactly if no line end stands in them. -/
lemma splitOn_flatMap_newline {lines : List Text} :
    (lines.flatMap (· ++ ("\n" : Text))).splitOn '\n' = lines ++ [[]] ↔
      ∀ line ∈ lines, '\n' ∉ line := by
  refine ⟨fun h line hline => ?_, fun h => ?_⟩
  · exact not_mem_of_mem_splitOn (h ▸ List.mem_append_left _ hline)
  · induction lines with
    | nil => rfl
    | cons line lines ih =>
      obtain ⟨hline, hlines⟩ := List.forall_mem_cons.mp h
      have hcons : (line :: lines).flatMap (· ++ ("\n" : Text)) =
          line ++ '\n' :: lines.flatMap (· ++ ("\n" : Text)) := by simp
      have hsplit (rest : Text) : (line ++ '\n' :: rest).splitOn '\n' =
          line.splitOn '\n' ++ rest.splitOn '\n' := by
        simp only [List.splitOn_eq_splitOnP]
        exact List.splitOnP_append_cons line rest (beq_self_eq_true '\n')
      rw [hcons, hsplit, List.splitOn_eq_singleton hline, ih hlines]
      rfl

end Text

lemma Lexeme.Plain.newline_not_mem {a : Text} (h : Plain a) : '\n' ∉ a :=
  fun hmem => absurd (h.2 _ hmem) (by decide)

/-- An expression is written on one line if its atoms are. -/
lemma Sexp.newline_not_mem_text {s : Sexp} (h : s.Atoms fun a => '\n' ∉ a) : '\n' ∉ s.text := by
  induction h with
  | atom h => exact h
  | @list items _ ih =>
    rw [text_list]
    cases items with
    | nil => decide
    | cons s items =>
      obtain ⟨hfirst, hrest⟩ := List.forall_mem_cons.mp ih
      rw [List.map_cons, Text.joined_cons]
      simpa [hfirst] using hrest

/-! ### The symbols of arithmetic -/

namespace Arith

lemma newline_not_mem_signed {negative : Bool} {magnitude : Text} (h : '\n' ∉ magnitude) :
    '\n' ∉ signed negative magnitude := by
  cases negative <;> simp [signed, h]

lemma Constant.newline_not_mem_text (c : Constant) : '\n' ∉ c.text := by
  cases c with
  | bool b => cases b <;> decide
  | int n => exact newline_not_mem_signed (plain_ofNat _).newline_not_mem
  | real r =>
    have hwhole (n : Nat) : '\n' ∉ wholeText n := (plain_wholeText n).newline_not_mem
    refine newline_not_mem_signed ?_
    split
    · exact hwhole _
    · simp [hwhole]

/-- No symbol holds a line end, whatever the literal. -/
lemma newline_not_mem_symbol {a : Text} (h : arith.Symbol (fun _ => True) a) : '\n' ∉ a := by
  cases h with
  | sort s => exact (Srt.unquoted_text s).1.newline_not_mem
  | op op => exact (Op.unquoted_text op).1.newline_not_mem
  | literal => exact Constant.newline_not_mem_text _
  | quantifier q => exact q.plain_text.newline_not_mem
  | name n => exact (Naming.plain_nameOf n).newline_not_mem

end Arith

/-- A condition that every literal meets. -/
lemma Term.literals_true {T : Theory} (t : Term T) : t.Literals fun _ => True := by
  induction t with
  | var p s => exact .var p s
  | lit l => exact .lit trivial
  | app op args ih => exact .app ih
  | quant q p s body ih => exact .quant ih

/-! ### The lines of commands -/

/-- The line that asks for the answer. -/
def Slot.request {T : Theory} : Slot T → Text
  | .verdict => "(check-sat)"
  | .model _ => "(get-model)"

namespace Command

/-- Whether a line asks for an answer. -/
def isRequestLine (line : Text) : Bool := line == "(check-sat)" || line == "(get-model)"

/-- **One command** is written as a request exactly if an answer is owed for it. -/
lemma filter_isRequestLine {T : Theory} (c : Command T) (names : Naming) (ctx : Context T) :
    [(c.sexp names).text].filter isRequestLine = (c.owed ctx).map Slot.request := by
  cases c with
  | setLogic logic => rw [text_sexp_setLogic]; rfl
  | declareConst sort => rw [text_sexp_declareConst]; rfl
  | assert t => rw [text_sexp_assert]; rfl
  | checkSat | getModel => rfl

lemma newline_not_mem_sexp {c : Command arith} {ctx : Context arith} {names : Naming}
    (hd : names.depth = ctx.length) (hc : c.Proper (fun _ => True) ctx) :
    '\n' ∉ (c.sexp names).text := by
  refine Sexp.newline_not_mem_text (atoms_sexp hd (fun _ => Arith.newline_not_mem_symbol) hc
    c.unquoted_keyword.1.newline_not_mem ?_)
  rintro logic rfl
  exact Plain.newline_not_mem hc

/-- **One line**: what is written of an accepted command holds a line end only if the logic
that it names does. -/
lemma newline_not_mem_sexp_iff {c : Command arith} {st : ScriptState arith} (hc : c.Fits st)
    (hbuilt : ∀ t, c = .assert t → t.Built) {names : Naming}
    (hd : names.depth = st.context.length) :
    '\n' ∉ (c.sexp names).text ↔ ∀ logic, c = .setLogic logic → '\n' ∉ logic := by
  cases c with
  | setLogic logic => simp [text_sexp_setLogic]
  | assert t =>
    have hproper : t.Proper (fun _ => True) st.context :=
      ⟨(hbuilt t rfl).hasSort hc.1, t.literals_true⟩
    exact iff_of_true (newline_not_mem_sexp (c := .assert t) hd hproper) nofun
  | declareConst | checkSat | getModel =>
    exact iff_of_true (newline_not_mem_sexp hd trivial) nofun

end Command

open Command

/-- **The requests** in what is written are those for the answers owed, in order. -/
lemma Runs.filter_isRequestLine {T : Theory} {st st' : ScriptState T} {cs : List (Command T)}
    (h : Runs st cs st') (names : Naming) :
    st'.slots.map Slot.request =
      st.slots.map Slot.request ++ ((trees cs names).map Sexp.text).filter isRequestLine := by
  induction h generalizing names with
  | nil => simp [trees]
  | @cons st st' c cs _ _ ih =>
    rw [ih (c.namingAfter names), stateAfter, List.map_append, ← c.filter_isRequestLine names,
      List.append_assoc, ← List.filter_append]
    rfl

/-- **The lines** hold no line end exactly if the logics named hold none. -/
lemma Runs.newline_not_mem_iff {st st' : ScriptState arith} {cs : List (Command arith)}
    (h : Runs st cs st') (hbuilt : ∀ t, .assert t ∈ cs → t.Built) {names : Naming}
    (hd : names.depth = st.context.length) :
    (∀ line ∈ (trees cs names).map Sexp.text, '\n' ∉ line) ↔
      ∀ logic, .setLogic logic ∈ cs → '\n' ∉ logic := by
  induction h generalizing names with
  | nil => exact iff_of_true nofun nofun
  | @cons st st' c cs hc _ ih =>
    have hline := newline_not_mem_sexp_iff hc (fun t ht => hbuilt t (ht ▸ List.mem_cons_self)) hd
    have hlines := ih (fun t ht => hbuilt t (List.mem_cons_of_mem c ht)) (depth_namingAfter hd)
    rw [trees, List.map_cons, List.forall_mem_cons, hlines, hline, ← forall_and]
    refine forall_congr' fun logic => ?_
    rw [List.mem_cons, or_imp, eq_comm]

namespace Script

/-- The text has one line for each command, which is what is written of that command, and the
requests among its lines are those for the answers owed, in order. -/
def LineByLine {T : Theory} (s : Script T) : Prop :=
  ∃ (printed : Printed T) (lines : List Text), s.print = .ok printed ∧
    printLines s.commands .initial = lines.map .ok ∧ lines.length = s.commands.length ∧
    printed.text.splitOn '\n' = lines ++ [[]] ∧
    (printed.text.splitOn '\n').filter isRequestLine = s.slots.map Slot.request

lemma Reachable.print_trees {T : Theory} {s : Script T} (h : s.Reachable) :
    ∃ printed, s.print = .ok printed ∧
      printed.text = (s.trees.map Sexp.text).flatMap (· ++ ("\n" : Text)) := by
  obtain ⟨-, -, hprint⟩ := h.print_eq_lines
  refine ⟨_, hprint, ?_⟩
  rw [List.flatMap_map]
  exact lines_eq_flatMap s.commands .initial

/-- **A script is written line by line exactly if no logic that it names holds a line end.**
What is written of the commands stands one after another in the text, each before a line end,
and asks for the answers owed, whatever the logics are; but only then are the lines of the
text these. -/
theorem Reachable.lineByLine_iff {s : Script arith} (h : s.Reachable) :
    (∃ (printed : Printed arith) (lines : List Text), s.print = .ok printed ∧
      printLines s.commands .initial = lines.map .ok ∧ lines.length = s.commands.length ∧
      printed.text = lines.flatMap (· ++ ("\n" : Text)) ∧
      lines.filter isRequestLine = s.slots.map Slot.request) ∧
    (s.LineByLine ↔ ∀ logic, .setLogic logic ∈ s.commands → '\n' ∉ logic) := by
  obtain ⟨printed, hprint, htext⟩ := h.print_trees
  have hlines : printLines s.commands .initial = (s.trees.map Sexp.text).map .ok := by
    rw [h.runs.printLines_eq rfl, List.map_map]
    rfl
  have hlength : (s.trees.map Sexp.text).length = s.commands.length := by
    rw [List.length_map, trees, length_trees]
  have hrequests : (s.trees.map Sexp.text).filter isRequestLine = s.slots.map Slot.request :=
    (h.runs.filter_isRequestLine .initial).symm
  have hnewline : (∀ line ∈ s.trees.map Sexp.text, '\n' ∉ line) ↔
      ∀ logic, .setLogic logic ∈ s.commands → '\n' ∉ logic :=
    h.runs.newline_not_mem_iff (fun _ => h.built) rfl
  refine ⟨⟨printed, _, hprint, hlines, hlength, htext, hrequests⟩, ?_⟩
  -- the text splits into what is written of the commands if none of it can be split
  rw [← hnewline, ← Text.splitOn_flatMap_newline, ← htext]
  refine ⟨?_, fun hsplit => ?_⟩
  · rintro ⟨printed', lines, hprint', hlines', -, hsplit, -⟩
    obtain rfl := Except.ok.inj (hprint.symm.trans hprint')
    obtain rfl := List.map_injective_iff.mpr (fun _ _ => Except.ok.inj) (hlines.symm.trans hlines')
    exact hsplit
  · refine ⟨printed, _, hprint, hlines, hlength, hsplit, ?_⟩
    rw [hsplit, List.filter_append, hrequests]
    exact List.append_nil _

theorem sample_lineByLine : sample.Reachable ∧ sample.LineByLine := by
  obtain ⟨-, hiff⟩ := Reachable.lineByLine_iff sample_reachable
  refine ⟨sample_reachable, hiff.mpr fun logic h => ?_⟩
  have hlogic : logic = "LIA" := logic_eq_of_calls (by simp [sampleCalls, Call.commands]) h
  rw [hlogic]
  decide

/-- A logic whose name ends its line, and goes on like another command. -/
def injectedCalls : List (Call arith) := [.setLogic "A)\n(check-sat"]

def injected : Script arith := injectedCalls.foldl perform empty

/-- One command is written on two lines; the second one asks for an answer, and none is
owed. -/
theorem injected_not_lineByLine :
    injected.Reachable ∧ injected.commands.length = 1 ∧ injected.slots = [] ∧
      injected.print.map (fun printed => printed.text.splitOn '\n') =
        .ok ["(set-logic A)", "(check-sat)", []] ∧
      ¬ injected.LineByLine := by
  have htext : injected.print.map (fun printed => printed.text.splitOn '\n') =
      .ok ["(set-logic A)", "(check-sat)", []] := by decide +kernel
  have hreach : injected.Reachable :=
    Reachable.empty.foldl (by simp [injectedCalls, Call.Built, Call.commands])
  refine ⟨hreach, rfl, rfl, htext, ?_⟩
  rintro ⟨printed, lines, hprint, -, hlength, hsplit, -⟩
  rw [hprint] at htext
  have hpieces : printed.text.splitOn '\n' = (["(set-logic A)", "(check-sat)", []] : List Text) :=
    Except.ok.inj htext
  have hcount := congrArg List.length (hpieces.symm.trans hsplit)
  rw [List.length_append, hlength] at hcount
  exact absurd hcount (by decide)

end Script

end SmtScript
