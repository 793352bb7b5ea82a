import SmtScript.Proofs.Script.Faithful
import SmtScript.Proofs.Sexp.Sequence

/-!
The text of a script is read like a reply, one list for each command. Every line is the
canonical text of its tree in literal normal form, where a negative number is a list of its
own, as it is for a reader.
-/

namespace SmtScript

open Lexeme

namespace Command

variable {T : Theory} {P : T.Literal → Prop}

/-- What is written of each command, under the naming that those before it leave. -/
def printLines : List (Command T) → Naming → List (Except BuildError Text)
  | [], _ => []
  | c :: rest, names => (c.print names).1.map Printed.text :: printLines rest (c.print names).2

lemma length_trees (cs : List (Command T)) (names : Naming) :
    (trees cs names).length = cs.length := by
  induction cs generalizing names with
  | nil => rfl
  | cons c cs ih => rw [trees, List.length_cons, ih, List.length_cons]

lemma exists_eq_list_of_mem_trees {cs : List (Command T)} {names : Naming} {line : Sexp}
    (h : line ∈ trees cs names) : ∃ items, line = .list items := by
  induction cs generalizing names with
  | nil => cases h
  | cons c cs ih =>
    rw [trees, List.mem_cons] at h
    rcases h with rfl | h
    · exact ⟨_, c.sexp_eq names⟩
    · exact ih h

/-- The atoms of all lines are keywords, logics and symbols. -/
lemma atoms_trees {Q : Text → Prop} (hsymbol : ∀ a, T.Symbol P a → Q a)
    (hkeyword : ∀ c : Command T, Q c.keyword) {ctx : Context T} {cs : List (Command T)}
    (h : ProperAll P ctx cs) (hlogic : ∀ logic, .setLogic logic ∈ cs → Q logic)
    {names : Naming} (hd : names.depth = ctx.length) :
    ∀ line ∈ trees cs names, line.Atoms Q := by
  induction h generalizing names with
  | nil => exact nofun
  | @cons ctx c cs hc _ ih =>
    have hfirst := atoms_sexp hd hsymbol hc (hkeyword c) fun logic heq =>
      hlogic logic (heq ▸ List.mem_cons_self)
    have hrest := ih (fun logic hl => hlogic logic (List.mem_cons_of_mem c hl))
      (depth_namingAfter hd)
    rw [trees, List.forall_mem_cons]
    exact ⟨hfirst, hrest⟩

end Command

open Command

/-- Accepted commands are written as their trees. -/
lemma Runs.printLines_eq {T : Theory} {st st' : ScriptState T} {cs : List (Command T)}
    (h : Runs st cs st') {names : Naming} (hd : names.depth = st.context.length) :
    printLines cs names = (trees cs names).map fun line => .ok line.text := by
  induction h generalizing names with
  | nil => rfl
  | @cons st st' c cs hc _ ih =>
    rw [printLines, print_of_fits hc hd, trees, List.map_cons]
    exact congrArg _ (ih (depth_namingAfter hd))

namespace Script

/-- The trees of a script's lines in literal normal form. -/
def normalTrees (s : Script arith) : List Sexp :=
  Command.trees (s.commands.map literalNormal) .initial

lemma Reachable.printLines_eq {s : Script arith} (h : s.Reachable) :
    printLines s.commands .initial = s.normalTrees.map fun line => .ok line.text := by
  have htext := congrArg (List.map (Except.ok (ε := BuildError)))
    (text_trees_literalNormal s.commands .initial)
  rw [List.map_map, List.map_map] at htext
  rw [h.runs.printLines_eq rfl]
  exact htext.symm

/-- Each line can be read if it is not nested too deep. -/
lemma Reachable.canonical {s : Script arith} (h : s.Reachable)
    (hlogic : ∀ logic, .setLogic logic ∈ s.commands → Unquoted logic) {line : Sexp}
    (hline : line ∈ s.normalTrees) (hnesting : Sexp.nesting line.text ≤ Sexp.maxDepth) :
    line.Canonical := by
  have hproper : ProperAll Arith.Constant.Unsigned [] (s.commands.map literalNormal) :=
    properAll_literalNormal h.runs (fun _ => h.built) fun logic hl => (hlogic logic hl).1
  have hunquoted : line.Atoms Unquoted :=
    atoms_trees (fun _ => Arith.unquoted_symbol) unquoted_keyword hproper
      (fun logic hl => hlogic logic (setLogic_mem_literalNormal hl)) rfl line hline
  have hdepth : Sexp.nesting line.text = line.depth :=
    Sexp.nesting_text (hunquoted.mono fun _ ha => ha.1)
  exact ⟨hunquoted.mono fun _ => .inl, hdepth ▸ hnesting⟩

/-- **The text of a script is read back**, one list for each command and nothing more, if the
logics that it names are unquoted atoms and no line is nested deeper than a reader goes. The
lists have the lines as their canonical texts, in order. -/
theorem Reachable.readAll_print {s : Script arith} (h : s.Reachable)
    (hlogic : ∀ logic, .setLogic logic ∈ s.commands → Unquoted logic)
    (hnesting : ∀ line, .ok line ∈ printLines s.commands .initial →
      Sexp.nesting line ≤ Sexp.maxDepth) :
    ∃ printed exprs, s.print = .ok printed ∧
      Sexp.readAll printed.text = (exprs, .unexpectedEnd) ∧
      exprs.length = s.commands.length ∧
      printLines s.commands .initial = exprs.map (fun e => .ok e.text) ∧
      ∀ e ∈ exprs, ∃ items, e = .list items := by
  have hlines := h.printLines_eq
  have hcanonical : ∀ line ∈ s.normalTrees, line.Canonical := by
    intro line hline
    refine h.canonical hlogic hline (hnesting line.text ?_)
    rw [hlines]
    exact List.mem_map_of_mem hline
  obtain ⟨-, -, hprint⟩ := h.print_eq_lines
  refine ⟨_, s.normalTrees, hprint, ?_, ?_, hlines, fun _ => exists_eq_list_of_mem_trees⟩
  · rw [← lines_literalNormal, lines_eq_flatMap]
    exact Sexp.readAll_lines hcanonical
  · rw [normalTrees, length_trees, List.length_map]

/-- Some real is less than a negative fraction. -/
def fractionTerm : Term arith :=
  .quant .existential 1 Arith.Srt.real
    (.app (Arith.Op.lt .real) [.var 1 Arith.Srt.real, .lit (Arith.Constant.real (-1 / 3))])

def fractionCalls : List (Call arith) :=
  [.setLogic "AUFLIRA", .declareConst Arith.Srt.int, .assert fractionTerm, .checkSat]

def fraction : Script arith := fractionCalls.foldl perform empty

/-- The lines of `fraction`. -/
def fractionLines : List Text :=
  ["(set-logic AUFLIRA)", "(declare-const x0 Int)",
    "(assert (exists ((x1 Real)) (< x1 (- (/ 1.0 3.0)))))", "(check-sat)"]

lemma printLines_fraction :
    printLines fraction.commands .initial = fractionLines.map Except.ok := by
  decide +kernel

lemma fraction_reachable : fraction.Reachable := by
  have hargs : ∀ t ∈ ([.var 1 Arith.Srt.real, .lit (Arith.Constant.real (-1 / 3))] :
      List (Term arith)), t.Built := by
    rw [List.forall_mem_cons, List.forall_mem_singleton]
    exact ⟨Term.built_var [Arith.Srt.int, Arith.Srt.real] rfl, .lit _⟩
  have hbuilt : fractionTerm.Built :=
    Term.built_quant [Arith.Srt.int] (Term.built_app hargs rfl) rfl rfl
  exact reachable_of_assert_eq hbuilt (by simp [fractionCalls, Call.commands])

theorem fraction_readAll :
    fraction.Reachable ∧ ∃ printed exprs, fraction.print = .ok printed ∧
      Sexp.readAll printed.text = (exprs, .unexpectedEnd) ∧ exprs.length = 4 ∧
      fractionLines.map Except.ok = exprs.map (fun e => .ok (ε := BuildError) e.text) ∧
      ∀ e ∈ exprs, ∃ items, e = .list items := by
  rw [← printLines_fraction]
  refine ⟨fraction_reachable, fraction_reachable.readAll_print ?_ ?_⟩
  · intro logic h
    have hlogic : logic = "AUFLIRA" := logic_eq_of_calls (by simp [fractionCalls, Call.commands]) h
    rw [hlogic]
    decide
  · intro line h
    rw [printLines_fraction] at h
    have hall : ∀ line ∈ fractionLines, Sexp.nesting line ≤ Sexp.maxDepth := by decide
    obtain ⟨line', hline, heq⟩ := List.mem_map.mp h
    exact Except.ok.inj heq ▸ hall line' hline

end Script

end SmtScript
