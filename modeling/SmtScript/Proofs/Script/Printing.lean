import SmtScript.Proofs.Recognizer
import SmtScript.Proofs.Script.Reachable
import SmtScript.Proofs.Term.Printing
import SmtScript.Script.Printer

/-!
How an accepted script is written. The check of a command looks at the context and its
printing at the naming; the two agree because every accepted command leaves the naming with
one name for each variable of the context.
-/

namespace SmtScript

variable {T : Theory}

namespace Command

/-- The tree of a command's line. -/
def sexp : Command T → Naming → Sexp
  | .setLogic logic, _ => .list [.atom "set-logic", .atom logic]
  | .declareConst sort, names =>
    .list [.atom "declare-const", .atom names.fresh, .atom (T.sortText sort)]
  | .assert t, names => .list [.atom "assert", t.sexp names]
  | .checkSat, _ => .list [.atom "check-sat"]
  | .getModel, _ => .list [.atom "get-model"]

/-- The naming after a command. -/
def namingAfter (names : Naming) : Command T → Naming
  | .declareConst _ => names.bind
  | .assert t => names.advance t.quantifiers
  | _ => names

/-- The naming after several commands. -/
def namingAfterAll (names : Naming) (cs : List (Command T)) : Naming :=
  cs.foldl (fun names c => c.namingAfter names) names

lemma namingAfterAll_cons (names : Naming) (c : Command T) (cs : List (Command T)) :
    namingAfterAll names (c :: cs) = namingAfterAll (c.namingAfter names) cs := rfl

lemma namingAfterAll_concat (names : Naming) (cs : List (Command T)) (c : Command T) :
    namingAfterAll names (cs ++ [c]) = c.namingAfter (namingAfterAll names cs) := by
  simp [namingAfterAll]

/-- The variables that a command declares. -/
def entries (names : Naming) : Command T → Recognizer T
  | .declareConst sort => [⟨names.fresh, sort, names.depth⟩]
  | _ => []

lemma text_sexp_setLogic (logic : Text) (names : Naming) :
    (sexp (.setLogic logic : Command T) names).text = "(set-logic " ++ logic ++ ")" := by
  simp [sexp, Sexp.text, Sexp.itemsText]

lemma text_sexp_declareConst (sort : T.Sorts) (names : Naming) :
    (sexp (.declareConst sort) names).text =
      "(declare-const " ++ names.fresh ++ " " ++ T.sortText sort ++ ")" := by
  simp [sexp, Sexp.text, Sexp.itemsText]

lemma text_sexp_assert (t : Term T) (names : Naming) :
    (sexp (.assert t) names).text = "(assert " ++ (t.sexp names).text ++ ")" := by
  simp [sexp, Sexp.text, Sexp.itemsText]

/-- **A command that fits is written**, under names for the variables of the context. -/
theorem print_of_fits {c : Command T} {st : ScriptState T} (hc : c.Fits st) {names : Naming}
    (hd : names.depth = st.context.length) :
    c.print names = (.ok ⟨(c.sexp names).text, c.entries names⟩, c.namingAfter names) := by
  cases c with
  | setLogic logic =>
    rw [print, text_sexp_setLogic]
    rfl
  | declareConst sort => rw [print, text_sexp_declareConst, entries, namingAfter]
  | checkSat => rfl
  | getModel => rfl
  | assert t =>
    have ht : t.Prints names := Term.prints_of_check hc.1 hd
    rw [print, ht, text_sexp_assert]
    rfl

lemma depth_namingAfter {c : Command T} {ctx : Context T} {names : Naming}
    (hd : names.depth = ctx.length) :
    (c.namingAfter names).depth = (c.contextAfter ctx).length := by
  cases c <;> simp [namingAfter, contextAfter, hd]

lemma ordered_namingAfter {c : Command T} {names : Naming} (h : names.Ordered) :
    (c.namingAfter names).Ordered := by
  cases c with
  | declareConst sort => exact h.bind
  | assert t => exact h.advance _
  | setLogic | checkSat | getModel => exact h

lemma numbered_namingAfter {c : Command T} {ctx : Context T} {names : Naming}
    (hd : names.depth = ctx.length) :
    Recognizer.numbered (c.contextAfter ctx) (c.namingAfter names).live =
      Recognizer.numbered ctx names.live ++ c.entries names := by
  cases c with
  | declareConst sort =>
    rw [contextAfter, namingAfter, Naming.live_bind, Recognizer.numbered_extend hd, ← hd]
    rfl
  | setLogic | assert | checkSat | getModel => simp [contextAfter, namingAfter, entries]

/-- The lines of the commands. -/
def lines : List (Command T) → Naming → Text
  | [], _ => []
  | c :: rest, names => (c.sexp names).text ++ '\n' :: lines rest (c.namingAfter names)

lemma lines_append (cs ds : List (Command T)) (names : Naming) :
    lines (cs ++ ds) names = lines cs names ++ lines ds (namingAfterAll names cs) := by
  induction cs generalizing names with
  | nil => rfl
  | cons c cs ih => simp [lines, ih, namingAfterAll_cons]

lemma lines_concat (cs : List (Command T)) (c : Command T) (names : Naming) :
    lines (cs ++ [c]) names =
      lines cs names ++ ((c.sexp (namingAfterAll names cs)).text ++ ("\n" : Text)) :=
  lines_append cs [c] names

/-- The trees of the lines. -/
def trees : List (Command T) → Naming → List Sexp
  | [], _ => []
  | c :: rest, names => c.sexp names :: trees rest (c.namingAfter names)

lemma lines_eq_flatMap (cs : List (Command T)) (names : Naming) :
    lines cs names = (trees cs names).flatMap fun line => line.text ++ ("\n" : Text) := by
  induction cs generalizing names with
  | nil => rfl
  | cons c cs ih => simp [lines, trees, ih]

end Command

open Command

/-- **Accepted commands are written**, each on its line; the recognizer has an entry for each
variable declared, in order and under increasing numbers. -/
theorem Runs.print_eq {st st' : ScriptState T} {cs : List (Command T)} (h : Runs st cs st')
    {names : Naming} (hd : names.depth = st.context.length) (ho : names.Ordered) :
    (namingAfterAll names cs).Ordered ∧ (namingAfterAll names cs).depth = st'.context.length ∧
      ∃ entries, printAll cs names = .ok ⟨lines cs names, entries⟩ ∧
        Recognizer.numbered st'.context (namingAfterAll names cs).live =
          Recognizer.numbered st.context names.live ++ entries := by
  induction h generalizing names with
  | nil st => exact ⟨ho, hd, [], rfl, (List.append_nil _).symm⟩
  | @cons st st' c cs hc _ ih =>
    have hd' : (c.namingAfter names).depth = (c.stateAfter st).context.length :=
      depth_namingAfter hd
    obtain ⟨hlast, hdepth, entries, hprint, hentries⟩ := ih hd' (ordered_namingAfter ho)
    refine ⟨hlast, hdepth, c.entries names ++ entries, ?_, ?_⟩
    · rw [printAll, print_of_fits hc hd]
      simp only [hprint, ok_bind, lines]
      simp [Recognizer.or, pure, Except.pure]
    · rw [namingAfterAll_cons, hentries, stateAfter, numbered_namingAfter hd, List.append_assoc]

namespace Script

/-- The trees of a script's lines. -/
def trees (s : Script T) : List Sexp := Command.trees s.commands .initial

/-- The naming after the commands of a script. -/
def naming (s : Script T) : Naming := namingAfterAll .initial s.commands

/-- A script is written, under one name for each variable of its context, if its commands
lead to its state. -/
lemma print_eq_of_runs {s : Script T} (h : Runs .initial s.commands s.state) :
    s.naming.Ordered ∧ s.naming.depth = s.context.length ∧
      s.print = .ok ⟨lines s.commands .initial, .numbered s.context s.naming.live⟩ := by
  obtain ⟨hlast, hdepth, entries, hprint, hentries⟩ :=
    h.print_eq (show Naming.initial.depth = _ from rfl) Naming.ordered_initial
  have hnumbered : Recognizer.numbered s.context s.naming.live = entries := hentries
  exact ⟨hlast, hdepth, by rw [hnumbered]; exact hprint⟩

/-- **A reachable script is written**, under one name for each variable of its context. -/
theorem Reachable.print_eq_lines {s : Script T} (h : s.Reachable) :
    s.naming.Ordered ∧ s.naming.depth = s.context.length ∧
      s.print = .ok ⟨lines s.commands .initial, .numbered s.context s.naming.live⟩ :=
  print_eq_of_runs h.runs

theorem Reachable.print_eq {s : Script T} (h : s.Reachable) :
    ∃ last : Naming, last.Ordered ∧ last.depth = s.context.length ∧
      s.print = .ok ⟨lines s.commands .initial, .numbered s.context last.live⟩ :=
  ⟨s.naming, h.print_eq_lines⟩

/-- The text of `sample`: the bound variable takes a number that the next constant skips. -/
def sampleText : Text :=
  "(set-logic LIA)\n(declare-const x0 Int)\n(assert (exists ((x1 Int)) (< x1 x0)))\n" ++
    "(declare-const x2 Real)\n(check-sat)\n(get-model)\n"

lemma sample_print : sample.print.map Printed.text = .ok sampleText := by decide +kernel

end Script

/-! ### The variables of a model -/

/-- A model is owed for the first variables of the context. -/
def Slot.Within (ctx : Context T) : Slot T → Prop
  | .verdict => True
  | .model first => first <+: ctx

lemma Slot.Within.mono {slot : Slot T} {ctx ctx' : Context T} (h : slot.Within ctx)
    (hctx : ctx <+: ctx') : slot.Within ctx' := by
  cases slot with
  | verdict => trivial
  | model first => exact List.IsPrefix.trans h hctx

namespace Command

lemma within_owed (c : Command T) (ctx : Context T) : ∀ slot ∈ c.owed ctx, slot.Within ctx := by
  intro slot hslot
  cases c with
  | checkSat =>
    obtain rfl := List.mem_singleton.mp hslot
    trivial
  | getModel =>
    obtain rfl := List.mem_singleton.mp hslot
    exact List.prefix_rfl
  | setLogic | declareConst | assert => cases hslot

end Command

lemma Runs.within {st st' : ScriptState T} {cs : List (Command T)} (h : Runs st cs st')
    (hst : ∀ slot ∈ st.slots, slot.Within st.context) :
    ∀ slot ∈ st'.slots, slot.Within st'.context := by
  induction h with
  | nil => exact hst
  | @cons st st' c cs hc _ ih =>
    refine ih fun slot hslot => ?_
    have hgrow : st.context <+: (c.stateAfter st).context := c.context_prefix st.context
    rcases List.mem_append.mp hslot with hold | hnew
    · exact (hst slot hold).mono hgrow
    · exact (c.within_owed st.context slot hnew).mono hgrow

/-- The variables of a model are the first ones of the script. -/
theorem Script.Reachable.within {s : Script T} (h : s.Reachable) :
    ∀ slot ∈ s.slots, slot.Within s.context :=
  h.runs.within nofun

end SmtScript
