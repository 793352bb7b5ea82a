import Mathlib.Data.List.Basic
import SmtScript.Proofs.Term.Typing
import SmtScript.Script.Basic
import SmtScript.Arith.Value

/-!
The scripts there are: those that calls lead to from the empty script, accepted or refused.

`Runs` follows a list of commands from state to state, each of them accepted. A reachable
script is in the state to which its commands run, and its terms come from the constructors.
-/

namespace SmtScript

variable {T : Theory}

/-! ### What a command does -/

namespace Command

/-- The context after a command. -/
def contextAfter (ctx : Context T) : Command T → Context T
  | .declareConst sort => ctx.extend sort
  | _ => ctx

lemma context_prefix (c : Command T) (ctx : Context T) : ctx <+: c.contextAfter ctx := by
  cases c with
  | declareConst sort => exact List.prefix_append _ _
  | setLogic | assert | checkSat | getModel => exact List.prefix_rfl

/-- The answers that a command asks for. -/
def owed (ctx : Context T) : Command T → List (Slot T)
  | .checkSat => [.verdict]
  | .getModel => [.model ctx]
  | _ => []

/-- What a command requires of the state. -/
def Fits (st : ScriptState T) : Command T → Prop
  | .assert t => t.check st.context = .ok () ∧ t.sort = T.boolSort
  | .getModel => st.latest? = some .verdict
  | _ => True

/-- The state after a command that fits. -/
def stateAfter (st : ScriptState T) (c : Command T) : ScriptState T :=
  ⟨c.contextAfter st.context, st.slots ++ c.owed st.context⟩

/-- **One step**: a command is accepted if it fits, and then extends the context or the
slots. -/
theorem apply_eq_ok {st st' : ScriptState T} {c : Command T} :
    c.apply st = .ok st' ↔ c.Fits st ∧ st' = c.stateAfter st := by
  obtain ⟨ctx, slots⟩ := st
  cases c with
  | setLogic logic => simp [apply, Fits, stateAfter, contextAfter, owed, eq_comm]
  | declareConst sort => simp [apply, Fits, stateAfter, contextAfter, owed, eq_comm]
  | checkSat => simp [apply, Fits, stateAfter, contextAfter, owed, eq_comm]
  | assert t =>
    simp only [apply, bind_eq_ok, pure_eq_ok, Term.expectBool_eq_ok.symm, Fits, stateAfter,
      contextAfter, owed, List.append_nil]
    refine ⟨?_, ?_⟩
    · rintro ⟨⟨⟩, hcheck, ⟨⟩, hbool, rfl⟩
      exact ⟨⟨hcheck, hbool⟩, rfl⟩
    · rintro ⟨⟨hcheck, hbool⟩, rfl⟩
      exact ⟨(), hcheck, (), hbool, rfl⟩
  | getModel =>
    simp only [apply, Fits, stateAfter, contextAfter, owed]
    split
    · next h => simp [h, eq_comm]
    · next h => simp [h]

end Command

/-! ### Runs -/

/-- The commands are accepted one after another. -/
inductive Runs : ScriptState T → List (Command T) → ScriptState T → Prop where
  | nil (st : ScriptState T) : Runs st [] st
  | cons {st st' : ScriptState T} {c : Command T} {cs : List (Command T)} (hc : c.Fits st)
      (h : Runs (c.stateAfter st) cs st') : Runs st (c :: cs) st'

lemma Runs.append {st st' st'' : ScriptState T} {cs ds : List (Command T)} (h : Runs st cs st')
    (h' : Runs st' ds st'') : Runs st (cs ++ ds) st'' := by
  induction h with
  | nil => exact h'
  | cons hc _ ih => exact .cons hc (ih h')

/-- Variables are only added. -/
lemma Runs.context_prefix {st st' : ScriptState T} {cs : List (Command T)} (h : Runs st cs st') :
    st.context <+: st'.context := by
  induction h with
  | nil => exact List.prefix_rfl
  | @cons st st' c cs _ _ ih => exact (c.context_prefix st.context).trans ih

/-- Answers are only added. -/
lemma Runs.slots_prefix {st st' : ScriptState T} {cs : List (Command T)} (h : Runs st cs st') :
    st.slots <+: st'.slots := by
  induction h with
  | nil => exact List.prefix_rfl
  | cons _ _ ih => exact (List.prefix_append _ _).trans ih

namespace Script

/-- The script that a step leaves, whether it is refused or not. -/
def Builder.scriptAfter {α : Type} (step : Builder T α) (s : Script T) : Script T :=
  match step.run s with
  | .ok _ next => next
  | .error _ left => left

lemma Builder.scriptAfter_of_ok {α : Type} {step : Builder T α} {s next : Script T} {a : α}
    (h : step.run s = .ok a next) : step.scriptAfter s = next := by
  rw [scriptAfter, h]

lemma run_push (c : Command T) (s : Script T) :
    (push c).run s = match c.apply s.state with
      | .ok st => .ok () ⟨s.commands ++ [c], st⟩
      | .error e => .error e s := by
  simp only [push, EStateM.run_bind, EStateM.run_get]
  cases c.apply s.state <;> rfl

lemma push_eq_ok {s next : Script T} {c : Command T} :
    (push c).run s = .ok () next ↔
      c.Fits s.state ∧ next = ⟨s.commands ++ [c], c.stateAfter s.state⟩ := by
  rw [run_push]
  refine ⟨fun h => ?_, ?_⟩
  · cases hst : c.apply s.state with
    | error e =>
      rw [hst] at h
      cases h
    | ok st =>
      obtain ⟨hfits, rfl⟩ := Command.apply_eq_ok.mp hst
      rw [hst] at h
      cases h
      exact ⟨hfits, rfl⟩
  · rintro ⟨hfits, rfl⟩
    rw [Command.apply_eq_ok.mpr ⟨hfits, rfl⟩]

/-- **A refused command leaves the script as it is**, neither in another state nor with
another command. -/
theorem push_eq_error {s left : Script T} {c : Command T} {e : BuildError} :
    (push c).run s = .error e left ↔ c.apply s.state = .error e ∧ left = s := by
  rw [run_push]
  cases c.apply s.state with
  | ok st => exact ⟨nofun, nofun⟩
  | error e' =>
    refine ⟨fun h => ?_, ?_⟩
    · cases h
      exact ⟨rfl, rfl⟩
    · rintro ⟨h, rfl⟩
      cases h
      rfl

lemma extend_cons (c : Command T) (cs : List (Command T)) (s : Script T) :
    (extend (c :: cs)).run s = match (push c).run s with
      | .ok _ next => (extend cs).run next
      | .error e left => .error e left := by
  rw [extend, List.forM_cons, EStateM.run_bind]
  cases (push c).run s <;> rfl

lemma extend_singleton (c : Command T) (s : Script T) :
    (extend [c]).run s = (push c).run s := by
  rw [extend_cons]
  cases (push c).run s <;> rfl

/-- More commands are pushed onto the script that the first ones give. -/
lemma extend_append {s next : Script T} {cs : List (Command T)}
    (h : (extend cs).run s = .ok () next) (ds : List (Command T)) :
    (extend (cs ++ ds)).run s = (extend ds).run next := by
  rw [extend] at h
  rw [extend, List.forM_append, EStateM.run_bind, h]
  rfl

/-- What stands after a refused command is not looked at. -/
lemma extend_of_refused {s next left : Script T} {cs : List (Command T)} {c : Command T}
    {k n : Nat} {e : BuildError} (hc : cs[k]? = some c)
    (htake : (extend (cs.take k)).run s = .ok () next)
    (hrefused : (push c).run next = .error e left) (hn : k < n) :
    (extend (cs.take n)).run s = .error e left := by
  obtain ⟨m, rfl⟩ := Nat.exists_eq_add_of_lt hn
  obtain ⟨hk, rfl⟩ := List.getElem?_eq_some_iff.mp hc
  calc (extend (cs.take (k + m + 1))).run s
    _ = (extend (cs.take k ++ cs[k] :: (cs.drop (k + 1)).take m)).run s := by
      rw [Nat.add_assoc, List.take_add, List.drop_eq_getElem_cons hk, List.take_succ_cons]
    _ = (extend (cs[k] :: (cs.drop (k + 1)).take m)).run next := extend_append htake _
    _ = .error e left := by rw [extend_cons, hrefused]

/-- Pushing commands accepts the first of them, up to one that is refused. -/
lemma extend_runs (s : Script T) (cs : List (Command T)) :
    ∃ accepted, accepted <+: cs ∧
      ((extend cs).scriptAfter s).commands = s.commands ++ accepted ∧
      Runs s.state accepted ((extend cs).scriptAfter s).state := by
  induction cs generalizing s with
  | nil => exact ⟨[], List.prefix_rfl, (List.append_nil _).symm, .nil _⟩
  | cons c cs ih =>
    rw [Builder.scriptAfter, extend_cons]
    cases hpush : (push c).run s with
    | error e left =>
      obtain ⟨-, rfl⟩ := push_eq_error.mp hpush
      exact ⟨[], List.nil_prefix, (List.append_nil _).symm, .nil _⟩
    | ok _ next =>
      obtain ⟨hfits, rfl⟩ := push_eq_ok.mp hpush
      obtain ⟨accepted, hprefix, hcommands, hruns⟩ := ih ⟨s.commands ++ [c], c.stateAfter s.state⟩
      refine ⟨c :: accepted, ?_, hcommands.trans ?_, .cons hfits hruns⟩
      · exact List.cons_prefix_cons.mpr ⟨rfl, hprefix⟩
      · rw [List.append_assoc, List.singleton_append]

end Script

/-! ### Calls -/

/-- A call on a script under construction. -/
inductive Call (T : Theory) where
  | push (c : Command T)
  | extend (cs : List (Command T))
  | setLogic (logic : Text)
  | declareConst (sort : T.Sorts)
  | assert (t : Term T)
  | checkSat
  | getModel

namespace Call

/-- The commands that a call pushes, in order. -/
def commands : Call T → List (Command T)
  | .push c => [c]
  | .extend cs => cs
  | .setLogic logic => [.setLogic logic]
  | .declareConst sort => [.declareConst sort]
  | .assert t => [.assert t]
  | .checkSat => [.checkSat]
  | .getModel => [.getModel]

/-- The terms that the call asserts come from the constructors. -/
def Built (call : Call T) : Prop := ∀ t, .assert t ∈ call.commands → t.Built

end Call

namespace Script

/-- The script after a call, whether it was accepted or not. -/
def perform (s : Script T) : Call T → Script T
  | .push c => (push c).scriptAfter s
  | .extend cs => (extend cs).scriptAfter s
  | .setLogic logic => (setLogic logic).scriptAfter s
  | .declareConst sort => (declareConst sort).scriptAfter s
  | .assert t => (assert t).scriptAfter s
  | .checkSat => checkSat.scriptAfter s
  | .getModel => getModel.scriptAfter s

lemma push_declareConst (s : Script T) (sort : T.Sorts) :
    (push (.declareConst sort)).run s = .ok () ⟨s.commands ++ [.declareConst sort],
      (Command.declareConst sort).stateAfter s.state⟩ :=
  push_eq_ok.mpr ⟨trivial, rfl⟩

/-- A declaration is always accepted, and gives the variable at the first free position. -/
lemma declareConst_eq (s : Script T) (sort : T.Sorts) :
    (declareConst sort).run s =
      .ok (.var s.context.length sort) ⟨s.commands ++ [.declareConst sort],
        (Command.declareConst sort).stateAfter s.state⟩ := by
  have hvar : Term.mkVar (s.context.extend sort) s.context.length sort =
      .ok (.var s.context.length sort) :=
    Term.mkVar_eq_ok.mpr ⟨by simp [Context.extend], rfl⟩
  have hcontext (commands : List (Command T)) : Script.context ⟨commands,
      (Command.declareConst sort).stateAfter s.state⟩ = s.context.extend sort := rfl
  simp only [declareConst, EStateM.run_bind, EStateM.run_get, push_declareConst, hcontext, hvar]
  rfl

lemma perform_declareConst (s : Script T) (sort : T.Sorts) :
    s.perform (.declareConst sort) = ⟨s.commands ++ [.declareConst sort],
      (Command.declareConst sort).stateAfter s.state⟩ :=
  Builder.scriptAfter_of_ok (declareConst_eq s sort)

/-- Every call pushes its commands. -/
lemma perform_eq (s : Script T) (call : Call T) :
    s.perform call = (extend call.commands).scriptAfter s := by
  cases call with
  | extend cs => rfl
  | declareConst sort =>
    rw [perform_declareConst, Call.commands, Builder.scriptAfter, extend_singleton,
      push_declareConst]
  | push | setLogic | assert | checkSat | getModel =>
    rw [Call.commands, Builder.scriptAfter, extend_singleton]
    rfl

/-- A call adds no commands but its own. -/
lemma mem_commands_perform {s : Script T} {call : Call T} {c : Command T}
    (h : c ∈ (s.perform call).commands) : c ∈ s.commands ∨ c ∈ call.commands := by
  obtain ⟨accepted, hprefix, hcommands, -⟩ := s.extend_runs call.commands
  rw [perform_eq, hcommands, List.mem_append] at h
  exact h.imp_right fun h => hprefix.subset h

lemma mem_commands_foldl {s : Script T} {calls : List (Call T)} {c : Command T}
    (h : c ∈ (calls.foldl perform s).commands) :
    c ∈ s.commands ∨ ∃ call ∈ calls, c ∈ call.commands := by
  induction calls generalizing s with
  | nil => exact .inl h
  | cons call calls ih =>
    rcases ih h with h | ⟨call', hmem, hc⟩
    · exact (mem_commands_perform h).imp_right fun h => ⟨call, by simp, h⟩
    · exact .inr ⟨call', List.mem_cons_of_mem call hmem, hc⟩

/-- Scripts that calls lead to from the empty one, their terms built by the constructors in
any contexts. -/
inductive Reachable : Script T → Prop where
  | empty : Reachable empty
  | perform {s : Script T} (h : Reachable s) {call : Call T} (hb : call.Built) :
      Reachable (s.perform call)

/-- Calls one after another. -/
lemma Reachable.foldl {s : Script T} (h : s.Reachable) {calls : List (Call T)}
    (hb : ∀ call ∈ calls, call.Built) : (calls.foldl Script.perform s).Reachable := by
  induction calls generalizing s with
  | nil => exact h
  | cons call calls ih =>
    obtain ⟨hcall, hcalls⟩ := List.forall_mem_cons.mp hb
    exact ih (h.perform hcall) hcalls

/-- Calls that assert only one term. -/
lemma reachable_of_assert_eq {t : Term T} (ht : t.Built) {calls : List (Call T)}
    (h : ∀ call ∈ calls, ∀ u, .assert u ∈ call.commands → u = t) :
    (calls.foldl Script.perform empty).Reachable := by
  refine Reachable.empty.foldl fun call hcall u hu => ?_
  rwa [h call hcall u hu]

/-- Calls that name only one logic. -/
lemma logic_eq_of_calls {name : Text} {calls : List (Call T)}
    (h : ∀ call ∈ calls, ∀ logic, .setLogic logic ∈ call.commands → logic = name) {logic : Text}
    (hl : .setLogic logic ∈ (calls.foldl Script.perform empty).commands) : logic = name := by
  rcases mem_commands_foldl hl with hl | ⟨call, hcall, hl⟩
  · cases hl
  · exact h call hcall logic hl

/-- **One call**: the commands still run to the state. -/
lemma runs_perform {s : Script T} (h : Runs .initial s.commands s.state) (call : Call T) :
    Runs .initial (s.perform call).commands (s.perform call).state := by
  rw [perform_eq]
  obtain ⟨accepted, -, hcommands, hruns⟩ := s.extend_runs call.commands
  rw [hcommands]
  exact h.append hruns

/-- **A reachable script is in the state to which its commands run.** -/
theorem Reachable.runs {s : Script T} (h : s.Reachable) : Runs .initial s.commands s.state := by
  induction h with
  | empty => exact .nil _
  | perform _ _ ih => exact runs_perform ih _

theorem Reachable.built {s : Script T} (h : s.Reachable) {t : Term T}
    (ht : .assert t ∈ s.commands) : t.Built := by
  induction h with
  | empty => cases ht
  | perform _ hb ih =>
    rcases mem_commands_perform ht with ht | ht
    · exact ih ht
    · exact hb t ht

/-! ### A reachable script -/

/-- Some integer is less than the variable at the first position. -/
def sampleTerm : Term arith :=
  .quant .existential 1 Arith.Srt.int
    (.app (Arith.Op.lt .int) [.var 1 Arith.Srt.int, .var 0 Arith.Srt.int])

/-- A quantified assertion stands between the two declarations. -/
def sampleCalls : List (Call arith) :=
  [.setLogic "LIA", .getModel, .declareConst Arith.Srt.int,
    .extend [.assert sampleTerm, .declareConst Arith.Srt.real, .checkSat], .getModel]

def sample : Script arith := sampleCalls.foldl perform empty

lemma sampleTerm_built : sampleTerm.Built := by
  have hvar : ∀ t ∈ ([.var 1 Arith.Srt.int, .var 0 Arith.Srt.int] : List (Term arith)),
      t.Built := by
    rw [List.forall_mem_cons, List.forall_mem_singleton]
    exact ⟨Term.built_var [Arith.Srt.int, Arith.Srt.int] rfl, Term.built_var [Arith.Srt.int] rfl⟩
  exact Term.built_quant [Arith.Srt.int] (Term.built_app hvar rfl) rfl rfl

lemma sample_reachable : sample.Reachable :=
  reachable_of_assert_eq sampleTerm_built (by simp [sampleCalls, Call.commands])

end Script

end SmtScript
