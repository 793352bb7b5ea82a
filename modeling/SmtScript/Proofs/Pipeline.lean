import Mathlib.Data.List.TakeWhile
import SmtScript.Arith.Value
import SmtScript.Pipeline
import SmtScript.Proofs.Script.Printing

/-!
A run of a reachable script: it is always written, the backend is given that text and
nothing else, and what the backend gives decides the outcome.
-/

namespace SmtScript

namespace Text

lemma trimEnd_eq_nil {t : Text} : t.trimEnd = [] ↔ ∀ c ∈ t, isBlank c = true := by
  simp [trimEnd, List.dropWhile_eq_nil_iff]

/-- Nothing is left of a text of white space. -/
lemma trim_eq_nil {t : Text} : t.trim = [] ↔ ∀ c ∈ t, isBlank c = true := by
  unfold trim
  rw [trimEnd_eq_nil, trimStart]
  refine ⟨?_, ?_⟩
  · intro h c hc
    rw [← List.takeWhile_append_dropWhile (p := isBlank) (l := t), List.mem_append] at hc
    rcases hc with hc | hc
    · exact List.mem_takeWhile_imp hc
    · exact h c hc
  · exact fun h c hc => h c ((List.dropWhile_suffix isBlank).subset hc)

end Text

/-- Exit code zero, and nothing but white space on the error stream. -/
def RunOutput.Clean (out : RunOutput) : Prop :=
  out.status = some 0 ∧ ∀ c ∈ out.stderr, Text.isBlank c = true

lemma RunOutput.success_iff {out : RunOutput} : out.success = true ↔ out.Clean := by
  simp [success, Clean, Text.trim_eq_nil]

/-- The backend, with a record of the texts that it is given. -/
def Backend.recorded {m : Type → Type} [Monad m] (backend : Backend m) :
    Backend (StateT (List Text) m) :=
  fun input log => (fun reply => (reply, log ++ [input])) <$> backend input

namespace Script

variable {T : Theory}

/-- The outcome of a run, from what the backend gave. -/
def outcome (s : Script T) (r : Recognizer T) :
    Except SolverError RunOutput → Except RunError (List (Answer T))
  | .error e => .error (.solver e)
  | .ok out => s.answersOf r out

lemma outcome_of_not_clean {s : Script T} {r : Recognizer T} {out : RunOutput}
    (h : ¬ out.Clean) :
    s.outcome r (.ok out) = .error (.solver (.failed out.status out.stderr)) := by
  rw [outcome, answersOf, if_neg (RunOutput.success_iff.not.mpr h)]

lemma outcome_of_clean {s : Script T} {r : Recognizer T} {out : RunOutput} (h : out.Clean) :
    s.outcome r (.ok out) = (Reply.decode r s.slots out.stdout).mapError .decode := by
  rw [outcome, answersOf, if_pos (RunOutput.success_iff.mpr h)]
  split <;> simp [Except.mapError, *]

lemma outcome_ne_build (s : Script T) (r : Recognizer T)
    (reply : Except SolverError RunOutput) (e : BuildError) :
    s.outcome r reply ≠ .error (.build e) := by
  cases reply with
  | error => exact nofun
  | ok out =>
    by_cases h : out.Clean
    · rw [outcome_of_clean h]
      cases Reply.decode r s.slots out.stdout <;> simp [Except.mapError]
    · rw [outcome_of_not_clean h]
      exact nofun

lemma outcome_eq_ok {s : Script T} {r : Recognizer T} {reply : Except SolverError RunOutput}
    {answers : List (Answer T)} :
    s.outcome r reply = .ok answers ↔
      ∃ out, reply = .ok out ∧ out.Clean ∧ Reply.decode r s.slots out.stdout = .ok answers := by
  cases reply with
  | error => exact ⟨nofun, nofun⟩
  | ok out =>
    by_cases h : out.Clean
    · rw [outcome_of_clean h]
      cases hd : Reply.decode r s.slots out.stdout <;> simp [Except.mapError, h, hd]
    · rw [outcome_of_not_clean h]
      simp [h]

section

variable {m : Type → Type} [Monad m] [LawfulMonad m]

lemma run_of_print {s : Script T} {printed : Printed T} (h : s.print = .ok printed)
    (backend : Backend m) :
    s.run backend = s.outcome printed.recognizer <$> backend printed.text := by
  rw [run, h, ← bind_pure_comp]
  refine bind_congr fun reply => ?_
  cases reply <;> rfl

lemma run_recorded {s : Script T} {printed : Printed T} (h : s.print = .ok printed)
    (backend : Backend m) (log : List Text) :
    (s.run backend.recorded).run log =
      (fun reply => (s.outcome printed.recognizer reply, log ++ [printed.text])) <$>
        backend printed.text := by
  rw [run_of_print h, StateT.run_map]
  simp [StateT.run, Backend.recorded]

/-- **An accepted script always runs.** It is written without an error; the backend is given
that text, once, and nothing else; the outcome is never an error of building. There are
answers exactly if the backend ran, its status is zero, its error stream is blank and the
whole output decodes. A failed run is reported with its status and error stream. -/
theorem Reachable.run_outcome {s : Script T} (h : s.Reachable) :
    ∃ printed, s.print = .ok printed ∧
      ∃ outcome : Except SolverError RunOutput → Except RunError (List (Answer T)),
        (∀ backend : Backend m, s.run backend = outcome <$> backend printed.text ∧
          ∀ log, (s.run backend.recorded).run log =
            (fun reply => (outcome reply, log ++ [printed.text])) <$> backend printed.text) ∧
        (∀ reply e, outcome reply ≠ .error (.build e)) ∧
        (∀ reply answers, outcome reply = .ok answers ↔ ∃ out, reply = .ok out ∧ out.Clean ∧
          Reply.decode printed.recognizer s.slots out.stdout = .ok answers) ∧
        (∀ out, ¬ out.Clean →
          outcome (.ok out) = .error (.solver (.failed out.status out.stderr))) ∧
        ∀ e, outcome (.error e) = .error (.solver e) := by
  obtain ⟨last, -, -, hprint⟩ := h.print_eq
  refine ⟨_, hprint, s.outcome (.numbered s.context last.live), ?_, ?_, ?_, ?_, ?_⟩
  · exact fun backend => ⟨run_of_print hprint backend, run_recorded hprint backend⟩
  · exact s.outcome_ne_build _
  · exact fun _ _ => outcome_eq_ok
  · exact fun _ => outcome_of_not_clean
  · exact fun _ => rfl

/-- A solver that is killed while it runs the sample. -/
theorem run_sample_killed :
    sample.Reachable ∧
      (sample.run (Backend.recorded (m := Id) fun _ => .ok ⟨none, "sat", "out of memory"⟩)).run [] =
        pure (.error (.solver (.failed none "out of memory")), [sampleText]) := by
  obtain ⟨printed, hprint, outcome, hrun, -, -, hfail, -⟩ :=
    Reachable.run_outcome (m := Id) sample_reachable
  have htext : printed.text = sampleText := map_of_ok hprint sample_print
  refine ⟨sample_reachable, ?_⟩
  rw [(hrun _).2, htext, ← hfail ⟨none, "sat", "out of memory"⟩ (by simp [RunOutput.Clean])]
  rfl

end

end Script

end SmtScript
