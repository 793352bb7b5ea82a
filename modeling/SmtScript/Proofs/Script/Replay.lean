import SmtScript.Proofs.Script.Reachable

/-!
Scripts as replays. A script keeps its commands and the state they lead to apart, and both
change with every command that is accepted; they agree whatever has been called before. A
call that is refused changes nothing, except that a batch keeps the commands before the one
that is refused.
-/

namespace SmtScript.Script

variable {T : Theory}

/-- The script that calls lead to, some of which may have been refused. -/
def ofCalls (calls : List (Call T)) : Script T := calls.foldl perform empty

/-! ### Pushing commands one by one -/

/-- The commands are pushed one by one, and each of them is accepted. -/
inductive Accepts : Script T → List (Command T) → Script T → Prop where
  | nil (s : Script T) : Accepts s [] s
  | cons {s first next : Script T} {c : Command T} {cs : List (Command T)}
      (hpush : (push c).run s = .ok () first) (h : Accepts first cs next) :
      Accepts s (c :: cs) next

/-- Commands are all accepted if they run. -/
lemma accepts_iff_runs {s next : Script T} {cs : List (Command T)} :
    Accepts s cs next ↔ next.commands = s.commands ++ cs ∧ Runs s.state cs next.state := by
  refine ⟨fun h => ?_, ?_⟩
  · induction h with
    | nil s => exact ⟨(List.append_nil _).symm, .nil _⟩
    | cons hpush _ ih =>
      obtain ⟨hfits, rfl⟩ := push_eq_ok.mp hpush
      obtain ⟨hcommands, hruns⟩ := ih
      refine ⟨?_, .cons hfits hruns⟩
      rw [hcommands, List.append_assoc, List.singleton_append]
  · rintro ⟨hcommands, hruns⟩
    induction cs generalizing s with
    | nil =>
      obtain ⟨commands, state⟩ := s
      obtain ⟨commands', state'⟩ := next
      cases hruns
      obtain rfl : commands' = commands := hcommands.trans (List.append_nil _)
      exact .nil _
    | cons c cs ih =>
      obtain _ | ⟨hfits, hruns⟩ := hruns
      refine .cons (push_eq_ok.mpr ⟨hfits, rfl⟩) (ih ?_ hruns)
      rw [hcommands, List.append_assoc, List.singleton_append]

/-- A batch is accepted if each of its commands is. -/
lemma extend_eq_ok {s next : Script T} {cs : List (Command T)} :
    (extend cs).run s = .ok () next ↔ Accepts s cs next := by
  refine ⟨fun h => ?_, fun h => ?_⟩
  · induction cs generalizing s with
    | nil =>
      cases h
      exact .nil _
    | cons c cs ih =>
      rw [extend_cons] at h
      cases hpush : (push c).run s with
      | error e left =>
        rw [hpush] at h
        cases h
      | ok _ first =>
        rw [hpush] at h
        exact .cons hpush (ih h)
  · induction h with
    | nil => rfl
    | cons hpush _ ih =>
      rw [extend_cons, hpush]
      exact ih

/-- A batch ends at the first command that is refused, in the script that this one leaves. -/
lemma exists_of_extend_eq_error {s left : Script T} {cs : List (Command T)} {e : BuildError}
    (h : (extend cs).run s = .error e left) :
    ∃ k c, cs[k]? = some c ∧ Accepts s (cs.take k) left ∧ (push c).run left = .error e left := by
  induction cs generalizing s with
  | nil => cases h
  | cons c cs ih =>
    rw [extend_cons] at h
    cases hpush : (push c).run s with
    | error e' left' =>
      obtain ⟨-, rfl⟩ := push_eq_error.mp hpush
      rw [hpush] at h
      cases h
      exact ⟨0, c, rfl, .nil _, hpush⟩
    | ok _ first =>
      rw [hpush] at h
      obtain ⟨k, d, hd, htake, hrefused⟩ := ih h
      exact ⟨k + 1, d, hd, .cons hpush htake, hrefused⟩

/-- Nothing that goes beyond a refused command is accepted. -/
lemma not_accepts_take {s next left last : Script T} {cs : List (Command T)} {c : Command T}
    {k n : Nat} {e : BuildError} (hc : cs[k]? = some c) (htake : Accepts s (cs.take k) next)
    (hrefused : (push c).run next = .error e left) (hn : k < n) :
    ¬ Accepts s (cs.take n) last := by
  intro h
  cases (extend_of_refused hc (extend_eq_ok.mpr htake) hrefused hn).symm.trans (extend_eq_ok.mpr h)

/-! ### What calls lead to -/

/-- **The commands run to the state**, whatever has been called. -/
lemma runs_ofCalls (calls : List (Call T)) :
    Runs .initial (ofCalls calls).commands (ofCalls calls).state := by
  have hfoldl (s : Script T) (h : Runs .initial s.commands s.state) :
      Runs .initial (calls.foldl perform s).commands (calls.foldl perform s).state := by
    induction calls generalizing s with
    | nil => exact h
    | cons call calls ih => exact ih _ (runs_perform h call)
  exact hfoldl empty (.nil _)

lemma context_prefix_foldl (s : Script T) (calls : List (Call T)) :
    s.context <+: (calls.foldl perform s).context := by
  induction calls generalizing s with
  | nil => exact List.prefix_rfl
  | cons call calls ih =>
    obtain ⟨_, -, -, hruns⟩ := s.extend_runs call.commands
    have hcall : s.context <+: (s.perform call).context := by
      rw [perform_eq]
      exact hruns.context_prefix
    exact hcall.trans (ih _)

/-- A declared variable has its place in the script from then on. -/
lemma check_declared (s : Script T) (sort : T.Sorts) (calls : List (Call T)) :
    (Term.var s.context.length sort).check
      (calls.foldl perform (s.perform (.declareConst sort))).context = .ok () := by
  have hdeclared : (s.perform (.declareConst sort)).context = s.context.extend sort := by
    rw [perform_declareConst]
    rfl
  obtain ⟨more, hmore⟩ := context_prefix_foldl (s.perform (.declareConst sort)) calls
  rw [Term.check_var, ← hmore, hdeclared, Context.extend, List.append_assoc,
    List.getElem?_append_right (Nat.le_refl _), Nat.sub_self]
  rfl

/-- **A script is the replay of its commands, and a refused call leaves it as it was.** Its
commands are accepted again, and give the same script. A batch is accepted if its commands are,
one after another; a batch that is refused leaves the script of the commands before the first
that is refused, and gives the reason of that one, and nothing longer is accepted. A declaration
is never refused, and its variable stays in place. -/
theorem ofCalls_replay (calls : List (Call T)) :
    let s := ofCalls calls
    ofCommands s.commands = .ok s ∧
    (∀ c e left, (push c).run s = .error e left → left = s) ∧
    (∀ t e left, (assert t).run s = .error e left → left = s) ∧
    (∀ e left, getModel.run s = .error e left → left = s) ∧
    (∀ cs next, (extend cs).run s = .ok () next ↔ Accepts s cs next) ∧
    (∀ cs e left, (extend cs).run s = .error e left →
      ∃ k c, cs[k]? = some c ∧ Accepts s (cs.take k) left ∧ (push c).run left = .error e left ∧
        ∀ n, k < n → ∀ last, ¬ Accepts s (cs.take n) last) ∧
    ∀ sort, ∃ x, (declareConst sort).run s = .ok x (s.perform (.declareConst sort)) ∧
      ∀ later, x.check (ofCalls (calls ++ .declareConst sort :: later)).context = .ok () := by
  intro s
  refine ⟨?_, fun c e left h => ?_, fun t e left h => ?_, fun e left h => ?_,
    fun cs next => extend_eq_ok, fun cs e left h => ?_, fun sort => ?_⟩
  · have haccepts : Accepts empty s.commands s := accepts_iff_runs.mpr ⟨rfl, runs_ofCalls calls⟩
    rw [ofCommands, extend_eq_ok.mpr haccepts]
  · exact (push_eq_error.mp h).2
  · exact (push_eq_error.mp h).2
  · exact (push_eq_error.mp h).2
  · obtain ⟨k, c, hc, htake, hrefused⟩ := exists_of_extend_eq_error h
    exact ⟨k, c, hc, htake, hrefused, fun n hn last => not_accepts_take hc htake hrefused hn⟩
  · refine ⟨.var s.context.length sort, ?_, fun later => ?_⟩
    · rw [perform_declareConst]
      exact declareConst_eq s sort
    · have hlater : ofCalls (calls ++ .declareConst sort :: later) =
          later.foldl perform (s.perform (.declareConst sort)) := by
        rw [ofCalls, List.foldl_append, List.foldl_cons]
        rfl
      rw [hlater]
      exact check_declared s sort later

/-- The batch stops at the second request for a model, and keeps what came before it. -/
example : ∃ left : Script arith,
    (extend [.checkSat, .getModel, .getModel, .checkSat]).run empty =
      .error .getModelWithoutCheckSat left ∧ left.slots = [.verdict, .model []] := ⟨_, rfl, rfl⟩

end SmtScript.Script
