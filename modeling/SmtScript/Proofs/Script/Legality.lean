import Mathlib.Data.List.Induction
import SmtScript.Proofs.Keys
import SmtScript.Proofs.Script.Reachable

/-!
Which commands may follow one another, said by position alone. A command is legal after
those before it if it is no assertion of a term that is out of place among the variables
declared, or not boolean, and no request for a model where the last request was not a
satisfiability check. A script is given exactly for the lists all of whose commands are
legal; its state can be read off the list. For any other list the reason is that of the
first command that is not legal.
-/

namespace SmtScript

variable {T : Theory}

namespace Command

/-- The sorts that the commands declare, in order. -/
def declared (cs : List (Command T)) : Context T :=
  cs.filterMap fun
    | .declareConst sort => some sort
    | _ => none

/-- Whether the command asks for an answer. -/
def isRequest : Command T → Bool
  | .checkSat | .getModel => true
  | _ => false

def lastRequest? (cs : List (Command T)) : Option (Command T) := (cs.filter isRequest).getLast?

/-- The answers that the commands ask for, in order; each model has the variables declared
before the request for it. -/
def requested (cs : List (Command T)) : List (Slot T) :=
  cs.zipIdx.flatMap fun (c, k) => c.owed (declared (cs.take k))

/-- The command may follow those before it. -/
def Legal (before : List (Command T)) : Command T → Prop
  | .assert t => t.check (declared before) = .ok () ∧ t.sort = T.boolSort
  | .getModel => lastRequest? before = some .checkSat
  | _ => True

/-- Why a command may not follow those before it. -/
inductive Illegal (before : List (Command T)) : Command T → BuildError → Prop where
  | misplaced {t : Term T} {e : BuildError} (h : t.check (declared before) = .error e) :
      Illegal before (.assert t) e
  | notBoolean {t : Term T} (hcheck : t.check (declared before) = .ok ())
      (h : t.sort ≠ T.boolSort) : Illegal before (.assert t) (.notBoolean (T.sortText t.sort))
  | unchecked (h : lastRequest? before ≠ some .checkSat) :
      Illegal before .getModel .getModelWithoutCheckSat

/-- The first `n` commands are legal, each after those before it. -/
def LegalUpTo (cs : List (Command T)) (n : Nat) : Prop :=
  ∀ k < n, ∀ c, cs[k]? = some c → c.Legal (cs.take k)

lemma Illegal.not_legal {before : List (Command T)} {c : Command T} {e : BuildError}
    (h : c.Illegal before e) : ¬ c.Legal before := by
  cases h with
  | misplaced h => exact fun hl => nomatch h.symm.trans hl.1
  | notBoolean _ h => exact fun hl => h hl.2
  | unchecked h => exact h

/-- A command is legal, or there is a reason why it is not. -/
lemma legal_or_illegal (before : List (Command T)) (c : Command T) :
    c.Legal before ∨ ∃ e, c.Illegal before e := by
  cases c with
  | setLogic | declareConst | checkSat => exact .inl trivial
  | assert t =>
    cases hcheck : t.check (declared before) with
    | error e => exact .inr ⟨e, .misplaced hcheck⟩
    | ok =>
      by_cases hbool : t.sort = T.boolSort
      · exact .inl ⟨hcheck, hbool⟩
      · exact .inr ⟨_, .notBoolean hcheck hbool⟩
  | getModel =>
    by_cases hlast : lastRequest? before = some .checkSat
    · exact .inl hlast
    · exact .inr ⟨_, .unchecked hlast⟩

lemma LegalUpTo.succ {cs : List (Command T)} {n : Nat} (h : LegalUpTo cs n)
    (hn : ∀ c, cs[n]? = some c → c.Legal (cs.take n)) : LegalUpTo cs (n + 1) := by
  intro k hk c hc
  rcases Nat.lt_succ_iff_lt_or_eq.mp hk with hlt | rfl
  · exact h k hlt c hc
  · exact hn c hc

lemma Illegal.not_legalUpTo {cs : List (Command T)} {k : Nat} {c : Command T} {e : BuildError}
    (hill : c.Illegal (cs.take k) e) (hc : cs[k]? = some c) : ¬ LegalUpTo cs cs.length := by
  have hk := (List.getElem?_eq_some_iff.mp hc).1
  exact fun h => hill.not_legal (h k hk c hc)

/-- The first command that is not legal, if there is one. -/
lemma legalUpTo_or_illegal (cs : List (Command T)) (n : Nat) :
    LegalUpTo cs n ∨
      ∃ k c e, cs[k]? = some c ∧ LegalUpTo cs k ∧ c.Illegal (cs.take k) e := by
  induction n with
  | zero => exact .inl nofun
  | succ n ih =>
    refine ih.elim (fun h => ?_) .inr
    cases hc : cs[n]? with
    | none => exact .inl (h.succ fun c hc' => nomatch hc.symm.trans hc')
    | some c =>
      rcases legal_or_illegal (cs.take n) c with hlegal | ⟨e, hill⟩
      · refine .inl (h.succ fun d hd => ?_)
        rwa [← Option.some.inj (hc.symm.trans hd)]
      · exact .inr ⟨n, c, e, hc, h, hill⟩

end Command

open Command

/-! ### The state after legal commands -/

/-- The state that legal commands lead to. -/
def ScriptState.reached (cs : List (Command T)) : ScriptState T := ⟨declared cs, requested cs⟩

/-- The script of legal commands. -/
def Script.reached (cs : List (Command T)) : Script T := ⟨cs, .reached cs⟩

namespace Command

lemma declared_concat (cs : List (Command T)) (c : Command T) :
    declared (cs ++ [c]) = c.contextAfter (declared cs) := by
  cases c <;> simp [declared, contextAfter, Context.extend]

lemma requested_concat (cs : List (Command T)) (c : Command T) :
    requested (cs ++ [c]) = requested cs ++ c.owed (declared cs) :=
  flatMap_zipIdx_concat (fun before (c : Command T) => c.owed (declared before)) cs c

lemma stateAfter_reached (cs : List (Command T)) (c : Command T) :
    c.stateAfter (.reached cs) = .reached (cs ++ [c]) := by
  rw [stateAfter, ScriptState.reached, ScriptState.reached, declared_concat, requested_concat]

/-- The last answer owed is a verdict if the last request was a satisfiability check. -/
lemma latest?_reached (cs : List (Command T)) :
    (ScriptState.reached cs).latest? = some .verdict ↔ lastRequest? cs = some .checkSat := by
  induction cs using List.reverseRecOn with
  | nil => exact ⟨nofun, nofun⟩
  | append_singleton cs c ih =>
    unfold ScriptState.reached ScriptState.latest? lastRequest? at ih ⊢
    rw [requested_concat, List.filter_append]
    cases c <;> simp [owed, isRequest, ih]

lemma fits_reached (cs : List (Command T)) (c : Command T) :
    c.Fits (.reached cs) ↔ c.Legal cs := by
  cases c with
  | getModel => exact latest?_reached cs
  | setLogic | declareConst | assert | checkSat => exact Iff.rfl

lemma apply_of_illegal {cs : List (Command T)} {c : Command T} {e : BuildError}
    (h : c.Illegal cs e) : c.apply (.reached cs) = .error e := by
  cases h with
  | misplaced h =>
    simp only [apply, ScriptState.reached, h]
    rfl
  | notBoolean hcheck h =>
    simp only [apply, ScriptState.reached, hcheck, ok_bind, Term.expectBool, if_neg h]
    rfl
  | unchecked h => exact if_neg ((latest?_reached cs).not.mpr h)

end Command

/-! ### Runs -/

/-- From the state that legal commands lead to, a run goes on with legal commands. -/
lemma Runs.legal {st st' : ScriptState T} {cs : List (Command T)} (h : Runs st cs st')
    {before : List (Command T)} (hst : st = .reached before) {k : Nat} {d : Command T}
    (hd : cs[k]? = some d) : d.Legal (before ++ cs.take k) := by
  induction h generalizing before k with
  | nil => cases hd
  | @cons st st' c cs hc _ ih =>
    subst hst
    cases k with
    | zero =>
      obtain rfl := Option.some.inj hd
      rw [List.take_zero, List.append_nil]
      exact (fits_reached before c).mp hc
    | succ k =>
      have hlegal := ih (stateAfter_reached before c) hd
      rwa [List.append_assoc, List.singleton_append] at hlegal

/-- **The commands of a reachable script are legal.** -/
theorem Script.Reachable.legal {s : Script T} (h : s.Reachable) :
    LegalUpTo s.commands s.commands.length := by
  have hrun : Runs (.reached []) s.commands s.state := h.runs
  exact fun k _ c hc => hrun.legal rfl hc

/-! ### Pushing commands -/

namespace Script

/-- **One step**: a legal command is accepted. -/
lemma push_of_legal {cs : List (Command T)} {c : Command T} (h : c.Legal cs) :
    (push c).run (reached cs) = .ok () (reached (cs ++ [c])) :=
  push_eq_ok.mpr ⟨(fits_reached cs c).mpr h, by rw [reached, reached, stateAfter_reached]⟩

lemma push_of_illegal {cs : List (Command T)} {c : Command T} {e : BuildError}
    (h : c.Illegal cs e) : (push c).run (reached cs) = .error e (reached cs) :=
  push_eq_error.mpr ⟨apply_of_illegal h, rfl⟩

/-- **A run**: the first commands are accepted as long as they are legal. -/
lemma extend_take {cs : List (Command T)} {n : Nat} (h : LegalUpTo cs n) (hn : n ≤ cs.length) :
    (extend (cs.take n)).run empty = .ok () (reached (cs.take n)) := by
  induction n with
  | zero => rfl
  | succ n ih =>
    have hc : cs[n]? = some cs[n] := List.getElem?_eq_getElem hn
    have hbefore := ih (fun k hk => h k (by omega)) (by omega)
    rw [List.take_add_one, hc, Option.toList_some, extend_append hbefore, extend_singleton,
      push_of_legal (h n (by omega) _ hc)]

lemma ofCommands_of_legal {cs : List (Command T)} (h : LegalUpTo cs cs.length) :
    ofCommands cs = .ok (reached cs) := by
  have hrun := extend_take h (Nat.le_refl _)
  rw [List.take_length] at hrun
  rw [ofCommands, hrun]

lemma ofCommands_of_illegal {cs : List (Command T)} {k : Nat} {c : Command T} {e : BuildError}
    (hc : cs[k]? = some c) (h : LegalUpTo cs k) (hill : c.Illegal (cs.take k) e) :
    ofCommands cs = .error e := by
  have hk : k < cs.length := (List.getElem?_eq_some_iff.mp hc).1
  have hrun := extend_of_refused hc (extend_take h (Nat.le_of_lt hk)) (push_of_illegal hill) hk
  rw [List.take_length] at hrun
  rw [ofCommands, hrun]

/-- **The legal lists of commands are accepted, and no others.** The context of the script
has the sorts declared, in order; the answers owed are those requested, each model over the
variables declared before the request. If a list is refused, the reason is that of the first
command that is not legal after those before it. -/
theorem ofCommands_eq_iff (cs : List (Command T)) :
    (∀ s, ofCommands cs = .ok s ↔
      LegalUpTo cs cs.length ∧
        s.commands = cs ∧ s.context = declared cs ∧ s.slots = requested cs) ∧
    ∀ e, ofCommands cs = .error e ↔
      ∃ k c, cs[k]? = some c ∧ LegalUpTo cs k ∧ c.Illegal (cs.take k) e := by
  rcases legalUpTo_or_illegal cs cs.length with h | ⟨k, c, e, hc, h, hill⟩
  · rw [ofCommands_of_legal h]
    refine ⟨fun s => ⟨?_, ?_⟩, fun e => ⟨nofun, ?_⟩⟩
    · intro heq
      obtain rfl := Except.ok.inj heq
      exact ⟨h, rfl, rfl, rfl⟩
    · obtain ⟨commands, context, slots⟩ := s
      rintro ⟨-, hcommands, hcontext, hslots⟩
      simp only [Script.context, Script.slots] at hcommands hcontext hslots
      rw [hcommands, hcontext, hslots, reached, ScriptState.reached]
    · rintro ⟨k, c, hc, -, hill⟩
      exact absurd h (hill.not_legalUpTo hc)
  · have hrefused := ofCommands_of_illegal hc h hill
    refine ⟨fun s => ⟨fun heq => ?_, fun hlegal => ?_⟩, fun e' => ⟨fun heq => ?_, ?_⟩⟩
    · cases hrefused.symm.trans heq
    · exact absurd hlegal.1 (hill.not_legalUpTo hc)
    · obtain rfl := Except.error.inj (hrefused.symm.trans heq)
      exact ⟨k, c, hc, h, hill⟩
    · rintro ⟨k', c', hc', h', hill'⟩
      exact ofCommands_of_illegal hc' h' hill'

end Script

end SmtScript
