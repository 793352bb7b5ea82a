import SmtScript.Proofs.Naming

/-!
Histories of a naming: names are given, and the last one in scope is taken out of it, in any
order and any number of times, also where none is in scope.

The names given in a history are numbered without a gap, whatever goes out of scope in
between, so none of them is given twice. A position is given a new name after its old one has
gone out of scope; until then it keeps the name it has, and afterwards that name stands for no
position any more.
-/

namespace SmtScript.Naming

/-- What can happen to a naming. -/
inductive Act where
  | bind
  | unbind
  deriving DecidableEq

def step (names : Naming) : Act → Naming
  | .bind => names.bind
  | .unbind => names.unbind

/-- The naming after the acts, one after another. -/
def run (names : Naming) (acts : List Act) : Naming := acts.foldl step names

/-- The names that the acts give, one after another. -/
def given (names : Naming) : List Act → List Text
  | [] => []
  | .bind :: acts => names.fresh :: given names.bind acts
  | .unbind :: acts => given names.unbind acts

variable {names : Naming} {p : Nat} {name : Text}

@[simp] lemma run_nil (names : Naming) : names.run [] = names := rfl

@[simp] lemma run_cons (names : Naming) (a : Act) (acts : List Act) :
    names.run (a :: acts) = (names.step a).run acts := rfl

lemma run_append (names : Naming) (acts later : List Act) :
    names.run (acts ++ later) = (names.run acts).run later := by
  simp [run, List.foldl_append]

/-! ### The names that are given -/

/-- The counter counts the names that are given. -/
lemma next_run (names : Naming) (acts : List Act) :
    (names.run acts).next = names.next + acts.count .bind := by
  induction acts generalizing names with
  | nil => rfl
  | cons a acts ih =>
    rw [run_cons, ih]
    cases a with
    | bind =>
      rw [step, next_bind, List.count_cons_self]
      omega
    | unbind => rw [step, next_unbind, List.count_cons_of_ne (by decide)]

/-- **Names are given in the order of their numbers**, and none is left out. -/
lemma given_eq_names (names : Naming) (acts : List Act) :
    given names acts = Naming.names names.next (acts.count .bind) := by
  induction acts generalizing names with
  | nil => rfl
  | cons a acts ih =>
    cases a with
    | bind => rw [given, ih, List.count_cons_self]; rfl
    | unbind => rw [given, ih, next_unbind, List.count_cons_of_ne (by decide)]

/-! ### The names in scope -/

lemma Ordered.unbind (h : names.Ordered) : names.unbind.Ordered :=
  ⟨h.increasing.sublist (List.dropLast_sublist _),
    fun n hn => h.below n (List.dropLast_subset _ hn)⟩

lemma Ordered.step (h : names.Ordered) (a : Act) : (names.step a).Ordered := by
  cases a with
  | bind => exact h.bind
  | unbind => exact h.unbind

lemma Ordered.run (h : names.Ordered) (acts : List Act) : (names.run acts).Ordered := by
  induction acts generalizing names with
  | nil => exact h
  | cons a acts ih => exact ih (h.step a)

/-- A number comes into scope only by being the next one. -/
lemma mem_live_run {n : Nat} {acts : List Act} (h : n ∈ (names.run acts).live) :
    n ∈ names.live ∨ names.next ≤ n := by
  induction acts generalizing names with
  | nil => exact .inl h
  | cons a acts ih =>
    rcases ih h with hlive | hnext
    · cases a with
      | bind =>
        rw [step, live_bind, List.mem_append, List.mem_singleton] at hlive
        rcases hlive with hlive | rfl
        · exact .inl hlive
        · exact .inr (Nat.le_refl _)
      | unbind => exact .inl (List.dropLast_subset _ hlive)
    · refine .inr (Nat.le_trans ?_ hnext)
      cases a with
      | bind => exact Nat.le_succ _
      | unbind => exact Nat.le_refl _

/-! ### The lifetime of a name -/

/-- The name stands for the position now and after each of the acts. -/
def Stays (names : Naming) (p : Nat) (name : Text) (acts : List Act) : Prop :=
  ∀ u, u <+: acts → (names.run u).name? p = some name

/-- The position is the last one in scope, and its name is the next to be taken out. -/
structure IsLast (names : Naming) (p : Nat) (name : Text) : Prop where
  depth_eq : names.depth = p + 1
  last?_eq : names.last? = some name

/-- What becomes of the name at a position: it stays there, or it does until an act takes it
out of scope, and then it stands for no position again. -/
inductive Lifetime (names : Naming) (p : Nat) (name : Text) (later : List Act) : Prop where
  | stays (h : names.Stays p name later)
  | removed (u v : List Act) (hlater : later = u ++ .unbind :: v) (hstays : names.Stays p name u)
      (hlast : (names.run u).IsLast p name)
      (hgone : ∀ w, w <+: v → name ∉ (names.run (u ++ .unbind :: w)).bindings)

/-- A new name stands for the first position that was free. -/
lemma name?_bind_depth (names : Naming) : names.bind.name? names.depth = some names.fresh := by
  simp [name?, depth, fresh]

/-- **One act** leaves a position its name or takes it out of scope. -/
lemma name?_step (h : names.name? p = some name) (a : Act) :
    (names.step a).name? p = some name ∨ a = .unbind ∧ names.IsLast p name := by
  obtain ⟨n, hn, rfl⟩ := Option.map_eq_some_iff.mp h
  obtain ⟨hp, -⟩ := List.getElem?_eq_some_iff.mp hn
  cases a with
  | bind =>
    left
    rw [step, name?, live_bind, List.getElem?_append_left hp, hn]
    rfl
  | unbind =>
    by_cases hlast : p + 1 = names.live.length
    · refine .inr ⟨rfl, hlast.symm, ?_⟩
      rw [last?, List.getLast?_eq_getElem?, ← hlast, Nat.add_sub_cancel, hn]
      rfl
    · left
      rw [step, name?, live_unbind, List.getElem?_dropLast, if_pos (by omega), hn]
      rfl

lemma stays_nil (h : names.name? p = some name) : names.Stays p name [] := by
  intro u hu
  rw [List.prefix_nil.mp hu]
  exact h

lemma Stays.cons (h : names.name? p = some name) {a : Act} {acts : List Act}
    (hstays : (names.step a).Stays p name acts) : names.Stays p name (a :: acts) := by
  intro u hu
  rcases List.prefix_cons_iff.mp hu with rfl | ⟨w, rfl, hw⟩
  · exact h
  · exact hstays w hw

/-- A name that is taken out of scope does not come back. -/
lemma not_mem_bindings_of_removed (hordered : names.Ordered) (h : names.IsLast p name)
    (acts : List Act) : name ∉ (names.unbind.run acts).bindings := by
  obtain ⟨last, hlast, rfl⟩ := Option.map_eq_some_iff.mp h.last?_eq
  obtain ⟨front, hfront⟩ := List.getLast?_eq_some_iff.mp hlast
  intro hmem
  obtain ⟨n, hn, heq⟩ := List.mem_map.mp hmem
  obtain rfl := nameOf_inj.mp heq
  -- the numbers left in scope are less than the one taken out, and those to come are greater
  rcases mem_live_run hn with hlive | hnext
  · have hbefore := hordered.increasing
    rw [hfront, List.pairwise_append] at hbefore
    rw [live_unbind, hfront, List.dropLast_concat] at hlive
    exact Nat.lt_irrefl n (hbefore.2.2 n hlive n (List.mem_singleton_self n))
  · have hbelow := hordered.below n (List.mem_of_getLast? hlast)
    rw [next_unbind] at hnext
    omega

/-- **A position keeps its name** until the act that takes it out of scope. -/
theorem Ordered.lifetime (hordered : names.Ordered) (h : names.name? p = some name)
    (later : List Act) : names.Lifetime p name later := by
  induction later generalizing names with
  | nil => exact .stays (stays_nil h)
  | cons a later ih =>
    rcases name?_step h a with hstep | ⟨rfl, hlast⟩
    · cases ih (hordered.step a) hstep with
      | stays hstays => exact .stays (hstays.cons h)
      | removed u v hlater hstays hlast hgone =>
        exact .removed (a :: u) v (by rw [hlater, List.cons_append]) (hstays.cons h) hlast hgone
    · exact .removed [] later rfl (stays_nil h) hlast fun w _ =>
        not_mem_bindings_of_removed hordered hlast w

/-- **A name is given once.** In every history the names given are different, and the counter
says how many there are; the names in scope have increasing numbers below it. A name that is
given stands for the first free position, and any name in scope stays where it is until it is
taken out of scope, after which it stands for no position again. -/
theorem names_given_once (acts : List Act) :
    (given initial acts).Nodup ∧
    (initial.run acts).next = acts.count .bind ∧
    (∃ numbers : List Nat, (initial.run acts).bindings = numbers.map nameOf ∧
      (∀ p, (initial.run acts).name? p = numbers[p]?.map nameOf) ∧
      numbers.Pairwise (· < ·) ∧ ∀ n ∈ numbers, n < (initial.run acts).next) ∧
    (initial.run (acts ++ [.bind])).name? (initial.run acts).depth =
      some (initial.run acts).fresh ∧
    ∀ p name, (initial.run acts).name? p = some name →
      ∀ later, (initial.run acts).Lifetime p name later := by
  have hordered := ordered_initial.run acts
  refine ⟨?_, ?_, ⟨_, rfl, fun _ => rfl, hordered.increasing, hordered.below⟩, ?_, ?_⟩
  · rw [given_eq_names]
    exact nodup_names _ _
  · rw [next_run]
    exact Nat.zero_add _
  · rw [run_append]
    exact name?_bind_depth _
  · exact fun p name hname later => hordered.lifetime hname later

/-- The second position is freed and given a new name. -/
theorem refilled_given_once :
    (initial.run [.bind, .bind]).name? 1 = some "x1" ∧
      (initial.run [.bind, .bind]).Lifetime 1 "x1" [.bind, .unbind, .unbind, .bind, .unbind] :=
  have h : (initial.run [.bind, .bind]).name? 1 = some "x1" := by decide
  ⟨h, (names_given_once [.bind, .bind]).2.2.2.2 1 "x1" h _⟩

end SmtScript.Naming
