import Mathlib.Data.List.Perm.Basic
import SmtScript.Proofs.Script.Printing

/-!
The names that a script introduces when it is written. They are read off its lines: a
declaration introduces the name declared, and an assertion the names that its quantifiers
bind. Numbers are given in the order in which the names are written and are never given
twice; so the names of one script are distinct, and the recognizer knows those declared and
none of those bound.
-/

namespace SmtScript

variable {T : Theory}

namespace Sexp

mutual

/-- The names that quantifiers bind, from the left. A quantifier has its variable in a list
of one pair, `((x Int))`; no other list of a term begins with a list. -/
def binders : Sexp → List Text
  | .atom _ => []
  | .list [.list [.atom x, .atom _]] => [x]
  | .list items => itemsBinders items

def itemsBinders : List Sexp → List Text
  | [] => []
  | s :: rest => s.binders ++ itemsBinders rest

end

/-- The name that a line declares. -/
def declares : Sexp → List Text
  | .list [.atom keyword, .atom x, .atom _] => if keyword = "declare-const" then [x] else []
  | _ => []

/-- The names that a line introduces. -/
def introduces (line : Sexp) : List Text := line.declares ++ line.binders

lemma binders_list_atom (a : Text) (items : List Sexp) :
    (Sexp.list (.atom a :: items)).binders = itemsBinders items := by
  rw [binders, itemsBinders]
  · rfl
  · simp

end Sexp

open Sexp

/-! ### Terms -/

namespace Term

lemma binders_argsSexp {args : List (Term T)}
    (hargs : ∀ t ∈ args, ∀ names : Naming,
      (t.sexp names).binders = Naming.names names.next t.quantifiers) (names : Naming) :
    itemsBinders (argsSexp args names) = Naming.names names.next (argsQuantifiers args) := by
  induction args generalizing names with
  | nil => rfl
  | cons t args ih =>
    obtain ⟨hfirst, hargs⟩ := List.forall_mem_cons.mp hargs
    rw [argsSexp, itemsBinders, hfirst names, ih hargs, argsQuantifiers, ← Naming.names_append]
    rfl

/-- **The quantifiers of a term bind the next names**, from the left, one each. -/
theorem binders_sexp (t : Term T) (names : Naming) :
    (t.sexp names).binders = Naming.names names.next t.quantifiers := by
  induction t generalizing names with
  | var p s => rfl
  | lit l => rfl
  | app op args ih => rw [sexp, binders_list_atom, binders_argsSexp ih, quantifiers]
  | quant q p s body ih =>
    have hbody := ih names.bind
    rw [sexp, binders_list_atom, quantifiers, Nat.add_comm, ← Naming.names_append]
    simp only [itemsBinders, hbody, List.append_nil]
    rfl

end Term

/-! ### Commands -/

namespace Command

def nameCount : Command T → Nat
  | .declareConst _ => 1
  | .assert t => t.quantifiers
  | _ => 0

/-- How many names the commands introduce: one for each declaration and one for each
quantifier. -/
def nameCounts : List (Command T) → Nat
  | [] => 0
  | c :: rest => c.nameCount + nameCounts rest

lemma next_namingAfter (c : Command T) (names : Naming) :
    (c.namingAfter names).next = names.next + c.nameCount := by
  cases c <;> rfl

/-- A line declares the variable that its command has an entry for. -/
lemma declares_sexp (c : Command T) (names : Naming) :
    (c.sexp names).declares = (c.entries names).map Entry.name := by
  cases c with
  | assert t => simp [sexp, declares, entries]
  | setLogic | declareConst | checkSat | getModel => rfl

/-- **One step**: a line introduces the next names. -/
theorem introduces_sexp (c : Command T) (names : Naming) :
    (c.sexp names).introduces = Naming.names names.next c.nameCount := by
  cases c with
  | assert t =>
    rw [introduces, declares_sexp, sexp, binders_list_atom, itemsBinders, t.binders_sexp]
    simp [entries, itemsBinders, nameCount]
  | setLogic | declareConst | checkSat | getModel => rfl

/-- **All lines** introduce the next names, in order. -/
theorem introduces_trees (cs : List (Command T)) (names : Naming) :
    (trees cs names).flatMap introduces = Naming.names names.next (nameCounts cs) := by
  induction cs generalizing names with
  | nil => rfl
  | cons c cs ih =>
    rw [trees, List.flatMap_cons, introduces_sexp, ih, next_namingAfter, Naming.names_append,
      nameCounts]

end Command

open Command

/-- The recognizer knows the names declared, in order. -/
lemma Runs.map_name_eq {st st' : ScriptState T} {cs : List (Command T)} (h : Runs st cs st')
    {names : Naming} (hd : names.depth = st.context.length) {printed : Printed T}
    (hprint : printAll cs names = .ok printed) :
    printed.recognizer.map Entry.name = (trees cs names).flatMap declares := by
  induction h generalizing names printed with
  | nil =>
    cases hprint
    rfl
  | @cons st st' c cs hc _ ih =>
    rw [printAll, print_of_fits hc hd] at hprint
    obtain ⟨more, hmore, hprint⟩ := bind_eq_ok.mp hprint
    obtain rfl := pure_eq_ok.mp hprint
    have hrest := ih (depth_namingAfter hd) hmore
    simp only [Recognizer.or, List.map_append, hrest, trees, List.flatMap_cons, declares_sexp]

namespace Script

/-- **Names are unique, and the recognizer inverts them.** The recognizer of a reachable
script leads from the variables of the context to their names and back. Its lines introduce
one name for each declaration and each quantifier of any assertion, and all these names are
distinct; the recognizer knows those declared, and none that a quantifier binds. -/
theorem Reachable.names_unique {s : Script T} (h : s.Reachable) :
    ∃ printed, s.print = .ok printed ∧ printed.recognizer.Inverts s.context ∧
      printed.text = s.trees.flatMap (fun line => line.text ++ ("\n" : Text)) ∧
      (s.trees.flatMap introduces).length = nameCounts s.commands ∧
      (s.trees.flatMap introduces).Nodup ∧
      printed.recognizer.map Entry.name = s.trees.flatMap declares ∧
      ∀ name ∈ s.trees.flatMap binders, printed.recognizer.recognize? name = none := by
  obtain ⟨last, hordered, hdepth, hprint⟩ := h.print_eq
  have hdeclared := h.runs.map_name_eq (show Naming.initial.depth = _ from rfl) hprint
  have hnames : s.trees.flatMap introduces = Naming.names 0 (nameCounts s.commands) :=
    introduces_trees s.commands .initial
  have hnodup : (s.trees.flatMap introduces).Nodup := hnames ▸ Naming.nodup_names _ _
  refine ⟨_, hprint, Recognizer.inverts_numbered hdepth hordered.increasing,
    lines_eq_flatMap s.commands .initial, by rw [hnames, Naming.length_names], hnodup, hdeclared,
    fun name hname => ?_⟩
  have hdisjoint : List.Disjoint (s.trees.flatMap declares) (s.trees.flatMap binders) := by
    have hperm := List.flatMap_append_perm s.trees declares binders
    exact List.disjoint_of_nodup_append (hperm.nodup_iff.mpr hnodup)
  refine List.find?_eq_none.mpr fun e he => ?_
  rw [beq_iff_eq]
  rintro rfl
  refine hdisjoint ?_ hname
  rw [trees, ← hdeclared]
  exact List.mem_map_of_mem he

/-- The quantifier of the sample binds the second name given; the variable declared after it
has the third. -/
theorem sample_names_unique :
    sample.Reachable ∧ ∃ printed, sample.print = .ok printed ∧
      printed.recognizer.recognize? "x1" = none ∧ printed.recognizer.length = 2 := by
  obtain ⟨printed, hprint, hinverts, -, -, -, -, hbound⟩ := Reachable.names_unique sample_reachable
  exact ⟨sample_reachable, printed, hprint, hbound "x1" (by decide), hinverts.length_eq⟩

end Script

end SmtScript
