import Mathlib.Data.List.Nodup
import SmtScript.Naming
import SmtScript.Proofs.Sexp.Atom

/-!
Names in scope have increasing numbers, all below the number of the next name; so different
positions have different names, and a name that goes out of scope does not come back.
-/

namespace SmtScript.Naming

/-- The name at a position in scope. -/
def nameAt (names : Naming) (position : Nat) : Text := (names.name? position).getD []

/-- The naming after some names have been given and taken out of scope again. -/
def advance (names : Naming) (count : Nat) : Naming := { names with next := names.next + count }

@[simp] lemma live_advance (names : Naming) (count : Nat) :
    (names.advance count).live = names.live := rfl

@[simp] lemma next_advance (names : Naming) (count : Nat) :
    (names.advance count).next = names.next + count := rfl

@[simp] lemma depth_advance (names : Naming) (count : Nat) :
    (names.advance count).depth = names.depth := rfl

lemma advance_advance (names : Naming) (m n : Nat) :
    (names.advance m).advance n = names.advance (m + n) := by
  simp [advance, Nat.add_assoc]

/-- A binding is undone at the end of its scope, but for the counter. -/
lemma unbind_advance_bind (names : Naming) (count : Nat) :
    (names.bind.advance count).unbind = names.advance (count + 1) := by
  simp [advance, unbind, bind, Nat.add_assoc, Nat.add_comm 1]

lemma name?_eq_some {names : Naming} {p : Nat} (h : p < names.depth) :
    names.name? p = some (names.nameAt p) := by
  rw [nameAt, name?, List.getElem?_eq_getElem h]
  rfl

lemma nameAt_eq {names : Naming} {p : Nat} (h : p < names.live.length) :
    names.nameAt p = nameOf names.live[p] := by
  rw [nameAt, name?, List.getElem?_eq_getElem h]
  rfl

/-! ### Order -/

/-- The numbers in scope increase with the position and have all been given. -/
structure Ordered (names : Naming) : Prop where
  increasing : names.live.Pairwise (· < ·)
  below : ∀ n ∈ names.live, n < names.next

lemma ordered_initial : initial.Ordered := ⟨.nil, by simp [initial]⟩

lemma Ordered.bind {names : Naming} (h : names.Ordered) : names.bind.Ordered where
  increasing := by
    rw [live_bind, List.pairwise_append]
    exact ⟨h.increasing, List.pairwise_singleton _ _, by simpa using h.below⟩
  below := by
    intro n hn
    rw [live_bind, List.mem_append, List.mem_singleton] at hn
    rw [next_bind]
    rcases hn with hn | rfl
    · have := h.below n hn
      omega
    · omega

lemma Ordered.advance {names : Naming} (h : names.Ordered) (count : Nat) :
    (names.advance count).Ordered :=
  ⟨h.increasing, fun n hn => Nat.lt_add_right count (h.below n hn)⟩

/-- Different positions have different names. -/
lemma Ordered.nameAt_inj {names : Naming} (h : names.Ordered) {p q : Nat} (hp : p < names.depth)
    (hq : q < names.depth) (heq : names.nameAt p = names.nameAt q) : p = q := by
  rw [nameAt_eq hp, nameAt_eq hq, nameOf_inj] at heq
  have hnodup : List.Nodup names.live := h.increasing.imp Nat.ne_of_lt
  exact hnodup.getElem_inj_iff.mp heq

/-! ### Names one after another -/

/-- The names with `count` numbers from `first` on. -/
def names (first count : Nat) : List Text := (List.range' first count).map nameOf

@[simp] lemma length_names (first count : Nat) : (names first count).length = count := by
  simp [names]

lemma names_append (first m n : Nat) :
    names first m ++ names (first + m) n = names first (m + n) := by
  rw [names, names, ← List.map_append, List.range'_append_1, names]

lemma nodup_names (first count : Nat) : (names first count).Nodup :=
  List.Nodup.map (fun _ _ h => nameOf_inj.mp h) List.nodup_range'

/-! ### Names as atoms -/

open Lexeme

lemma plain_nameOf (n : Nat) : Plain (nameOf n) :=
  Plain.append (by decide) (plain_ofNat n).2

lemma unquoted_nameOf (n : Nat) : Unquoted (nameOf n) :=
  ⟨plain_nameOf n, by simp [nameOf]⟩

end SmtScript.Naming
