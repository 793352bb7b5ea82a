import SmtScript.Text.Numeral

/-!
Names for the variables in scope. Names are numbered by a counter that is never set back,
so a name that has gone out of scope is not given again.
-/

namespace SmtScript

structure Naming where
  /-- The numbers of the names in scope, by position. -/
  live : List Nat
  /-- The number of the next name. -/
  next : Nat
  deriving DecidableEq

namespace Naming

/-- The name with a number. -/
def nameOf (number : Nat) : Text := "x" ++ Text.ofNat number

/-- No name is in scope and none has been given. -/
def initial : Naming := ⟨[], 0⟩

def depth (names : Naming) : Nat := names.live.length

/-- The names in scope, by position. -/
def bindings (names : Naming) : List Text := names.live.map nameOf

def name? (names : Naming) (position : Nat) : Option Text := names.live[position]?.map nameOf

/-- The name that is given next. -/
def fresh (names : Naming) : Text := nameOf names.next

/-- Gives the fresh name to the first free position. -/
def bind (names : Naming) : Naming := ⟨names.live ++ [names.next], names.next + 1⟩

/-- The name given last among those in scope. -/
def last? (names : Naming) : Option Text := names.live.getLast?.map nameOf

/-- Takes the last name out of scope. -/
def unbind (names : Naming) : Naming := { names with live := names.live.dropLast }

/-- Names with different numbers differ. -/
theorem nameOf_inj {m n : Nat} : nameOf m = nameOf n ↔ m = n := by
  simp [nameOf, Text.ofNat_inj]

@[simp] theorem live_bind (names : Naming) : names.bind.live = names.live ++ [names.next] := rfl

@[simp] theorem next_bind (names : Naming) : names.bind.next = names.next + 1 := rfl

@[simp] theorem live_unbind (names : Naming) : names.unbind.live = names.live.dropLast := rfl

@[simp] theorem next_unbind (names : Naming) : names.unbind.next = names.next := rfl

@[simp] theorem depth_bind (names : Naming) : names.bind.depth = names.depth + 1 := by
  simp [depth]

end Naming

end SmtScript
