import Mathlib.Tactic.Common

/-!
When a computation that can fail succeeds.
-/

namespace SmtScript

variable {ε α β : Type}

/-- A sequence succeeds if both its parts do. -/
lemma bind_eq_ok {x : Except ε α} {f : α → Except ε β} {b : β} :
    x >>= f = .ok b ↔ ∃ a, x = .ok a ∧ f a = .ok b := by
  cases x with
  | error e => exact ⟨nofun, nofun⟩
  | ok a =>
    refine ⟨?_, ?_⟩
    · intro h
      exact ⟨a, rfl, h⟩
    · rintro ⟨c, hc, h⟩
      obtain rfl := Except.ok.inj hc
      exact h

/-- A sequence fails where its first part does, or else its second. -/
lemma bind_eq_error {x : Except ε α} {f : α → Except ε β} {e : ε} :
    x >>= f = .error e ↔ x = .error e ∨ ∃ a, x = .ok a ∧ f a = .error e := by
  cases x with
  | error e' =>
    refine ⟨?_, ?_⟩
    · rintro ⟨⟩
      exact .inl rfl
    · rintro (⟨⟨⟩⟩ | ⟨_, ⟨⟩, -⟩)
      rfl
  | ok a =>
    refine ⟨fun h => .inr ⟨a, rfl, h⟩, ?_⟩
    rintro (⟨⟨⟩⟩ | ⟨_, ⟨⟩, h⟩)
    exact h

/-- If the second part never fails, only the first one can. -/
lemma bind_eq_error_of_ok {x : Except ε α} {f : α → Except ε β} (hf : ∀ a, ∃ b, f a = .ok b)
    {e : ε} : x >>= f = .error e ↔ x = .error e := by
  rw [bind_eq_error]
  refine or_iff_left ?_
  rintro ⟨a, -, h⟩
  obtain ⟨b, hb⟩ := hf a
  rw [hb] at h
  cases h

lemma pure_eq_ok {a b : α} : (pure a : Except ε α) = .ok b ↔ a = b :=
  ⟨fun h => by cases h; rfl, fun h => h ▸ rfl⟩

/-- What is made of a result. -/
lemma map_of_ok {x : Except ε α} {f : α → β} {a : α} {b : β} (h : x = .ok a)
    (hf : x.map f = .ok b) : f a = b := by
  subst h
  exact Except.ok.inj hf

lemma ok_bind (a : α) (f : α → Except ε β) : Except.ok a >>= f = f a := rfl

end SmtScript
