import SmtScript.Proofs.Arith.Decimal
import SmtScript.Proofs.Sexp.Atom

/-!
The grammar of values, and that the reader of values accepts exactly what it derives. Each
rule says which number the expression denotes; a quotient has a value only where its divisor
denotes a number other than zero.
-/

namespace SmtScript.Arith

open Text (isNumeral digitsValue)

/-- The expression denotes the integer. -/
inductive DenotesInt : Sexp → Int → Prop where
  | numeral {t : Text} (h : isNumeral t = true) : DenotesInt (.atom t) (digitsValue t)
  | neg {e : Sexp} {n : Int} (h : DenotesInt e n) : DenotesInt (.list [.atom "-", e]) (-n)

/-- The expression denotes the real. -/
inductive DenotesReal : Sexp → Rat → Prop where
  | decimal {t : Text} {r : Rat} (h : Decimal t r) : DenotesReal (.atom t) r
  | neg {e : Sexp} {r : Rat} (h : DenotesReal e r) : DenotesReal (.list [.atom "-", e]) (-r)
  | quotient {e e' : Sexp} {r d : Rat} (h : DenotesReal e r) (hd : DenotesReal e' d)
      (hne : d ≠ 0) : DenotesReal (.list [.atom "/", e, e']) (r / d)

/-- The expression is in the grammar of the sort's values, and denotes the value. -/
inductive Denotes : Srt → Sexp → Constant → Prop where
  | true : Denotes .bool (.atom "true") (.bool true)
  | false : Denotes .bool (.atom "false") (.bool false)
  | int {e : Sexp} {n : Int} (h : DenotesInt e n) : Denotes .int e (.int n)
  | real {e : Sexp} {r : Rat} (h : DenotesReal e r) : Denotes .real e (.real r)

lemma Denotes.sort_eq {s : Srt} {e : Sexp} {v : Constant} (h : Denotes s e v) : v.sort = s := by
  cases h <;> rfl

lemma evalInt?_eq_some {e : Sexp} {n : Int} : evalInt? e = some n ↔ DenotesInt e n := by
  refine ⟨?_, ?_⟩
  · intro h
    fun_induction evalInt? e generalizing n with
    | case1 t =>
      obtain ⟨m, hm, rfl⟩ := Option.map_eq_some_iff.mp h
      obtain ⟨ht, rfl⟩ := Text.readNat?_eq_some.mp hm
      exact .numeral ht
    | case2 e ih =>
      obtain ⟨m, hm, rfl⟩ := Option.map_eq_some_iff.mp h
      exact .neg (ih hm)
    | case3 | case4 => cases h
  · intro h
    induction h with
    | numeral ht => rw [evalInt?, Text.readNat?_eq_some.mpr ⟨ht, rfl⟩]; rfl
    | neg _ ih => rw [evalInt?, if_pos rfl, ih]; rfl

lemma evalReal?_eq_some {e : Sexp} {r : Rat} : evalReal? e = some r ↔ DenotesReal e r := by
  refine ⟨?_, ?_⟩
  · intro h
    fun_induction evalReal? e generalizing r with
    | case1 t => exact .decimal (readDecimal?_eq_some.mp h)
    | case2 e ih =>
      obtain ⟨q, hq, rfl⟩ := Option.map_eq_some_iff.mp h
      exact .neg (ih hq)
    | case5 e e' q d hd hq hne ih ih' =>
      obtain rfl := Option.some.inj h
      exact .quotient (ih hq) (ih' hd) hne
    -- no number: another operation, a divisor that is zero or has no value, or another shape
    | case3 | case4 | case6 | case7 | case8 => cases h
  · intro h
    induction h with
    | decimal ht => rw [evalReal?, readDecimal?_eq_some.mpr ht]
    | neg _ ih => rw [evalReal?, if_pos rfl, ih]; rfl
    | quotient _ _ hne ih ih' => simp [evalReal?, ih, ih', hne]

lemma evalBool?_eq_some {e : Sexp} {b : Bool} :
    evalBool? e = some b ↔ Denotes .bool e (.bool b) := by
  refine ⟨fun h => ?_, ?_⟩
  · cases e with
    | atom t =>
      rw [evalBool?] at h
      split_ifs at h with htrue hfalse
      · cases h
        rw [htrue]
        exact .true
      · cases h
        rw [hfalse]
        exact .false
    | list => cases h
  · intro h
    cases h <;> rfl

/-- **An expression has a value exactly if the grammar derives it.** -/
theorem eval?_eq_some {s : Srt} {e : Sexp} {v : Constant} :
    eval? s e = some v ↔ Denotes s e v := by
  cases s with
  | bool =>
    simp only [eval?, Option.map_eq_some_iff, evalBool?_eq_some]
    refine ⟨?_, ?_⟩
    · rintro ⟨b, hb, rfl⟩
      exact hb
    · intro h
      cases h with
      | true => exact ⟨_, .true, rfl⟩
      | false => exact ⟨_, .false, rfl⟩
  | int =>
    simp only [eval?, Option.map_eq_some_iff, evalInt?_eq_some]
    refine ⟨?_, ?_⟩
    · rintro ⟨n, hn, rfl⟩
      exact .int hn
    · intro h
      cases h with
      | int hn => exact ⟨_, hn, rfl⟩
  | real =>
    simp only [eval?, Option.map_eq_some_iff, evalReal?_eq_some]
    refine ⟨?_, ?_⟩
    · rintro ⟨r, hr, rfl⟩
      exact .real hr
    · intro h
      cases h with
      | real hr => exact ⟨_, hr, rfl⟩

/-- A text is read as a value if it is that of one expression, which denotes the value. -/
theorem readValue_eq_ok {s : Srt} {t : Text} {v : Constant} :
    readValue s t = .ok v ↔ ∃ e, Sexp.readExact t = .ok e ∧ Denotes s e v := by
  unfold readValue
  split
  · next h => simp [h]
  · next e h =>
    simp only [h, Except.ok.injEq, exists_eq_left', ← eval?_eq_some]
    split
    · next w hw => rw [hw, Except.ok.injEq, Option.some.injEq]
    · next hnone => simp [hnone]

/-- A text that is no value is refused for what the reader says of it, or for its sort. -/
theorem readValue_eq_error {s : Srt} {t : Text} {x : ValueError} :
    readValue s t = .error x ↔
      (∃ e, Sexp.readExact t = .error e ∧ x = .malformed e.message) ∨
        ∃ e, Sexp.readExact t = .ok e ∧ (∀ v, ¬ Denotes s e v) ∧
          x = .malformed ("`" ++ t ++ "` is not a " ++ s.text ++ " value") := by
  unfold readValue
  split
  · next e h => simp [h, eq_comm]
  · next e h =>
    simp only [h, reduceCtorEq, false_and, exists_false, false_or, Except.ok.injEq,
      exists_eq_left', ← eval?_eq_some]
    split
    · next w hw => simp [hw]
    · next hnone => simp [hnone, eq_comm]

end SmtScript.Arith
