import SmtScript.Proofs.Arith.Grammar

/-!
Numbers as expressions over numerals. An expression has a number in any case, as a quotient
by zero is zero in the rationals; the reader has none where a divisor is zero, at whatever
depth. Apart from that, reading a text as a number is to find the expression that it is and
to compute.
-/

namespace SmtScript.Arith

/-- A run of digits. -/
structure Numeral where
  digits : Text
  isNumeral : Text.isNumeral digits = true

def Numeral.value (n : Numeral) : Nat := Text.digitsValue n.digits

inductive IntExpr where
  | numeral (n : Numeral)
  | neg (e : IntExpr)

inductive RealExpr where
  | numeral (n : Numeral)
  /-- Digits on both sides of a point. -/
  | decimal (whole fraction : Numeral)
  | neg (e : RealExpr)
  | quotient (e divisor : RealExpr)

namespace IntExpr

def sexp : IntExpr → Sexp
  | numeral n => .atom n.digits
  | neg e => .list [.atom "-", e.sexp]

def value : IntExpr → Int
  | numeral n => n.value
  | neg e => -e.value

/-- The expression as one of a real. -/
def real : IntExpr → RealExpr
  | numeral n => .numeral n
  | neg e => .neg e.real

end IntExpr

namespace RealExpr

def sexp : RealExpr → Sexp
  | numeral n => .atom n.digits
  | decimal whole fraction => .atom (whole.digits ++ '.' :: fraction.digits)
  | neg e => .list [.atom "-", e.sexp]
  | quotient e divisor => .list [.atom "/", e.sexp, divisor.sexp]

def value : RealExpr → Rat
  | numeral n => n.value
  | decimal whole fraction => whole.value + fraction.value / 10 ^ fraction.digits.length
  | neg e => -e.value
  | quotient e divisor => e.value / divisor.value

/-- The divisors in an expression, at all depths. -/
def divisors : RealExpr → List RealExpr
  | numeral _ => []
  | decimal _ _ => []
  | neg e => e.divisors
  | quotient e divisor => divisor :: (e.divisors ++ divisor.divisors)

/-- No divisor is zero. -/
def Defined (e : RealExpr) : Prop := ∀ d ∈ e.divisors, d.value ≠ 0

lemma defined_quotient {e d : RealExpr} :
    (quotient e d).Defined ↔ d.value ≠ 0 ∧ e.Defined ∧ d.Defined := by
  unfold Defined
  rw [divisors, List.forall_mem_cons, List.forall_mem_append]

end RealExpr

/-! ### What an expression denotes -/

lemma Decimal.unique {t : Text} {r r' : Rat} (h : Decimal t r) (h' : Decimal t r') : r = r' :=
  Option.some.inj ((readDecimal?_of_decimal h).symm.trans (readDecimal?_of_decimal h'))

lemma IntExpr.denotes_iff (e : IntExpr) {n : Int} : DenotesInt e.sexp n ↔ n = e.value := by
  induction e generalizing n with
  | numeral m =>
    refine ⟨fun h => ?_, ?_⟩
    · cases h with
      | numeral => rfl
    · rintro rfl
      exact .numeral m.isNumeral
  | neg e ih =>
    refine ⟨fun h => ?_, ?_⟩
    · cases h with
      | neg h => rw [value, ih.mp h]
    · rintro rfl
      exact .neg (ih.mpr rfl)

lemma DenotesInt.exists_expr {s : Sexp} {n : Int} (h : DenotesInt s n) :
    ∃ e : IntExpr, e.sexp = s := by
  induction h with
  | @numeral t h => exact ⟨.numeral ⟨t, h⟩, rfl⟩
  | neg _ ih =>
    obtain ⟨e, rfl⟩ := ih
    exact ⟨.neg e, rfl⟩

/-- **An expression denotes its number, and only if no divisor in it is zero.** -/
lemma RealExpr.denotes_iff (e : RealExpr) {r : Rat} :
    DenotesReal e.sexp r ↔ e.Defined ∧ r = e.value := by
  induction e generalizing r with
  | numeral n =>
    have hn : Decimal n.digits n.value := .whole n.isNumeral
    refine ⟨fun h => ?_, ?_⟩
    · cases h with
      | decimal h => exact ⟨nofun, h.unique hn⟩
    · rintro ⟨-, rfl⟩
      exact .decimal hn
  | decimal m n =>
    have hmn : Decimal (m.digits ++ '.' :: n.digits) (decimal m n).value :=
      .fraction m.isNumeral n.isNumeral
    refine ⟨fun h => ?_, ?_⟩
    · cases h with
      | decimal h => exact ⟨nofun, h.unique hmn⟩
    · rintro ⟨-, rfl⟩
      exact .decimal hmn
  | neg e ih =>
    refine ⟨fun h => ?_, ?_⟩
    · cases h with
      | neg h =>
        obtain ⟨hdefined, rfl⟩ := ih.mp h
        exact ⟨hdefined, rfl⟩
    · rintro ⟨hdefined, rfl⟩
      exact .neg (ih.mpr ⟨hdefined, rfl⟩)
  | quotient e d ih ihd =>
    rw [defined_quotient]
    refine ⟨fun h => ?_, ?_⟩
    · cases h with
      | quotient h hd hne =>
        obtain ⟨hdefined, rfl⟩ := ih.mp h
        obtain ⟨hdefined', rfl⟩ := ihd.mp hd
        exact ⟨⟨hne, hdefined, hdefined'⟩, rfl⟩
    · rintro ⟨⟨hne, hdefined, hdefined'⟩, rfl⟩
      exact .quotient (ih.mpr ⟨hdefined, rfl⟩) (ihd.mpr ⟨hdefined', rfl⟩) hne

lemma DenotesReal.exists_expr {s : Sexp} {r : Rat} (h : DenotesReal s r) :
    ∃ e : RealExpr, e.sexp = s := by
  induction h with
  | decimal h =>
    cases h with
    | whole h => exact ⟨.numeral ⟨_, h⟩, rfl⟩
    | fraction ht hu => exact ⟨.decimal ⟨_, ht⟩ ⟨_, hu⟩, rfl⟩
  | neg _ ih =>
    obtain ⟨e, rfl⟩ := ih
    exact ⟨.neg e, rfl⟩
  | quotient _ _ _ ih ihd =>
    obtain ⟨e, rfl⟩ := ih
    obtain ⟨d, rfl⟩ := ihd
    exact ⟨.quotient e d, rfl⟩

/-! ### Integers as reals -/

namespace IntExpr

lemma sexp_real (e : IntExpr) : e.real.sexp = e.sexp := by
  induction e with
  | numeral n => rfl
  | neg e ih => rw [real, RealExpr.sexp, ih, sexp]

lemma value_real (e : IntExpr) : e.real.value = (e.value : Rat) := by
  induction e with
  | numeral n => exact (Int.cast_natCast n.value).symm
  | neg e ih => rw [real, RealExpr.value, ih, value, Int.cast_neg]

lemma defined_real (e : IntExpr) : e.real.Defined := by
  induction e with
  | numeral n => exact nofun
  | neg e ih => exact ih

end IntExpr

/-! ### Reading a text as a number -/

lemma readValue_int_eq_ok {t : Text} {v : Constant} :
    readValue .int t = .ok v ↔
      ∃ e : IntExpr, Sexp.readExact t = .ok e.sexp ∧ v = .int e.value := by
  rw [readValue_eq_ok]
  refine ⟨?_, ?_⟩
  · rintro ⟨s, hs, hdenotes⟩
    cases hdenotes with
    | int h =>
      obtain ⟨e, rfl⟩ := h.exists_expr
      exact ⟨e, hs, by rw [e.denotes_iff.mp h]⟩
  · rintro ⟨e, hs, rfl⟩
    exact ⟨e.sexp, hs, .int (e.denotes_iff.mpr rfl)⟩

lemma readValue_real_eq_ok {t : Text} {v : Constant} :
    readValue .real t = .ok v ↔
      ∃ e : RealExpr, Sexp.readExact t = .ok e.sexp ∧ e.Defined ∧ v = .real e.value := by
  rw [readValue_eq_ok]
  refine ⟨?_, ?_⟩
  · rintro ⟨s, hs, hdenotes⟩
    cases hdenotes with
    | real h =>
      obtain ⟨e, rfl⟩ := h.exists_expr
      obtain ⟨hdefined, rfl⟩ := e.denotes_iff.mp h
      exact ⟨e, hs, hdefined, rfl⟩
  · rintro ⟨e, hs, hdefined, rfl⟩
    exact ⟨e.sexp, hs, .real (e.denotes_iff.mpr ⟨hdefined, rfl⟩)⟩

lemma readValue_bool_eq_ok {t : Text} {v : Constant} :
    readValue .bool t = .ok v ↔
      Sexp.readExact t = .ok (.atom "true") ∧ v = .bool true ∨
        Sexp.readExact t = .ok (.atom "false") ∧ v = .bool false := by
  rw [readValue_eq_ok]
  refine ⟨?_, ?_⟩
  · rintro ⟨s, hs, hdenotes⟩
    cases hdenotes with
    | true => exact .inl ⟨hs, rfl⟩
    | false => exact .inr ⟨hs, rfl⟩
  · rintro (⟨hs, rfl⟩ | ⟨hs, rfl⟩)
    · exact ⟨_, hs, .true⟩
    · exact ⟨_, hs, .false⟩

/-- **The values of a sort are its expressions**, and each is read as the number that comes of
computing it: no real is accepted that divides by zero anywhere. Every other text is called
malformed. The integers are read as reals too, and are the same numbers. -/
theorem readValue_expressions (t : Text) :
    (∀ v, arith.readValue Srt.real t = .ok v ↔
      ∃ e : RealExpr, Sexp.readExact t = .ok e.sexp ∧ e.Defined ∧ v = .real e.value) ∧
    (∀ v, arith.readValue Srt.int t = .ok v ↔
      ∃ e : IntExpr, Sexp.readExact t = .ok e.sexp ∧ v = .int e.value) ∧
    (∀ v, arith.readValue Srt.bool t = .ok v ↔
      Sexp.readExact t = .ok (.atom "true") ∧ v = .bool true ∨
        Sexp.readExact t = .ok (.atom "false") ∧ v = .bool false) ∧
    (∀ s x, arith.readValue s t = .error x → ∃ reason, x = .malformed reason) ∧
    (∀ e : RealExpr, Sexp.readExact t = .ok e.sexp → ¬ e.Defined →
      arith.readValue Srt.real t =
        .error (.malformed ("`" ++ t ++ "` is not a " ++ Srt.real.text ++ " value"))) ∧
    ∀ n, arith.readValue Srt.int t = .ok (.int n) → arith.readValue Srt.real t = .ok (.real n) := by
  refine ⟨fun v => readValue_real_eq_ok, fun v => readValue_int_eq_ok,
    fun v => readValue_bool_eq_ok, fun s x h => ?_, fun e hs hundefined => ?_, fun n h => ?_⟩
  · rcases readValue_eq_error.mp h with ⟨e, -, rfl⟩ | ⟨e, -, -, rfl⟩
    · exact ⟨_, rfl⟩
    · exact ⟨_, rfl⟩
  · refine readValue_eq_error.mpr (.inr ⟨e.sexp, hs, fun v hdenotes => ?_, rfl⟩)
    cases hdenotes with
    | real h => exact hundefined (e.denotes_iff.mp h).1
  · obtain ⟨e, hs, hn⟩ := readValue_int_eq_ok.mp h
    obtain rfl := Constant.int.inj hn
    refine readValue_real_eq_ok.mpr ⟨e.real, ?_, e.defined_real, ?_⟩
    · rw [e.sexp_real, hs]
    · rw [e.value_real]

/-- The divisor is zero only when it has been computed. -/
example : arith.readValue Srt.real "(/ 1 (- 0.0))" =
    .error (.malformed "`(/ 1 (- 0.0))` is not a Real value") := by
  cbv

end SmtScript.Arith
