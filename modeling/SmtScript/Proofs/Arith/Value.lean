import SmtScript.Proofs.Arith.Decimal
import SmtScript.Proofs.Sexp.Reading

/-!
Constants as expressions. `Constant.sexp` is the tree of a constant's text; it denotes the
constant, so that a constant survives being written and read.
-/

namespace SmtScript.Arith

open Sexp Lexeme

lemma Srt.unquoted_text (s : Srt) : Unquoted s.text := by
  cases s <;> decide

/-! ### Numerals -/

lemma plain_wholeText (n : Nat) : Plain (wholeText n) :=
  Plain.append (plain_ofNat n) (List.all_eq_true.mp rfl)

lemma isNumeral_wholeText (n : Nat) : Text.isNumeral (wholeText n) = false := by
  rw [Text.isNumeral, Bool.and_eq_false_iff, List.all_eq_false]
  exact .inr ⟨'.', by simp [wholeText], by decide⟩

lemma unquoted_of_digit {d : Char} {t : Text} (hd : d.isDigit = true) (h : Plain (d :: t)) :
    Unquoted (d :: t) := by
  refine ⟨h, ?_⟩
  rw [List.head?_cons, ne_eq, Option.some.injEq]
  rintro rfl
  exact absurd hd (by decide)

lemma unquoted_ofNat (n : Nat) : Unquoted (Text.ofNat n) := by
  obtain ⟨d, t, ht, hd⟩ := exists_ofNat_eq_cons n
  have h := plain_ofNat n
  rw [ht] at h ⊢
  exact unquoted_of_digit hd h

lemma unquoted_wholeText (n : Nat) : Unquoted (wholeText n) := by
  obtain ⟨d, t, ht, hd⟩ := exists_ofNat_eq_cons n
  have h := plain_wholeText n
  rw [wholeText, ht] at h ⊢
  exact unquoted_of_digit hd h

/-- A whole real is read as the number that it was written for. -/
lemma readDecimal?_wholeText (n : Nat) : readDecimal? (wholeText n) = some (n : Rat) := by
  have hzero : Text.isNumeral ['0'] = true := rfl
  have hvalue : ((Text.digitsValue (Text.ofNat n) : Rat) +
      (Text.digitsValue ['0'] : Rat) / 10 ^ (['0'] : Text).length) = n := by
    have : Text.digitsValue ['0'] = 0 := rfl
    rw [Text.digitsValue_ofNat, this]
    simp
  have hdecimal := Decimal.fraction (Text.isNumeral_ofNat n) hzero
  rw [hvalue] at hdecimal
  exact readDecimal?_eq_some.mpr hdecimal

/-! ### Trees -/

/-- The negation of an expression, if `negative`. -/
def signedSexp (negative : Bool) (magnitude : Sexp) : Sexp :=
  if negative then .list [.atom "-", magnitude] else magnitude

/-- The tree of the text of a real that is not negative. -/
def magnitudeSexp (r : Rat) : Sexp :=
  if r.den = 1 then .atom (wholeText r.num.natAbs)
  else .list [.atom "/", .atom (wholeText r.num.natAbs), .atom (wholeText r.den)]

/-- The tree of a constant's text. -/
def Constant.sexp : Constant → Sexp
  | .bool b => .atom (if b then "true" else "false")
  | .int n => signedSexp (n < 0) (.atom (Text.ofNat n.natAbs))
  | .real r => signedSexp (r.num < 0) (magnitudeSexp r)

lemma text_signedSexp (negative : Bool) (s : Sexp) :
    (signedSexp negative s).text = signed negative s.text := by
  cases negative <;> simp [signedSexp, signed, Sexp.text, itemsText]

lemma text_magnitudeSexp (r : Rat) :
    (magnitudeSexp r).text = if r.den = 1 then wholeText r.num.natAbs
      else "(/ " ++ wholeText r.num.natAbs ++ " " ++ wholeText r.den ++ ")" := by
  unfold magnitudeSexp
  split <;> simp [Sexp.text, itemsText]

lemma Constant.text_sexp (c : Constant) : c.sexp.text = c.text := by
  cases c with
  | bool b => rfl
  | int n => rw [sexp, text_signedSexp]; rfl
  | real r => rw [sexp, text_signedSexp, text_magnitudeSexp]; rfl

lemma readable_atoms {items : List Text} (h : ∀ a ∈ items, IsAtom a) :
    (Sexp.list (items.map .atom)).Readable := by
  refine .list fun s hs => ?_
  obtain ⟨a, ha, rfl⟩ := List.mem_map.mp hs
  exact .atom (h a ha)

lemma readable_signedSexp {s : Sexp} (hs : s.Readable) (negative : Bool) :
    (signedSexp negative s).Readable := by
  cases negative with
  | false => exact hs
  | true =>
    refine .list fun u hu => ?_
    rcases List.mem_pair.mp hu with rfl | rfl
    · exact .atom (.inl (by decide))
    · exact hs

lemma readable_magnitudeSexp (r : Rat) : (magnitudeSexp r).Readable := by
  unfold magnitudeSexp
  split
  · exact .atom (.inl (unquoted_wholeText _))
  · have hslash : IsAtom "/" := .inl (by decide)
    have hitems : ∀ a ∈ [("/" : Text), wholeText r.num.natAbs, wholeText r.den], IsAtom a := by
      intro a ha
      simp only [List.mem_cons, List.not_mem_nil, or_false] at ha
      rcases ha with rfl | rfl | rfl
      · exact hslash
      · exact .inl (unquoted_wholeText _)
      · exact .inl (unquoted_wholeText _)
    exact readable_atoms hitems

/-- **Constants are readable.** -/
lemma Constant.readable_sexp (c : Constant) : c.sexp.Readable := by
  cases c with
  | bool b => cases b <;> exact .atom (.inl (by decide))
  | int n => exact readable_signedSexp (.atom (.inl (unquoted_ofNat _))) _
  | real r => exact readable_signedSexp (readable_magnitudeSexp r) _

lemma depth_signedSexp_le (negative : Bool) (s : Sexp) :
    (signedSexp negative s).depth ≤ s.depth + 1 := by
  cases negative <;> simp [signedSexp, depth, itemsDepth]

lemma Constant.depth_sexp_le (c : Constant) : c.sexp.depth ≤ 2 := by
  have hmag (r : Rat) : (magnitudeSexp r).depth ≤ 1 := by
    unfold magnitudeSexp
    split <;> simp [depth, itemsDepth]
  cases c with
  | bool b => simp [sexp, depth]
  | int n => exact (depth_signedSexp_le _ _).trans (by simp [depth])
  | real r => exact (depth_signedSexp_le _ _).trans (by have := hmag r; omega)

/-! ### Values -/

lemma evalReal?_magnitudeSexp (r : Rat) :
    evalReal? (magnitudeSexp r) = some ((r.num.natAbs : Rat) / r.den) := by
  unfold magnitudeSexp
  split
  · next h => rw [evalReal?, readDecimal?_wholeText, h]; simp
  · next h =>
    have hden : (r.den : Rat) ≠ 0 := by simp [r.den_nz]
    simp [evalReal?, readDecimal?_wholeText, hden]

lemma cast_natAbs (n : Int) : (n.natAbs : Rat) = if n < 0 then -(n : Rat) else n := by
  have hcast : ((n.natAbs : Int) : Rat) = if n < 0 then -(n : Rat) else n := by
    split
    · rw [← Int.cast_neg]
      congr 1
      omega
    · congr 1
      omega
  rwa [Int.cast_natCast] at hcast

lemma natAbs_div_den {r : Rat} (negative : Bool) (h : negative = decide (r.num < 0)) :
    ((r.num.natAbs : Rat) / r.den) = if negative then -r else r := by
  have hr : (r.num : Rat) / r.den = r := r.num_div_den
  subst h
  rw [cast_natAbs]
  by_cases hneg : r.num < 0
  · rw [if_pos hneg, if_pos (decide_eq_true hneg), neg_div, hr]
  · rw [if_neg hneg, if_neg (by simpa using hneg), hr]

/-- **The tree of a constant denotes it.** -/
theorem Constant.eval?_sexp (c : Constant) : eval? c.sort c.sexp = some c := by
  cases c with
  | bool b => cases b <;> rfl
  | int n =>
    have hatom : evalInt? (.atom (Text.ofNat n.natAbs)) = some (n.natAbs : Int) := by
      simp [evalInt?]
    by_cases hneg : n < 0
    · have hlist : evalInt? (.list [.atom "-", .atom (Text.ofNat n.natAbs)]) = some n := by
        rw [evalInt?, if_pos rfl, hatom, Option.map_some]
        congr 1
        omega
      simp only [eval?, Constant.sort, sexp, signedSexp, hneg, decide_true, if_true, hlist,
        Option.map_some]
    · have hn : (n.natAbs : Int) = n := by omega
      rw [hn] at hatom
      simp [eval?, Constant.sort, sexp, signedSexp, hneg, hatom]
  | real r =>
    have hmag := evalReal?_magnitudeSexp r
    rw [natAbs_div_den _ rfl] at hmag
    by_cases hneg : r.num < 0
    · simp only [hneg, decide_true, if_true] at hmag
      simp [eval?, Constant.sort, sexp, signedSexp, hneg, evalReal?, hmag]
    · simp only [hneg, decide_false, Bool.false_eq_true, if_false] at hmag
      simp [eval?, Constant.sort, sexp, signedSexp, hneg, hmag]

/-- The text of a constant is read as its tree. -/
lemma Constant.readExact_text (c : Constant) : readExact c.text = .ok c.sexp := by
  rw [← c.text_sexp]
  exact Sexp.readExact_text c.readable_sexp (c.depth_sexp_le.trans (by decide))

/-- **A constant is read back from its text** at its own sort. -/
theorem Constant.readValue_text (c : Constant) : readValue c.sort c.text = .ok c := by
  simp only [readValue, c.readExact_text, c.eval?_sexp]

end SmtScript.Arith
