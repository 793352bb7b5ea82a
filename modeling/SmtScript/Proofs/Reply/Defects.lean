import Mathlib.Data.Nat.Find
import SmtScript.Proofs.Reply.Acceptance

/-!
Why a list of entries is no model. An entry may be defective in several ways, of which the
first in a fixed order is reported, and several entries may be defective, of which again the
first is; what comes after it is not looked at. If no entry is defective, a variable is
missing.
-/

namespace SmtScript.Reply

variable {T : Theory} {r : Recognizer T} {count : Nat}

/-- The definition names a variable that is in scope. -/
structure Definition.Names (d : Definition) (r : Recognizer T) (count : Nat) (e : Entry T) :
    Prop where
  recognized : r.recognize? d.name = some e
  position_lt : e.position < count

/-- The entry is a definition of the variable at the position. -/
def Fills (r : Recognizer T) (p : Nat) (entry : Sexp) : Prop :=
  ∃ (d : Definition) (e : Entry T),
    entry = d.sexp ∧ r.recognize? d.name = some e ∧ e.position = p

/-- Why an entry cannot stand after the entries before it. Each reason is one only if none of
the earlier ones is. -/
inductive Defect (r : Recognizer T) (count : Nat) (before : List Sexp) :
    Sexp → DecodeError → Prop where
  | shape {entry : Sexp} (h : ∀ d : Definition, entry ≠ d.sexp) :
      Defect r count before entry (unexpected definitionExpected entry)
  | name {d : Definition} (h : ∀ e, ¬ d.Names r count e) :
      Defect r count before d.sexp (.unknownVariable d.name)
  | sort {d : Definition} {e : Entry T} (hname : d.Names r count e)
      (h : T.sortText e.sort ≠ d.sort.text) :
      Defect r count before d.sexp (.sortMismatch d.name (T.sortText e.sort) d.sort.text)
  | duplicate {d : Definition} {e : Entry T} (hname : d.Names r count e)
      (hsort : T.sortText e.sort = d.sort.text)
      (h : ∃ earlier ∈ before, Fills r e.position earlier) :
      Defect r count before d.sexp (.duplicateVariable d.name)
  | unsupported {d : Definition} {e : Entry T} (hname : d.Names r count e)
      (hsort : T.sortText e.sort = d.sort.text)
      (hfree : ¬ ∃ earlier ∈ before, Fills r e.position earlier)
      (h : T.readValue e.sort d.value.text = .error .unsupported) :
      Defect r count before d.sexp (.unsupportedModel T.name)
  | value {d : Definition} {e : Entry T} {reason : Text} (hname : d.Names r count e)
      (hsort : T.sortText e.sort = d.sort.text)
      (hfree : ¬ ∃ earlier ∈ before, Fills r e.position earlier)
      (h : T.readValue e.sort d.value.text = .error (.malformed reason)) :
      Defect r count before d.sexp
        (.invalidValue d.name (T.sortText e.sort) d.value.text reason)

/-- The entry at the index is defective. -/
def DefectAt (r : Recognizer T) (count : Nat) (entries : List Sexp) (k : Nat) (x : DecodeError) :
    Prop :=
  ∃ entry, entries[k]? = some entry ∧ Defect r count (entries.take k) entry x

/-- The entry at the index is defective, and none before it is. -/
def FirstDefect (r : Recognizer T) (count : Nat) (entries : List Sexp) (k : Nat)
    (x : DecodeError) : Prop :=
  DefectAt r count entries k x ∧ ∀ j < k, ∀ y, ¬ DefectAt r count entries j y

/-- No entry fills the position, and the positions before it are all filled. -/
structure FirstMissing (r : Recognizer T) (count : Nat) (entries : List Sexp) (p : Nat) :
    Prop where
  position_lt : p < count
  missing : ¬ ∃ entry ∈ entries, Fills r p entry
  filled : ∀ q < p, ∃ entry ∈ entries, Fills r q entry

/-! ### What has been filled -/

lemma Definition.sexp_inj {d d' : Definition} : d.sexp = d'.sexp ↔ d = d' := by
  refine ⟨fun h => ?_, congrArg _⟩
  have hd : definition? d.sexp = some d := definition?_eq_some.mpr rfl
  rw [definition?_eq_some.mpr h] at hd
  exact (Option.some.inj hd).symm

/-- The positions filled are those that the entries fill. -/
def Records (r : Recognizer T) (before : List Sexp) (filled : Filled T) : Prop :=
  ∀ p, (filled.lookup p).isSome = true ↔ ∃ earlier ∈ before, Fills r p earlier

lemma Assigns.fills_iff {entry : Sexp} {a : Nat × Assignment T} (h : Assigns r count entry a)
    (p : Nat) : Fills r p entry ↔ p = a.1 := by
  cases h with
  | @mk d e v hentry hname =>
    obtain rfl := definition?_eq_some.mp hentry
    refine ⟨?_, ?_⟩
    · rintro ⟨d', e', hd, hname', rfl⟩
      obtain rfl := Definition.sexp_inj.mp hd
      rw [Option.some.inj (hname.symm.trans hname')]
    · rintro rfl
      exact ⟨d, e, rfl, hname, rfl⟩

/-- An entry that assigns fills its position and no other. -/
lemma Records.concat {before : List Sexp} {filled : Filled T} (h : Records r before filled)
    {entry : Sexp} {a : Nat × Assignment T} (ha : Assigns r count entry a) :
    Records r (before ++ [entry]) (a :: filled) := by
  intro p
  simp only [List.mem_append, List.mem_singleton, or_and_right, exists_or, exists_eq_left,
    ha.fills_iff, ← h p]
  by_cases hp : p = a.1 <;> simp [hp]

/-! ### One entry -/

lemma filter_recognize?_eq_none {d : Definition} :
    (r.recognize? d.name).filter (fun e => e.position < count) = none ↔
      ∀ e, ¬ d.Names r count e := by
  rw [Option.eq_none_iff_forall_ne_some]
  refine forall_congr' fun e => not_congr ?_
  rw [filter_recognize?_eq_some]
  exact ⟨fun h => ⟨h.1, h.2⟩, fun h => ⟨h.1, h.2⟩⟩

lemma defect_of_decodeDefinition {before : List Sexp} {filled : Filled T}
    (hfilled : Records r before filled) {d : Definition} {x : DecodeError}
    (h : decodeDefinition r count filled d = .error x) : Defect r count before d.sexp x := by
  unfold decodeDefinition at h
  split at h
  · next hnone =>
    cases h
    exact .name (filter_recognize?_eq_none.mp hnone)
  · next e hsome =>
    obtain ⟨hrecognized, hposition⟩ := filter_recognize?_eq_some.mp hsome
    have hname : d.Names r count e := ⟨hrecognized, hposition⟩
    split at h
    · next hsort =>
      cases h
      exact .sort hname hsort
    · next hsort =>
      rw [ne_eq, not_not] at hsort
      split at h
      · next hfill =>
        cases h
        exact .duplicate hname hsort ((hfilled _).mp hfill)
      · next hfill =>
        have hfree := (hfilled e.position).not.mp hfill
        split at h
        · cases h
        · next hvalue =>
          cases h
          exact .unsupported hname hsort hfree hvalue
        · next hvalue =>
          cases h
          exact .value hname hsort hfree hvalue

lemma decodeDefinition_of_defect {before : List Sexp} {filled : Filled T}
    (hfilled : Records r before filled) {d : Definition} {x : DecodeError}
    (h : Defect r count before d.sexp x) : decodeDefinition r count filled d = .error x := by
  have hscope {e : Entry T} (hname : d.Names r count e) :
      (r.recognize? d.name).filter (fun e => e.position < count) = some e :=
    filter_recognize?_eq_some.mpr ⟨hname.recognized, hname.position_lt⟩
  unfold decodeDefinition
  -- a definition is known by its tree, so that the defect is one of this definition
  generalize hd : d.sexp = entry at h
  cases h with
  | shape hshape => exact absurd hd.symm (hshape d)
  | name hname =>
    obtain rfl := Definition.sexp_inj.mp hd
    rw [filter_recognize?_eq_none.mpr hname]
  | sort hname hsort =>
    obtain rfl := Definition.sexp_inj.mp hd
    simp only [hscope hname]
    rw [if_pos hsort]
  | duplicate hname hsort hfill =>
    obtain rfl := Definition.sexp_inj.mp hd
    simp only [hscope hname]
    rw [if_neg (not_not.mpr hsort), if_pos ((hfilled _).mpr hfill)]
  | unsupported hname hsort hfree hvalue | value hname hsort hfree hvalue =>
    obtain rfl := Definition.sexp_inj.mp hd
    simp only [hscope hname]
    rw [if_neg (not_not.mpr hsort), if_neg ((hfilled _).not.mpr hfree), hvalue]

/-- **A defective entry ends the reading**, whatever follows it. -/
theorem fill_of_defect {before : List Sexp} {filled : Filled T}
    (hfilled : Records r before filled) {entry : Sexp} {x : DecodeError}
    (h : Defect r count before entry x) (rest : List Sexp) :
    fill r count filled (entry :: rest) = .error x := by
  rw [fill]
  split
  · next hnone =>
    cases h with
    | shape => rfl
    | name | sort | duplicate | unsupported | value =>
      rw [definition?_eq_some.mpr rfl] at hnone
      cases hnone
  · next d hd =>
    obtain rfl := definition?_eq_some.mp hd
    rw [decodeDefinition_of_defect hfilled h]
    rfl

/-- **An entry without a defect fills its position**, and the reading goes on. -/
theorem fill_of_sound {before : List Sexp} {filled : Filled T}
    (hfilled : Records r before filled) {entry : Sexp}
    (h : ∀ x, ¬ Defect r count before entry x) :
    ∃ a, Records r (before ++ [entry]) (a :: filled) ∧
      ∀ rest, fill r count filled (entry :: rest) = fill r count (a :: filled) rest := by
  cases hd : definition? entry with
  | none =>
    refine absurd (.shape fun d hentry => ?_) (h _)
    rw [definition?_eq_some.mpr hentry] at hd
    cases hd
  | some d =>
    cases ha : decodeDefinition r count filled d with
    | error x =>
      have hdefect := defect_of_decodeDefinition hfilled ha
      rw [← definition?_eq_some.mp hd] at hdefect
      exact absurd hdefect (h x)
    | ok a =>
      obtain ⟨hassigns, -⟩ := (decodeDefinition_eq_ok hd).mp ha
      refine ⟨a, hfilled.concat hassigns, fun rest => ?_⟩
      rw [fill, hd]
      simp only [ha, ok_bind]

/-! ### All entries -/

lemma fill_append (filled : Filled T) (es fs : List Sexp) :
    fill r count filled (es ++ fs) = fill r count filled es >>= fun f => fill r count f fs := by
  induction es generalizing filled with
  | nil => rfl
  | cons entry es ih =>
    rw [List.cons_append, fill, fill]
    cases definition? entry with
    | none => rfl
    | some d =>
      cases hd : decodeDefinition r count filled d with
      | error x => simp only [hd]; rfl
      | ok a => simp only [hd, ok_bind, ih]

/-- **A run**: the entries up to an index are read if none of them is defective. -/
theorem exists_fill_take {entries : List Sexp} {k : Nat} (hk : k ≤ entries.length)
    (h : ∀ j < k, ∀ y, ¬ DefectAt r count entries j y) :
    ∃ filled, fill r count [] (entries.take k) = .ok filled ∧
      Records r (entries.take k) filled := by
  -- what has been filled is what the entries so far fill
  induction k with
  | zero => exact ⟨[], rfl, fun p => by simp⟩
  | succ k ih =>
    obtain ⟨filled, hfill, hrecords⟩ := ih (by omega) fun j hj => h j (by omega)
    have hentry : entries[k]? = some entries[k] := List.getElem?_eq_getElem hk
    obtain ⟨a, ha, hnext⟩ := fill_of_sound hrecords fun x hx => h k (by omega) x ⟨_, hentry, hx⟩
    rw [List.take_add_one, hentry, Option.toList_some]
    refine ⟨a :: filled, ?_, ha⟩
    rw [fill_append, hfill, ok_bind, hnext, fill]

theorem fill_of_firstDefect {entries : List Sexp} {k : Nat} {x : DecodeError}
    (h : FirstDefect r count entries k x) : fill r count [] entries = .error x := by
  obtain ⟨⟨entry, hentry, hdefect⟩, hbefore⟩ := h
  obtain ⟨hk, rfl⟩ := List.getElem?_eq_some_iff.mp hentry
  obtain ⟨filled, hfill, hrecords⟩ := exists_fill_take (Nat.le_of_lt hk) hbefore
  calc fill r count [] entries
    _ = fill r count [] (entries.take k ++ entries[k] :: entries.drop (k + 1)) := by
      rw [List.getElem_cons_drop, List.take_append_drop]
    _ = fill r count filled (entries[k] :: entries.drop (k + 1)) := by
      rw [fill_append, hfill, ok_bind]
    _ = .error x := fill_of_defect hrecords hdefect _

/-- There is a first defective entry, or there is none. -/
lemma firstDefect_or_sound (r : Recognizer T) (count : Nat) (entries : List Sexp) :
    (∃ k x, FirstDefect r count entries k x) ∨ ∀ k y, ¬ DefectAt r count entries k y := by
  classical
  by_cases h : ∃ k x, DefectAt r count entries k x
  · obtain ⟨x, hx⟩ := Nat.find_spec h
    exact .inl ⟨Nat.find h, x, hx, fun j hj y hy => Nat.find_min h hj ⟨y, hy⟩⟩
  · exact .inr fun k y hy => h ⟨k, y, hy⟩

/-! ### The variables -/

/-- The positions are looked up in order, up to one that lacks an assignment. -/
lemma collect_eq_error {filled : Filled T} {positions : List Nat}
    (hpositions : positions.Pairwise (· < ·)) {x : DecodeError} :
    collect r filled positions = .error x ↔
      ∃ p ∈ positions, filled.lookup p = none ∧
        (∀ q ∈ positions, q < p → (filled.lookup q).isSome = true) ∧
        x = .missingVariable (missingName r p) := by
  induction positions with
  | nil => simp [collect]
  | cons p positions ih =>
    obtain ⟨hp, hpositions⟩ := List.pairwise_cons.mp hpositions
    rw [collect]
    -- the positions increase: if the head is missing, it is the first one that is
    split
    · next hnone =>
      refine ⟨?_, ?_⟩
      · rintro ⟨⟩
        refine ⟨p, List.mem_cons_self, hnone, fun q hq hlt => ?_, rfl⟩
        rcases List.mem_cons.mp hq with rfl | hq
        · exact absurd hlt (Nat.lt_irrefl _)
        · exact absurd hlt (Nat.lt_asymm (hp q hq))
      · rintro ⟨p', hp', -, hbefore, rfl⟩
        rcases List.mem_cons.mp hp' with rfl | hp'
        · rfl
        · have hfilled := hbefore p List.mem_cons_self (hp p' hp')
          rw [hnone] at hfilled
          cases hfilled
    · next a hsome =>
      rw [bind_eq_error, ih hpositions]
      refine ⟨?_, ?_⟩
      · rintro (⟨p', hp', hnone, hbefore, rfl⟩ | ⟨_, -, ⟨⟩⟩)
        refine ⟨p', List.mem_cons_of_mem p hp', hnone, fun q hq hlt => ?_, rfl⟩
        rcases List.mem_cons.mp hq with rfl | hq
        · rw [hsome]
          rfl
        · exact hbefore q hq hlt
      · rintro ⟨p', hp', hnone, hbefore, rfl⟩
        rcases List.mem_cons.mp hp' with rfl | hp'
        · cases hsome.symm.trans hnone
        · exact .inl ⟨p', hp', hnone, fun q hq => hbefore q (List.mem_cons_of_mem p hq), rfl⟩

/-- Entries without a defect leave a first variable missing, if they are no model. -/
lemma collect_range_eq_error {entries : List Sexp} {filled : Filled T}
    (hfilled : Records r entries filled) {x : DecodeError} :
    collect r filled (List.range count) = .error x ↔
      ∃ p, FirstMissing r count entries p ∧ x = .missingVariable (missingName r p) := by
  have hnone (p : Nat) : filled.lookup p = none ↔ ¬ ∃ entry ∈ entries, Fills r p entry := by
    rw [← hfilled p, Option.not_isSome_iff_eq_none]
  rw [collect_eq_error List.pairwise_lt_range]
  simp only [List.mem_range, hnone, hfilled _]
  refine ⟨?_, ?_⟩
  · rintro ⟨p, hp, hmissing, hbefore, rfl⟩
    exact ⟨p, ⟨hp, hmissing, fun q hq => hbefore q (hq.trans hp) hq⟩, rfl⟩
  · rintro ⟨p, hp, rfl⟩
    exact ⟨p, hp.position_lt, hp.missing, fun q _ hq => hp.filled q hq, rfl⟩

/-! ### Models -/

/-- **Why entries are no model**: the first defective one, or else the first variable that
none of them defines. -/
theorem modelOfEntries_eq_error {ctx : Context T} {entries : List Sexp} {x : DecodeError} :
    modelOfEntries r ctx entries = .error x ↔
      (∃ k, FirstDefect r ctx.length entries k x) ∨
        (∀ k y, ¬ DefectAt r ctx.length entries k y) ∧
          ∃ p, FirstMissing r ctx.length entries p ∧ x = .missingVariable (missingName r p) := by
  rcases firstDefect_or_sound r ctx.length entries with ⟨k, y, hfirst⟩ | hsound
  · rw [modelOfEntries, fill_of_firstDefect hfirst]
    refine ⟨?_, ?_⟩
    · rintro ⟨⟩
      exact .inl ⟨k, hfirst⟩
    · rintro (⟨k', hfirst'⟩ | ⟨hsound, -⟩)
      · exact (fill_of_firstDefect hfirst).symm.trans (fill_of_firstDefect hfirst') ▸ rfl
      · exact absurd hfirst.1 (hsound k y)
  · obtain ⟨filled, hfill, hrecords⟩ :=
      exists_fill_take (Nat.le_refl entries.length) fun j _ y => hsound j y
    rw [List.take_length] at hfill hrecords
    rw [modelOfEntries, hfill, ok_bind, bind_eq_error_of_ok, collect_range_eq_error hrecords]
    · refine ⟨fun hmissing => .inr ⟨hsound, hmissing⟩, ?_⟩
      rintro (⟨k, hfirst⟩ | ⟨-, hmissing⟩)
      · exact absurd hfirst.1 (hsound k x)
      · exact hmissing
    · exact fun _ => ⟨_, rfl⟩

/-- A text is no model if its first expression cannot be read, is an atom, or is a list of
entries that make none. -/
theorem decodeModel_eq_error {ctx : Context T} {t : Text} {x : DecodeError} :
    decodeModel r ctx t = .error x ↔
      nextSexp "a model" t = .error x ∨
        (∃ a rest, Sexp.readOne t = .ok (.atom a, rest) ∧
          x = unexpected "a parenthesized model" (.atom a)) ∨
        ∃ items rest, Sexp.readOne t = .ok (.list items, rest) ∧
          modelOfEntries r ctx (withoutHead items) = .error x := by
  rw [decodeModel, bind_eq_error]
  refine or_congr_right ?_
  simp only [nextSexp_eq_ok]
  refine ⟨?_, ?_⟩
  · rintro ⟨⟨_ | items, rest⟩, hread, h⟩
    · cases h
      exact .inl ⟨_, _, hread, rfl⟩
    · rw [bind_eq_error_of_ok] at h
      · exact .inr ⟨items, rest, hread, h⟩
      · exact fun _ => ⟨_, rfl⟩
  · rintro (⟨a, rest, hread, rfl⟩ | ⟨items, rest, hread, h⟩)
    · exact ⟨_, hread, rfl⟩
    · exact ⟨_, hread, bind_eq_error.mpr (.inl h)⟩

lemma decodeModel_eq_error_of_list {ctx : Context T} {t rest : Text} {items : List Sexp}
    (hread : Sexp.readOne t = .ok (.list items, rest)) {x : DecodeError} :
    decodeModel r ctx t = .error x ↔ modelOfEntries r ctx (withoutHead items) = .error x := by
  have hnext : nextSexp "a model" t = .ok (.list items, rest) := nextSexp_eq_ok.mpr hread
  rw [decodeModel_eq_error, hnext, hread]
  refine ⟨?_, fun h => .inr (.inr ⟨items, rest, rfl, h⟩)⟩
  rintro (⟨⟨⟩⟩ | ⟨_, _, ⟨⟩, -⟩ | ⟨_, _, ⟨⟩, h⟩)
  exact h

lemma mem_of_mem_withoutHead {s : Sexp} {items : List Sexp} (h : s ∈ withoutHead items) :
    s ∈ items := by
  unfold withoutHead at h
  split at h
  · split at h
    · exact List.mem_cons_of_mem _ h
    · exact h
  · exact h

end SmtScript.Reply
