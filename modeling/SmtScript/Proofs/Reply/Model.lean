import SmtScript.Proofs.Except
import SmtScript.Proofs.Keys
import SmtScript.Reply.Decoder

/-!
Which entries make a model. `Assigns` says what one entry stands for; the entries of a
model are accepted exactly if they stand for the variables of the context with a value
each, every position once and in any order.
-/

namespace SmtScript.Reply

variable {T : Theory}

/-- The tree of a definition. -/
def Definition.sexp (d : Definition) : Sexp :=
  .list [.atom "define-fun", .atom d.name, .list [], d.sort, d.value]

lemma definition?_eq_some {entry : Sexp} {d : Definition} :
    definition? entry = some d ↔ entry = d.sexp := by
  refine ⟨?_, ?_⟩
  · intro h
    unfold definition? at h
    split at h
    · split at h
      · next hkeyword =>
        obtain rfl := Option.some.inj h
        rw [Definition.sexp, hkeyword]
      · cases h
    · cases h
  · rintro rfl
    rfl

/-- A name stands for a variable in scope. -/
lemma filter_recognize?_eq_some {r : Recognizer T} {name : Text} {count : Nat} {e : Entry T} :
    (r.recognize? name).filter (fun e => e.position < count) = some e ↔
      r.recognize? name = some e ∧ e.position < count := by
  rw [Option.filter_eq_some_iff, decide_eq_true_iff]

/-- The entry is the definition of a variable, with a value of its sort: the position of the
variable and what is assigned there. -/
inductive Assigns (r : Recognizer T) (count : Nat) : Sexp → Nat × Assignment T → Prop where
  | mk {entry : Sexp} {d : Definition} {e : Entry T} {v : T.Value}
      (hentry : definition? entry = some d) (hname : r.recognize? d.name = some e)
      (hposition : e.position < count) (hsort : T.sortText e.sort = d.sort.text)
      (hvalue : T.readValue e.sort d.value.text = .ok v) :
      Assigns r count entry (e.position, ⟨e.name, e.sort, v⟩)

lemma Assigns.position_lt {r : Recognizer T} {count : Nat} {entry : Sexp}
    {x : Nat × Assignment T} (h : Assigns r count entry x) : x.1 < count := by
  cases h with
  | mk _ _ hposition => exact hposition

lemma positions_lt {r : Recognizer T} {count : Nat} {entries : List Sexp}
    {xs : List (Nat × Assignment T)} (h : List.Forall₂ (Assigns r count) entries xs) :
    ∀ x ∈ xs, x.1 < count := by
  intro x hx
  obtain ⟨entry, -, hassigns⟩ := exists_of_mem_forall₂ h hx
  exact hassigns.position_lt

/-- **One entry**: a definition is decoded if it assigns to a position that is still free. -/
theorem decodeDefinition_eq_ok {r : Recognizer T} {count : Nat} {filled : Filled T}
    {entry : Sexp} {d : Definition} (hd : definition? entry = some d) {x : Nat × Assignment T} :
    decodeDefinition r count filled d = .ok x ↔
      Assigns r count entry x ∧ x.1 ∉ filled.map Prod.fst := by
  rw [← lookup_eq_none_iff_not_mem]
  refine ⟨?_, ?_⟩
  · intro h
    unfold decodeDefinition at h
    split at h
    · cases h
    · next e he =>
      obtain ⟨hname, hposition⟩ := filter_recognize?_eq_some.mp he
      split at h
      · cases h
      · next hsort =>
        split at h
        · cases h
        · next hfree =>
          split at h
          · next v hvalue =>
            obtain rfl := Except.ok.inj h
            exact ⟨.mk hd hname hposition (not_not.mp hsort) hvalue,
              Option.not_isSome_iff_eq_none.mp hfree⟩
          · cases h
          · cases h
  · rintro ⟨h, hfree⟩
    cases h with
    | @mk d' e v hd' hname hposition hsort hvalue =>
      obtain rfl := Option.some.inj (hd.symm.trans hd')
      unfold decodeDefinition
      rw [filter_recognize?_eq_some.mpr ⟨hname, hposition⟩]
      simp only [hsort, ne_eq, not_true_eq_false, if_false, hfree, Option.isSome_none,
        Bool.false_eq_true, hvalue]

/-- The entries are read one after another; together they fill no position twice. -/
lemma fill_eq_ok {r : Recognizer T} {count : Nat} {filled last : Filled T}
    (hfilled : (filled.map Prod.fst).Nodup) {entries : List Sexp} :
    fill r count filled entries = .ok last ↔
      ∃ xs, List.Forall₂ (Assigns r count) entries xs ∧ last = xs.reverse ++ filled ∧
        (last.map Prod.fst).Nodup := by
  induction entries generalizing filled with
  | nil =>
    rw [fill]
    refine ⟨?_, ?_⟩
    · intro h
      obtain rfl := Except.ok.inj h
      exact ⟨[], .nil, rfl, hfilled⟩
    · rintro ⟨_, ⟨⟩, rfl, -⟩
      rfl
  | cons entry entries ih =>
    rw [fill]
    split
    · next hnone =>
      refine ⟨nofun, ?_⟩
      rintro ⟨_, hassigns, -⟩
      obtain _ | ⟨⟨hd, -⟩, -⟩ := hassigns
      rw [hnone] at hd
      cases hd
    · next d hd =>
      rw [bind_eq_ok]
      refine ⟨?_, ?_⟩
      · rintro ⟨x, hx, hrest⟩
        obtain ⟨hassigns, hfree⟩ := (decodeDefinition_eq_ok hd).mp hx
        have hnodup : ((x :: filled).map Prod.fst).Nodup := List.nodup_cons.mpr ⟨hfree, hfilled⟩
        obtain ⟨xs, hall, rfl, hlast⟩ := (ih hnodup).mp hrest
        exact ⟨x :: xs, .cons hassigns hall, by simp, hlast⟩
      · rintro ⟨_, hassigns, rfl, hlast⟩
        obtain ⟨x, xs, hx, hall, rfl⟩ := List.forall₂_cons_left_iff.mp hassigns
        have hsplit : (x :: xs).reverse ++ filled = xs.reverse ++ x :: filled := by simp
        have hnodup : ((x :: filled).map Prod.fst).Nodup := by
          rw [hsplit, List.map_append] at hlast
          exact hlast.of_append_right
        have hfree : x.1 ∉ filled.map Prod.fst := (List.nodup_cons.mp hnodup).1
        have hfirst := (decodeDefinition_eq_ok hd).mpr ⟨hx, hfree⟩
        exact ⟨x, hfirst, (ih hnodup).mpr ⟨xs, hall, hsplit, hlast⟩⟩

lemma collect_eq_ok {r : Recognizer T} {filled : Filled T} {positions : List Nat}
    {as : List (Assignment T)} :
    collect r filled positions = .ok as ↔
      List.Forall₂ (fun p a => filled.lookup p = some a) positions as := by
  induction positions generalizing as with
  | nil =>
    rw [collect, List.forall₂_nil_left_iff, Except.ok.injEq, eq_comm]
  | cons p positions ih =>
    rw [collect]
    split
    · next hnone =>
      refine ⟨nofun, fun h => ?_⟩
      obtain _ | ⟨hp, -⟩ := h
      rw [hnone] at hp
      cases hp
    · next a hp =>
      simp only [bind_eq_ok, pure_eq_ok, ih]
      refine ⟨?_, ?_⟩
      · rintro ⟨as, hrest, rfl⟩
        exact .cons hp hrest
      · intro h
        obtain _ | ⟨hp', hrest⟩ := h
        obtain rfl := Option.some.inj (hp.symm.trans hp')
        exact ⟨_, hrest, rfl⟩

/-- **What makes a model**: the entries assign to the variables of the context, one each, in
any order, and the model lists the assignments by position. -/
theorem modelOfEntries_eq_ok {r : Recognizer T} {ctx : Context T} {entries : List Sexp}
    {m : Model T} :
    modelOfEntries r ctx entries = .ok m ↔
      m.assignments.length = ctx.length ∧
        ∃ xs, List.Forall₂ (Assigns r ctx.length) entries xs ∧
          xs.Perm ((List.range ctx.length).zip m.assignments) := by
  have hnil : (([] : Filled T).map Prod.fst).Nodup := List.nodup_nil
  simp only [modelOfEntries, bind_eq_ok, pure_eq_ok, fill_eq_ok hnil, collect_eq_ok]
  refine ⟨?_, ?_⟩
  · rintro ⟨_, ⟨xs, hall, rfl, hnodup⟩, as, hcollect, rfl⟩
    rw [List.append_nil, List.map_reverse, List.nodup_reverse] at hnodup
    simp only [List.append_nil, lookup_reverse_eq_some hnodup] at hcollect
    obtain ⟨hlen, hperm⟩ := (forall₂_range_iff_perm (positions_lt hall)).mp ⟨hnodup, hcollect⟩
    exact ⟨hlen, xs, hall, hperm⟩
  · rintro ⟨hlen, xs, hall, hperm⟩
    obtain ⟨hnodup, hcollect⟩ := (forall₂_range_iff_perm (positions_lt hall)).mpr ⟨hlen, hperm⟩
    refine ⟨_, ⟨xs, hall, rfl, ?_⟩, m.assignments, ?_, rfl⟩
    · rwa [List.append_nil, List.map_reverse, List.nodup_reverse]
    · simpa only [List.append_nil, lookup_reverse_eq_some hnodup] using hcollect

/-- What a model has at a position is assigned there by one of its entries. -/
lemma exists_assigns {r : Recognizer T} {ctx : Context T} {entries : List Sexp} {m : Model T}
    (h : modelOfEntries r ctx entries = .ok m) {p : Nat} {a : Assignment T}
    (ha : m.assignments[p]? = some a) : ∃ entry ∈ entries, Assigns r ctx.length entry (p, a) := by
  obtain ⟨hsize, xs, hall, hxs⟩ := modelOfEntries_eq_ok.mp h
  exact exists_of_mem_forall₂ hall (hxs.mem_iff.mpr ((mem_range_zip hsize).mpr ha))

end SmtScript.Reply
