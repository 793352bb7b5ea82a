import SmtScript.Naming
import SmtScript.Proofs.Keys
import SmtScript.Recognizer

/-!
The recognizer of a context whose variables are numbered: it tells the name of each
position and the position of each name. If the numbers increase, it is the inverse of the
context's naming.
-/

namespace SmtScript.Recognizer

variable {T : Theory}

/-- An entry for each variable of the context, under the name with its number. -/
def numbered (ctx : Context T) (numbers : List Nat) : Recognizer T :=
  (ctx.zip numbers).mapIdx fun position (sort, n) => ⟨Naming.nameOf n, sort, position⟩

section

variable {ctx : Context T} {numbers : List Nat} (hlen : numbers.length = ctx.length)

include hlen

lemma numbered_extend (sort : T.Sorts) (n : Nat) :
    numbered (ctx.extend sort) (numbers ++ [n]) =
      numbered ctx numbers ++ [⟨Naming.nameOf n, sort, ctx.length⟩] := by
  unfold numbered Context.extend
  rw [List.zip_append hlen.symm, List.mapIdx_append]
  simp [hlen]

lemma map_name_numbered :
    (numbered ctx numbers).map Entry.name = numbers.map Naming.nameOf := by
  apply List.ext_getElem
  · simp [numbered, hlen]
  · intro i hi hi'
    simp [numbered]

lemma map_position_numbered :
    (numbered ctx numbers).map Entry.position = List.range ctx.length := by
  apply List.ext_getElem
  · simp [numbered, hlen]
  · intro i hi hi'
    simp [numbered]

lemma mem_numbered {e : Entry T} :
    e ∈ numbered ctx numbers ↔
      ctx[e.position]? = some e.sort ∧ numbers[e.position]?.map Naming.nameOf = some e.name := by
  rw [numbered, List.mem_mapIdx]
  refine ⟨?_, ?_⟩
  · rintro ⟨p, hp, rfl⟩
    rw [List.length_zip, hlen, Nat.min_self] at hp
    simp [hp, hlen]
  · rintro ⟨hsort, hname⟩
    obtain ⟨hp, hsort⟩ := List.getElem?_eq_some_iff.mp hsort
    rw [List.getElem?_eq_getElem (by omega)] at hname
    refine ⟨e.position, by rw [List.length_zip]; omega, ?_⟩
    simp only [List.getElem_zip, hsort, Option.some.inj hname]

/-- A name stands for the variable with its number. -/
theorem recognize?_numbered (hnumbers : numbers.Nodup) {name : Text} {e : Entry T} :
    (numbered ctx numbers).recognize? name = some e ↔
      e.name = name ∧ ctx[e.position]? = some e.sort ∧
        numbers[e.position]?.map Naming.nameOf = some name := by
  have hnodup : ((numbered ctx numbers).map Entry.name).Nodup := by
    rw [map_name_numbered hlen]
    exact hnumbers.map fun _ _ h => Naming.nameOf_inj.mp h
  rw [recognize?, find?_eq_some_of_nodup hnodup, mem_numbered hlen]
  refine ⟨?_, ?_⟩
  · rintro ⟨⟨hsort, hnumber⟩, rfl⟩
    exact ⟨rfl, hsort, hnumber⟩
  · rintro ⟨rfl, hsort, hnumber⟩
    exact ⟨⟨hsort, hnumber⟩, rfl⟩

/-- A position has the name with its number. -/
theorem nameOf?_numbered (p : Nat) :
    (numbered ctx numbers).nameOf? p = numbers[p]?.map Naming.nameOf := by
  have hnodup : ((numbered ctx numbers).map Entry.position).Nodup := by
    rw [map_position_numbered hlen]
    exact List.nodup_range
  rcases Nat.lt_or_ge p ctx.length with hp | hp
  · have hn : p < numbers.length := by omega
    have hmem : (⟨Naming.nameOf numbers[p], ctx[p], p⟩ : Entry T) ∈ numbered ctx numbers := by
      rw [mem_numbered hlen]
      simp [hp, hn]
    rw [nameOf?, (find?_eq_some_of_nodup hnodup).mpr ⟨hmem, rfl⟩, List.getElem?_eq_getElem hn]
    rfl
  · rw [nameOf?, List.getElem?_eq_none (by omega), List.find?_eq_none.mpr]
    · rfl
    · intro e he
      obtain ⟨hsort, -⟩ := (mem_numbered hlen).mp he
      have := (List.getElem?_eq_some_iff.mp hsort).1
      simp only [beq_iff_eq]
      omega

lemma length_numbered : (numbered ctx numbers).length = ctx.length := by
  simp [numbered, hlen]

end

/-! ### Names and positions -/

/-- The recognizer has the variables of the context in order, under names whose numbers
increase. It leads from each position to its name and back, and from each name that it
knows to its position and back. -/
structure Inverts (r : Recognizer T) (ctx : Context T) : Prop where
  length_eq : r.length = ctx.length
  position_eq : ∀ p (hp : p < r.length), r[p].position = p ∧ ctx[p]? = some r[p].sort
  increasing : ∃ numbers : List Nat,
    numbers.Pairwise (· < ·) ∧ r.map Entry.name = numbers.map Naming.nameOf
  recognize_nameOf : ∀ p (hp : p < r.length),
    ∃ name, r.nameOf? p = some name ∧ r.recognize? name = some r[p]
  nameOf_recognize : ∀ name e, r.recognize? name = some e → r.nameOf? e.position = some name

/-- **Increasing numbers make the recognizer an inverse.** -/
theorem inverts_numbered {ctx : Context T} {numbers : List Nat}
    (hlen : numbers.length = ctx.length) (hnumbers : numbers.Pairwise (· < ·)) :
    (numbered ctx numbers).Inverts ctx := by
  have hnodup : numbers.Nodup := hnumbers.imp Nat.ne_of_lt
  have hentry (p : Nat) (hp : p < (numbered ctx numbers).length) :
      ∃ (hc : p < ctx.length) (hn : p < numbers.length),
        (numbered ctx numbers)[p] = ⟨Naming.nameOf numbers[p], ctx[p], p⟩ := by
    rw [length_numbered hlen] at hp
    exact ⟨hp, hlen ▸ hp, by simp [numbered]⟩
  refine ⟨length_numbered hlen, fun p hp => ?_, ?_, fun p hp => ?_, fun name e he => ?_⟩
  · obtain ⟨hc, hn, heq⟩ := hentry p hp
    rw [heq]
    exact ⟨rfl, List.getElem?_eq_getElem hc⟩
  · exact ⟨numbers, hnumbers, map_name_numbered hlen⟩
  · obtain ⟨hc, hn, heq⟩ := hentry p hp
    refine ⟨Naming.nameOf numbers[p], ?_, ?_⟩
    · rw [nameOf?_numbered hlen, List.getElem?_eq_getElem hn]
      rfl
    · rw [recognize?_numbered hlen hnodup, heq]
      simp [hc, hn]
  · obtain ⟨-, -, hname⟩ := (recognize?_numbered hlen hnodup).mp he
    rw [nameOf?_numbered hlen, hname]

/-! ### More entries -/

/-- Entries that are added to those of a context stand at positions beyond it. -/
lemma le_position_of_append {ctx ctx' : Context T} {numbers numbers' : List Nat}
    (hlen : numbers.length = ctx.length) (hlen' : numbers'.length = ctx'.length)
    {more : Recognizer T} (h : numbered ctx' numbers' = numbered ctx numbers ++ more) :
    ∀ e ∈ more, ctx.length ≤ e.position := by
  intro e he
  have hpositions := congrArg (List.map Entry.position) h
  rw [List.map_append, map_position_numbered hlen', map_position_numbered hlen] at hpositions
  have hincreasing : (List.range ctx'.length).Pairwise (· < ·) := List.pairwise_lt_range
  rw [hpositions, List.pairwise_append] at hincreasing
  by_contra hlt
  have hmem : e.position ∈ List.range ctx.length := List.mem_range.mpr (Nat.lt_of_not_le hlt)
  exact Nat.lt_irrefl _ (hincreasing.2.2 _ hmem _ (List.mem_map_of_mem he))

/-- The recognizers agree about the positions below a number: on the names that stand for
them and on what they are called. -/
structure AgreeBelow (count : Nat) (r r' : Recognizer T) : Prop where
  recognize?_eq : ∀ name, (r.recognize? name).filter (fun e => e.position < count) =
    (r'.recognize? name).filter fun e => e.position < count
  nameOf?_eq : ∀ p < count, r.nameOf? p = r'.nameOf? p

/-- **Entries at later positions change nothing below them.** The first entry that fits is
taken: a name that had an entry keeps it, and a name that had none gets one that is out of
range. -/
lemma agreeBelow_append {r more : Recognizer T} {count : Nat}
    (hr : ∀ p < count, ∃ e ∈ r, e.position = p) (hmore : ∀ e ∈ more, count ≤ e.position) :
    AgreeBelow count r (r ++ more) := by
  refine ⟨fun name => ?_, fun p hp => ?_⟩
  · unfold recognize?
    rw [List.find?_append]
    cases hfirst : r.find? fun e => e.name == name with
    | some e => rfl
    | none =>
      rw [Option.none_or, Option.filter_none, eq_comm, Option.filter_eq_none_iff]
      intro e he
      have hle := hmore e (List.mem_of_find?_eq_some he)
      simpa using hle
  · obtain ⟨e, he, rfl⟩ := hr p hp
    have hfound : (r.find? fun e' => e'.position == e.position).isSome = true :=
      List.find?_isSome.mpr ⟨e, he, beq_self_eq_true _⟩
    obtain ⟨e', he'⟩ := Option.isSome_iff_exists.mp hfound
    rw [nameOf?, nameOf?, List.find?_append, he']
    rfl

lemma AgreeBelow.mono {count count' : Nat} {r r' : Recognizer T} (h : AgreeBelow count r r')
    (hle : count' ≤ count) : AgreeBelow count' r r' := by
  refine ⟨fun name => ?_, fun p hp => h.nameOf?_eq p (by omega)⟩
  have hbelow : (fun e : Entry T => decide (e.position < count')) =
      fun e => decide (e.position < count) && decide (e.position < count') := by
    funext e
    rw [← Bool.decide_and, decide_eq_decide]
    omega
  rw [hbelow, ← Option.filter_filter, h.recognize?_eq, Option.filter_filter]

end SmtScript.Recognizer
