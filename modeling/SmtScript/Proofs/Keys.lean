import Mathlib.Data.List.Nodup
import Mathlib.Data.List.Forall2

/-!
Lists whose items have keys. Where no two items have one key, what is found under a key does
not depend on the order of the items; where the keys are positions, each once, the items are
those of a list with its positions.
-/

namespace SmtScript

variable {α β : Type}

/-- The search for a key that at most one item has. -/
lemma find?_eq_some_of_nodup [BEq β] [LawfulBEq β] {f : α → β} {l : List α}
    (h : (l.map f).Nodup) {k : β} {a : α} :
    (l.find? fun x => f x == k) = some a ↔ a ∈ l ∧ f a = k := by
  induction l with
  | nil => simp
  | cons x l ih =>
    rw [List.map_cons, List.nodup_cons] at h
    by_cases hx : f x = k
    · subst hx
      rw [List.find?_cons_of_pos (by simp)]
      refine ⟨?_, ?_⟩
      · intro heq
        obtain rfl := Option.some.inj heq
        simp
      · rintro ⟨hmem, heq⟩
        rcases List.mem_cons.mp hmem with rfl | hmem
        · rfl
        · exact absurd (heq ▸ List.mem_map_of_mem hmem) h.1
    · rw [List.find?_cons_of_neg (by simpa using hx), ih h.2, List.mem_cons]
      refine ⟨?_, ?_⟩
      · exact fun ⟨hmem, heq⟩ => ⟨.inr hmem, heq⟩
      · rintro ⟨rfl | hmem, heq⟩
        · exact absurd heq hx
        · exact ⟨hmem, heq⟩

lemma lookup_eq_some_of_nodup [BEq α] [LawfulBEq α] {l : List (α × β)}
    (h : (l.map Prod.fst).Nodup) {k : α} {b : β} : l.lookup k = some b ↔ (k, b) ∈ l := by
  rw [List.lookup_eq_some_iff]
  refine ⟨?_, ?_⟩
  · rintro ⟨before, after, rfl, -⟩
    simp
  · intro hmem
    obtain ⟨before, after, rfl⟩ := List.append_of_mem hmem
    refine ⟨before, after, rfl, fun p hp => ?_⟩
    rw [List.map_append, List.nodup_append] at h
    rw [bne_iff_ne]
    exact (h.2.2 p.1 (List.mem_map_of_mem hp) k (by simp)).symm

lemma lookup_reverse_eq_some [BEq α] [LawfulBEq α] {l : List (α × β)}
    (h : (l.map Prod.fst).Nodup) {k : α} {b : β} : l.reverse.lookup k = some b ↔ (k, b) ∈ l := by
  rw [lookup_eq_some_of_nodup (by rwa [List.map_reverse, List.nodup_reverse]), List.mem_reverse]

lemma lookup_eq_none_iff_not_mem [BEq α] [LawfulBEq α] {l : List (α × β)} {k : α} :
    l.lookup k = none ↔ k ∉ l.map Prod.fst := by
  rw [List.lookup_eq_none_iff, List.mem_map]
  refine ⟨?_, ?_⟩
  · rintro h ⟨p, hp, rfl⟩
    exact absurd rfl (bne_iff_ne.mp (h p hp))
  · intro h p hp
    rw [bne_iff_ne]
    rintro rfl
    exact h ⟨p, hp, rfl⟩

/-! ### Lists with their positions -/

section

variable {n : Nat} {bs : List β} (hlen : bs.length = n)

include hlen

lemma map_fst_range_zip : ((List.range n).zip bs).map Prod.fst = List.range n :=
  List.map_fst_zip (by simp [hlen])

lemma nodup_range_zip : (((List.range n).zip bs).map Prod.fst).Nodup := by
  rw [map_fst_range_zip hlen]
  exact List.nodup_range

lemma mem_range_zip {x : Nat × β} : x ∈ (List.range n).zip bs ↔ bs[x.1]? = some x.2 := by
  simp only [List.mem_iff_getElem?, List.getElem?_zip_eq_some]
  refine ⟨?_, fun h => ?_⟩
  · rintro ⟨p, hp, h⟩
    obtain ⟨hlt, hp⟩ := List.getElem?_eq_some_iff.mp hp
    rwa [← hp, List.getElem_range]
  · have hlt := (List.getElem?_eq_some_iff.mp h).1
    exact ⟨x.1, List.getElem?_range (hlen ▸ hlt), h⟩

/-- The items of a list with their positions, in any order: each position is a key once, and
under it stands the item at that position. -/
lemma perm_range_zip_iff {l : List (Nat × β)} :
    l.Perm ((List.range n).zip bs) ↔
      (l.map Prod.fst).Perm (List.range n) ∧ ∀ x ∈ l, bs[x.1]? = some x.2 := by
  refine ⟨fun h => ⟨?_, fun x hx => (mem_range_zip hlen).mp (h.mem_iff.mp hx)⟩, ?_⟩
  · rw [← map_fst_range_zip hlen]
    exact h.map Prod.fst
  · rintro ⟨hkeys, hitems⟩
    have hnodup : (l.map Prod.fst).Nodup := hkeys.nodup_iff.mpr List.nodup_range
    refine (List.perm_ext_iff_of_nodup hnodup.of_map (nodup_range_zip hlen).of_map).mpr fun x => ?_
    rw [mem_range_zip hlen]
    refine ⟨hitems x, fun hx => ?_⟩
    -- the position of `x` is the key of some item, which can be no other than `x`
    have hlt : x.1 < n := hlen ▸ (List.getElem?_eq_some_iff.mp hx).1
    obtain ⟨y, hy, hkey⟩ := List.mem_map.mp (hkeys.mem_iff.mpr (List.mem_range.mpr hlt))
    have hitem := hitems y hy
    rw [hkey, hx] at hitem
    rwa [Prod.ext hkey.symm (Option.some.inj hitem)]

end

/-- Items with the keys below `n`, each once, are those of a list with its positions. -/
lemma forall₂_range_iff_perm {n : Nat} {l : List (Nat × β)} {bs : List β}
    (hkeys : ∀ p ∈ l, p.1 < n) :
    (l.map Prod.fst).Nodup ∧ List.Forall₂ (fun k b => (k, b) ∈ l) (List.range n) bs ↔
      bs.length = n ∧ l.Perm ((List.range n).zip bs) := by
  refine ⟨?_, ?_⟩
  · rintro ⟨hnodup, hall⟩
    have hlen : bs.length = n := by simpa using hall.length_eq.symm
    refine ⟨hlen, ?_⟩
    have hsub : ∀ p ∈ (List.range n).zip bs, p ∈ l := fun p hp => List.forall₂_zip hall hp
    refine (List.perm_ext_iff_of_nodup hnodup.of_map (nodup_range_zip hlen).of_map).mpr fun p =>
      ⟨?_, hsub p⟩
    intro hp
    -- the position of `p` is listed, and at most one item of `l` has it
    have hmem : p.1 ∈ ((List.range n).zip bs).map Prod.fst := by
      rw [map_fst_range_zip hlen, List.mem_range]
      exact hkeys p hp
    obtain ⟨q, hq, hkey⟩ := List.mem_map.mp hmem
    rwa [← List.inj_on_of_nodup_map hnodup (hsub q hq) hp hkey]
  · rintro ⟨hlen, hperm⟩
    refine ⟨(hperm.map Prod.fst).nodup_iff.mpr (nodup_range_zip hlen), ?_⟩
    refine List.forall₂_iff_zip.mpr ⟨by simp [hlen], fun hp => hperm.mem_iff.mpr hp⟩

/-- A list is the numbers below `n` in some order if it has no others, and each once. -/
lemma perm_range_iff {n : Nat} {ps : List Nat} :
    ps.Perm (List.range n) ↔ (∀ p ∈ ps, p < n) ∧ ∀ p < n, ps.count p = 1 := by
  have honce (p : Nat) (hp : p < n) : (List.range n).count p = 1 :=
    List.count_eq_one_of_mem List.nodup_range (List.mem_range.mpr hp)
  refine ⟨fun h => ⟨fun p hp => List.mem_range.mp (h.mem_iff.mp hp), fun p hp => ?_⟩, ?_⟩
  · rw [h.count_eq, honce p hp]
  · rintro ⟨hlt, hcount⟩
    refine List.perm_iff_count.mpr fun p => ?_
    by_cases hp : p < n
    · rw [hcount p hp, honce p hp]
    · rw [List.count_eq_zero_of_not_mem fun h => hp (hlt p h),
        List.count_eq_zero_of_not_mem fun h => hp (List.mem_range.mp h)]

/-! ### Lists item by item -/

lemma exists_of_mem_forall₂ {γ δ : Type} {R : γ → δ → Prop} {cs : List γ} {ds : List δ}
    (h : List.Forall₂ R cs ds) {d : δ} (hd : d ∈ ds) : ∃ c ∈ cs, R c d := by
  induction h with
  | nil => cases hd
  | @cons c d' cs ds hcd _ ih =>
    rcases List.mem_cons.mp hd with rfl | hd
    · exact ⟨c, by simp, hcd⟩
    · obtain ⟨c', hmem, hr⟩ := ih hd
      exact ⟨c', List.mem_cons_of_mem c hmem, hr⟩

/-- Two lists are related item by item exactly if one list gives the items of both. -/
lemma forall₂_iff_exists_map {γ : Type} {R : α → β → Prop} {P : γ → Prop} {f : γ → α}
    {g : γ → β} (h : ∀ a b, R a b ↔ ∃ c, P c ∧ a = f c ∧ b = g c) {as : List α} {bs : List β} :
    List.Forall₂ R as bs ↔ ∃ cs : List γ, (∀ c ∈ cs, P c) ∧ as = cs.map f ∧ bs = cs.map g := by
  refine ⟨fun hall => ?_, ?_⟩
  · induction hall with
    | nil => exact ⟨[], nofun, rfl, rfl⟩
    | cons hab _ ih =>
      obtain ⟨c, hc, rfl, rfl⟩ := (h _ _).mp hab
      obtain ⟨cs, hcs, rfl, rfl⟩ := ih
      exact ⟨c :: cs, List.forall_mem_cons.mpr ⟨hc, hcs⟩, rfl, rfl⟩
  · rintro ⟨cs, hcs, rfl, rfl⟩
    rw [List.forall₂_map_left_iff, List.forall₂_map_right_iff, List.forall₂_same]
    exact fun c hc => (h _ _).mpr ⟨c, hcs c hc, rfl, rfl⟩

/-! ### Items after those before them -/

/-- What is made of each item and the items before it: one more item at the end adds what is
made of it and all others. -/
lemma flatMap_zipIdx_concat (f : List α → α → List β) (l : List α) (a : α) :
    ((l ++ [a]).zipIdx.flatMap fun (x, k) => f ((l ++ [a]).take k) x) =
      (l.zipIdx.flatMap fun (x, k) => f (l.take k) x) ++ f l a := by
  have hbefore : ∀ p ∈ l.zipIdx, f ((l ++ [a]).take p.2) p.1 = f (l.take p.2) p.1 := by
    intro p hp
    have hlt := List.snd_lt_of_mem_zipIdx hp
    rw [List.take_append_of_le_length (by omega)]
  rw [List.zipIdx_append, List.flatMap_append, List.flatMap_congr hbefore]
  simp

end SmtScript
