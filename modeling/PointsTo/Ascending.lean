import PointsTo.Id

/-!
# Ascending lists of ids

A set of ids is listed in ascending order, each id once.  Such a list is made by
sorting ids and leaving out those that repeat their neighbour, and it is searched
by halving.

Main definitions:

- {lit}`Id.ascending`: the ids of a list in ascending order, each once.
- {lit}`Id.search?`: the position of an id, by halving.

Main statements:

- {lit}`pairwise_ascending`, {lit}`mem_ascending`: what such a list is.
- {lit}`eq_of_pairwise`: it is determined by its members.
- {lit}`isSome_search?`: in a sorted list exactly the members are found.
-/

namespace PointsTo.Id

variable {e : Entity}

/-- The ids of a list in ascending order, as often as they are in it. -/
def sort (ids : List (Id e)) : List (Id e) :=
  ids.mergeSort fun i j => decide (i.index ≤ j.index)

/-- A list without the ids that are followed by themselves. -/
def dedup : List (Id e) → List (Id e)
  | [] => []
  | [i] => [i]
  | i :: j :: rest => if i = j then dedup (j :: rest) else i :: dedup (j :: rest)

/-- The ids of a list in ascending order, each once. -/
def ascending (ids : List (Id e)) : List (Id e) := dedup (sort ids)

/-- Halve the {lit}`size` ids from position {lit}`base` on until one is left.  The
upper part is kept unless its first id comes after {lit}`i`. -/
def halve (ids : List (Id e)) (i : Id e) (base size : Nat) : Nat :=
  if size ≤ 1 then base
  else if ids[base + size / 2]?.any fun j => decide (i.index < j.index) then
    halve ids i base (size - size / 2)
  else halve ids i (base + size / 2) (size - size / 2)
termination_by size

/-- The position of an id in a sorted list, if it is there. -/
def search? (ids : List (Id e)) (i : Id e) : Option Nat :=
  let found := halve ids i 0 ids.length
  if ids[found]? = some i then some found else none

/-! ## Sorting -/

/-- Ids are equal if their numbers are. -/
theorem ext_index {i j : Id e} (h : i.index = j.index) : i = j := by
  cases i; cases j; cases h; rfl

/-- Sorting neither adds nor drops ids. -/
@[simp] theorem mem_sort {i : Id e} {ids : List (Id e)} : i ∈ sort ids ↔ i ∈ ids :=
  List.mem_mergeSort

/-- Sorted ids ascend. -/
theorem pairwise_sort (ids : List (Id e)) :
    (sort ids).Pairwise fun i j => i.index ≤ j.index := by
  have h : (sort ids).Pairwise fun i j => decide (i.index ≤ j.index) = true := by
    apply List.pairwise_mergeSort
    · intro i j k hij hjk
      simp only [decide_eq_true_eq] at *
      omega
    · intro i j
      simp only [Bool.or_eq_true, decide_eq_true_eq]
      omega
  exact h.imp of_decide_eq_true

/-- Dropping repetitions drops no ids. -/
@[simp] theorem mem_dedup {i : Id e} {ids : List (Id e)} : i ∈ dedup ids ↔ i ∈ ids := by
  fun_induction dedup ids with
  | case1 | case2 => rfl
  | case3 j rest ih => simp [ih]
  | case4 j k rest hne ih => rw [List.mem_cons, ih, List.mem_cons (a := i) (b := j)]

/-- Equal ids of a sorted list are neighbours, so that none is left twice. -/
theorem pairwise_dedup {ids : List (Id e)} (h : ids.Pairwise fun i j => i.index ≤ j.index) :
    (dedup ids).Pairwise fun i j => i.index < j.index := by
  fun_induction dedup ids with
  | case1 => exact .nil
  | case2 i => exact List.pairwise_singleton _ _
  | case3 j rest ih => exact ih (List.pairwise_cons.1 h).2
  | case4 i j rest hne ih =>
    obtain ⟨hi, hrest⟩ := List.pairwise_cons.1 h
    refine List.pairwise_cons.2 ⟨?_, ih hrest⟩
    intro k hk
    have hij : i.index < j.index :=
      Nat.lt_of_le_of_ne (hi j List.mem_cons_self) fun heq => hne (ext_index heq)
    rcases List.mem_cons.1 (mem_dedup.1 hk) with rfl | hk
    · exact hij
    · exact Nat.lt_of_lt_of_le hij ((List.pairwise_cons.1 hrest).1 k hk)

/-- The ascending list has the ids of the list. -/
@[simp] theorem mem_ascending {i : Id e} {ids : List (Id e)} : i ∈ ascending ids ↔ i ∈ ids := by
  rw [ascending, mem_dedup, mem_sort]

/-- It ascends strictly. -/
theorem pairwise_ascending (ids : List (Id e)) :
    (ascending ids).Pairwise fun i j => i.index < j.index :=
  pairwise_dedup (pairwise_sort ids)

/-- There is one ascending list with given members. -/
theorem eq_of_pairwise {is js : List (Id e)} (hi : is.Pairwise fun i j => i.index < j.index)
    (hj : js.Pairwise fun i j => i.index < j.index) (h : ∀ i, i ∈ is ↔ i ∈ js) : is = js := by
  have hne : ∀ {i j : Id e}, i.index < j.index → i ≠ j :=
    fun hlt heq => Nat.lt_irrefl _ (heq ▸ hlt)
  have hperm : is.Perm js := (List.perm_ext_iff_of_nodup (hi.imp hne) (hj.imp hne)).2 h
  refine hperm.eq_of_pairwise ?_ hi hj
  intro i j _ _ hij hji
  exact absurd hij (Nat.lt_asymm hji)

/-! ## Searching -/

section Search

variable {ids : List (Id e)} (h : ids.Pairwise fun i j => i.index ≤ j.index)

include h

/-- In an ascending list, later ids are not smaller. -/
theorem index_le_of_le {i j : Id e} {k l : Nat} (hi : ids[k]? = some i) (hj : ids[l]? = some j)
    (hkl : k ≤ l) : i.index ≤ j.index := by
  obtain ⟨hk, rfl⟩ := List.getElem?_eq_some_iff.1 hi
  obtain ⟨hl, rfl⟩ := List.getElem?_eq_some_iff.1 hj
  rcases Nat.lt_or_eq_of_le hkl with hlt | rfl
  · exact List.pairwise_iff_getElem.1 h k l hk hl hlt
  · exact Nat.le_refl _

/-- An id that is among those left to be searched is found. -/
theorem getElem?_halve {i : Id e} {base size k : Nat} (hsize : base + size ≤ ids.length)
    (hbase : base ≤ k) (hk : k < base + size) (hi : ids[k]? = some i) :
    ids[halve ids i base size]? = some i := by
  fun_induction halve ids i base size generalizing k with
  | case1 base size hone =>
    have : k = base := by omega
    rwa [← this]
  | case2 base size hmore hbeyond ih =>
    obtain ⟨j, hj, hlt⟩ : ∃ j, ids[base + size / 2]? = some j ∧ i.index < j.index := by
      simpa [Option.any_eq_true] using hbeyond
    have hbelow : k < base + size / 2 := by
      refine Nat.lt_of_not_le fun hle => ?_
      exact absurd hlt (Nat.not_lt.2 (index_le_of_le h hj hi hle))
    exact ih (by omega) hbase (by omega) hi
  | case3 base size hmore hbelow ih =>
    by_cases hk' : base + size / 2 ≤ k
    · exact ih (by omega) hk' (by omega) hi
    · -- an id below the middle that is not less than the middle one equals it
      obtain ⟨j, hj⟩ : ∃ j, ids[base + size / 2]? = some j :=
        ⟨_, List.getElem?_eq_getElem (by omega)⟩
      have hle := index_le_of_le h hi hj (by omega)
      have hge : j.index ≤ i.index := by simpa [hj] using hbelow
      have hij : j = i := ext_index (Nat.le_antisymm hge hle)
      exact ih (by omega) (Nat.le_refl _) (by omega) (hij ▸ hj)

/-- In a sorted list exactly its members are found. -/
theorem isSome_search? {i : Id e} : (search? ids i).isSome = true ↔ i ∈ ids := by
  unfold search?
  constructor
  · intro hfound
    by_cases hi : ids[halve ids i 0 ids.length]? = some i
    · exact List.mem_of_getElem? hi
    · simp [hi] at hfound
  · intro hmem
    obtain ⟨k, hk⟩ := List.mem_iff_getElem?.1 hmem
    have hlt : k < ids.length := (List.getElem?_eq_some_iff.1 hk).1
    have hi : ids[halve ids i 0 ids.length]? = some i :=
      getElem?_halve h (by omega) (Nat.zero_le k) (by omega) hk
    simp only [hi, if_true, Option.isSome_some]

end Search

end PointsTo.Id
