/-!
# Association lists

Tables that are kept as lists of keys with their values.  A key is looked up from the
front; a table in which no key comes twice is therefore known by its entries.

Main statements:

- {lit}`lookup_alter`: what is found after the value of one key was changed.
- {lit}`map_fst_alter`, {lit}`nodup_alter`: a key keeps its place, and comes once.
- {lit}`lookup_eq_some_iff`: what is found are the entries.
-/

namespace PointsTo.Association

variable {κ α : Type} [DecidableEq κ]

/-- Change the value of a key.  A key that is not there yet gets its entry at the end. -/
def alter (k : κ) (f : Option α → α) : List (κ × α) → List (κ × α)
  | [] => [(k, f none)]
  | (l, a) :: rest => if l = k then (l, f (some a)) :: rest else (l, a) :: alter k f rest

/-- Changing the value of one key leaves those of the others. -/
theorem lookup_alter (k l : κ) (f : Option α → α) (es : List (κ × α)) :
    (alter k f es).lookup l = if l = k then some (f (es.lookup k)) else es.lookup l := by
  induction es with
  | nil => by_cases h : l = k <;> simp [alter, List.lookup_cons, h, beq_false_of_ne]
  | cons e es ih =>
    obtain ⟨j, a⟩ := e
    by_cases hj : j = k
    · subst hj
      by_cases h : l = j <;> simp [alter, List.lookup_cons, h, beq_false_of_ne]
    · have hkj : (k == j) = false := beq_false_of_ne fun h => hj h.symm
      by_cases h : l = j
      · subst h
        simp [alter, hj]
      · simp [alter, List.lookup_cons, hj, ih, hkj, beq_false_of_ne h]

/-- A change at a key adds the key if it is new, at the end. -/
theorem map_fst_alter (k : κ) (f : Option α → α) (es : List (κ × α)) :
    (alter k f es).map Prod.fst =
      if k ∈ es.map Prod.fst then es.map Prod.fst else es.map Prod.fst ++ [k] := by
  induction es with
  | nil => simp [alter]
  | cons e es ih =>
    obtain ⟨l, a⟩ := e
    by_cases hl : l = k
    · simp [alter, hl]
    · have hkl : ¬ k = l := fun h => hl h.symm
      simp only [alter, if_neg hl, List.map_cons, ih, List.mem_cons, hkl, false_or]
      by_cases hk : k ∈ es.map Prod.fst <;> simp only [hk, if_true, if_false, List.cons_append]

/-- Keys stay different. -/
theorem nodup_alter {es : List (κ × α)} (h : (es.map Prod.fst).Nodup) (k : κ)
    (f : Option α → α) : ((alter k f es).map Prod.fst).Nodup := by
  rw [map_fst_alter]
  by_cases hk : k ∈ es.map Prod.fst
  · rwa [if_pos hk]
  · rw [if_neg hk, List.nodup_append]
    refine ⟨h, by simp, ?_⟩
    intro l hl m hm
    rw [List.mem_singleton.1 hm]
    rintro rfl
    exact hk hl

/-- A property of the values is kept if the changed value has it. -/
theorem forall_alter {p : α → Prop} {k : κ} {f : Option α → α} {es : List (κ × α)}
    (hf : ∀ a, p (f a)) (h : ∀ e ∈ es, p e.2) : ∀ e ∈ alter k f es, p e.2 := by
  induction es with
  | nil => simpa [alter] using hf none
  | cons e es ih =>
    obtain ⟨hfirst, hrest⟩ := List.forall_mem_cons.1 h
    unfold alter
    split
    · exact List.forall_mem_cons.2 ⟨hf _, hrest⟩
    · exact List.forall_mem_cons.2 ⟨hfirst, ih hrest⟩

/-- Where no key comes twice, what is found are the entries. -/
theorem lookup_eq_some_iff {es : List (κ × α)} (h : (es.map Prod.fst).Nodup) {k : κ} {a : α} :
    es.lookup k = some a ↔ (k, a) ∈ es := by
  induction es with
  | nil => simp
  | cons e es ih =>
    obtain ⟨l, b⟩ := e
    rw [List.map_cons, List.nodup_cons] at h
    by_cases hl : k = l
    · subst hl
      have hrest : (k, a) ∉ es := fun ha => h.1 (List.mem_map.2 ⟨(k, a), ha, rfl⟩)
      simp [hrest, eq_comm]
    · simp [List.lookup_cons, beq_false_of_ne hl, hl, ih h.2]

end PointsTo.Association
