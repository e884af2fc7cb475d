import PointsTo.Selector

/-!
# Tables that grow

Objects and contexts are handled by their ids, so that every fact about a state is
a fact about what its tables say.  Tables only grow: an id that denotes something
denotes it for good, and what was computed from such ids is computed again the same
way.

Main results:

- Theorem {lit}`Interned.get?_injective`: different ids denote different values.
- Theorem {lit}`Selector.callContext_of_grows`: a context that was selected is
  selected again from any later tables, and then adds nothing to them.
- Theorem {lit}`Selector.heapContext_of_grows`: the same for heap contexts.
-/

namespace PointsTo

/-! ## Intern tables -/

namespace Interned

variable {e : Entity} {α : Type}

/-- The id denotes something. -/
def Has (t : Interned e α) (i : Id e) : Prop := ∃ a, t.get? i = some a

/-- An id is in use exactly if its number is below the size of the table. -/
theorem has_iff_index_lt {t : Interned e α} {i : Id e} : t.Has i ↔ i.index < t.size := by
  constructor
  · rintro ⟨a, ha⟩
    exact (List.getElem?_eq_some_iff.1 ha).1
  · exact fun h => ⟨_, List.getElem?_eq_getElem h⟩

/-- Whatever an id denotes in the first table, it denotes in the second. -/
def Grows (t u : Interned e α) : Prop := ∀ i a, t.get? i = some a → u.get? i = some a

/-- A table grows into itself. -/
@[refl] theorem Grows.refl (t : Interned e α) : t.Grows t := fun _ _ h => h

/-- A table that grows twice grows. -/
theorem Grows.trans {t u v : Interned e α} (h : t.Grows u) (k : u.Grows v) : t.Grows v :=
  fun i a hi => k i a (h i a hi)

/-- Ids stay in use while a table grows. -/
theorem Has.of_grows {t u : Interned e α} {i : Id e} (h : t.Has i) (hg : t.Grows u) :
    u.Has i := by
  obtain ⟨a, ha⟩ := h
  exact ⟨a, hg i a ha⟩

/-- Reading an id that denotes something gives the same later on. -/
theorem get?_eq_of_grows {t u : Interned e α} {i : Id e} (h : t.Has i) (hg : t.Grows u) :
    u.get? i = t.get? i := by
  obtain ⟨a, ha⟩ := h
  rw [ha, hg i a ha]

variable [DecidableEq α]

/-- Asking for a value that has an id returns the id and changes nothing. -/
theorem intern_of_get? {t : Interned e α} {i : Id e} {a : α} (h : t.get? i = some a) :
    t.intern a = .ok (i, t) :=
  intern_of_index? (OrderedSet.index?_of_get? h)

/-- No value has two ids. -/
theorem get?_injective {t : Interned e α} {i j : Id e} {a : α} (hi : t.get? i = some a)
    (hj : t.get? j = some a) : i = j := by
  have h := (intern_of_get? hi).symm.trans (intern_of_get? hj)
  cases h
  rfl

/-- To ask for an id makes a table grow. -/
theorem grows_of_intern {t u : Interned e α} {a : α} {i : Id e} (h : t.intern a = .ok (i, u)) :
    t.Grows u :=
  fun _ _ hj => get?_intern_of_get? h hj

/-- What an id denotes after a value was asked for is that value, unless the id had
it before. -/
theorem get?_of_intern_cases {t u : Interned e α} {a b : α} {i j : Id e}
    (h : t.intern a = .ok (i, u)) (hj : u.get? j = some b) : t.get? j = some b ∨ b = a := by
  by_cases ha : a ∈ t.values
  · cases hi : t.values.index? a with
    | none => exact absurd ha (OrderedSet.index?_eq_none_iff.1 hi)
    | some k =>
        rw [intern_of_index? hi] at h
        cases h
        exact .inl hj
  · by_cases hs : t.size < idBound
    · rw [intern_fresh ha hs] at h
      cases h
      simp only [get?, OrderedSet.get?, OrderedSet.toList_insert_of_not_mem ha] at hj
      obtain ⟨hlt, hb⟩ := List.getElem?_eq_some_iff.1 hj
      rcases List.mem_append.1 (List.mem_of_getElem? hj) with _ | hmem
      · by_cases hk : j.index < t.values.toList.length
        · rw [List.getElem?_append_left hk] at hj
          exact .inl hj
        · rw [List.getElem?_append_right (Nat.le_of_not_lt hk)] at hj
          exact .inr (List.mem_singleton.1 (List.mem_of_getElem? hj))
      · exact .inr (List.mem_singleton.1 hmem)
    · rw [intern_full ha hs] at h
      cases h

end Interned

/-- An object that has an id is looked up as it is. -/
theorem Heap.get_of_get? {h : Heap} {i : ObjId} {o : Obj} (hi : h.get? i = some o) :
    h.get i = o := by
  simp [Heap.get, hi]

/-- Objects on the heap stay the same. -/
theorem Heap.get_of_grows {h k : Heap} {i : ObjId} (hi : h.Has i) (hg : h.Grows k) :
    k.get i = h.get i := by
  simp only [Heap.get, Interned.get?_eq_of_grows hi hg]

/-- So do their types. -/
theorem Heap.typeOf_of_grows {h k : Heap} {i : ObjId} (hi : h.Has i) (hg : h.Grows k) :
    k.typeOf i = h.typeOf i := by
  simp only [Heap.typeOf, Heap.get_of_grows hi hg]

/-- Contexts in the table stay the same. -/
theorem ContextTable.get_of_grows {t u : ContextTable} {c : ContextId} (hc : t.Has c)
    (hg : t.Grows u) : u.get c = t.get c := by
  simp only [ContextTable.get, Interned.get?_eq_of_grows hc hg]

/-- A context that has an id is looked up as it is. -/
theorem ContextTable.get_of_get? {t : ContextTable} {i : ContextId} {c : Context}
    (hi : t.get? i = some c) : t.get i = c := by
  simp [ContextTable.get, hi]

/-! ## Selectors -/

namespace Selector

variable {s : Selector} {p : Program} {heap k : Heap} {t u v : ContextTable} {site : QSite}
  {receiver : Option QObj} {m : QMethod} {c : ContextId}

/-- To choose the context of a call makes the table grow. -/
theorem grows_of_callContext (h : s.callContext p heap t site receiver = .ok (c, u)) :
    t.Grows u := by
  unfold callContext at h
  split at h
  · cases h
    exact .refl _
  · exact Interned.grows_of_intern h
  · exact Interned.grows_of_intern h
  · exact Interned.grows_of_intern h
  · cases h
    exact .refl _
  · cases h
    exact .refl _

/-- So does the choice of a heap context. -/
theorem grows_of_heapContext (h : s.heapContext t m = .ok (c, u)) : t.Grows u := by
  unfold heapContext at h
  split at h
  · cases h
    exact .refl _
  · exact Interned.grows_of_intern h

/-- The selected context exists if the one of the site and the empty one do. -/
theorem has_of_callContext (h : s.callContext p heap t site receiver = .ok (c, u))
    (hsite : t.Has site.context) (hempty : t.Has emptyContext) : u.Has c := by
  unfold callContext at h
  split at h
  · cases h
    exact hempty
  · exact ⟨_, Interned.get?_of_intern h⟩
  · exact ⟨_, Interned.get?_of_intern h⟩
  · exact ⟨_, Interned.get?_of_intern h⟩
  · cases h
    exact hsite
  · cases h
    exact hsite

/-- A heap context that was chosen is in the table. -/
theorem has_of_heapContext (h : s.heapContext t m = .ok (c, u)) (hempty : t.Has emptyContext) :
    u.Has c := by
  unfold heapContext at h
  split at h
  · cases h
    exact hempty
  · exact ⟨_, Interned.get?_of_intern h⟩

/-- A context that was selected from existing ids is selected again from later
tables, which already hold it. -/
theorem callContext_of_grows (h : s.callContext p heap t site receiver = .ok (c, u))
    (hsite : t.Has site.context) (hreceiver : ∀ o ∈ receiver, t.Has o.context ∧ heap.Has o.item)
    (hheap : heap.Grows k) (hu : u.Grows v) :
    s.callContext p k v site receiver = .ok (c, v) := by
  have htv : t.Grows v := (grows_of_callContext h).trans hu
  have hsame : v.get site.context = t.get site.context := ContextTable.get_of_grows hsite htv
  unfold callContext at h ⊢
  split at h
  · cases h
    rfl
  · rw [hsame]
    exact Interned.intern_of_get? (hu _ _ (Interned.get?_of_intern h))
  · rename_i o _
    rw [ContextTable.get_of_grows (hreceiver o rfl).1 htv]
    exact Interned.intern_of_get? (hu _ _ (Interned.get?_of_intern h))
  · rename_i o _
    rw [ContextTable.get_of_grows (hreceiver o rfl).1 htv,
      Heap.get_of_grows (hreceiver o rfl).2 hheap]
    exact Interned.intern_of_get? (hu _ _ (Interned.get?_of_intern h))
  · cases h
    rfl
  · cases h
    rfl

/-- A heap context that was selected is selected again from later tables, which
already hold it. -/
theorem heapContext_of_grows (h : s.heapContext t m = .ok (c, u)) (hm : t.Has m.context)
    (hu : u.Grows v) : s.heapContext v m = .ok (c, v) := by
  have htv : t.Grows v := (grows_of_heapContext h).trans hu
  have hsame : v.get m.context = t.get m.context := ContextTable.get_of_grows hm htv
  unfold heapContext at h ⊢
  by_cases hnone : s.strategy = .insensitive ∨ s.heapDepth = 0
  · rw [if_pos hnone] at h ⊢
    cases h
    rfl
  · rw [if_neg hnone] at h ⊢
    rw [hsame]
    exact Interned.intern_of_get? (hu _ _ (Interned.get?_of_intern h))

end Selector

end PointsTo
