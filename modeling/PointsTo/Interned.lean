import PointsTo.Error
import PointsTo.OrderedSet

/-!
# Intern tables

A table that gives every distinct value one id, in the order in which values are
first asked for.  Equal values have equal ids, and an id keeps its value for the
rest of the run.

Main statements:

- {lit}`intern_of_index?`, {lit}`intern_fresh`: what an id is asked for.
- {lit}`get?_of_intern`: the id that is returned denotes the value.
- {lit}`get?_intern_of_get?`: earlier ids keep their values.
-/

namespace PointsTo

/-- The values that have an id of table {lit}`e`, in the order of their ids. -/
structure Interned (e : Entity) (α : Type) where
  values : OrderedSet α

namespace Interned

variable {e : Entity} {α : Type}

instance : Inhabited (Interned e α) := ⟨⟨.empty⟩⟩

/-- The table of nothing. -/
def empty : Interned e α := ⟨.empty⟩

/-- The number of values. -/
def size (t : Interned e α) : Nat := t.values.size

/-- The values in the order of their ids. -/
def toList (t : Interned e α) : List α := t.values.toList

/-- The value of an id. -/
def get? (t : Interned e α) (i : Id e) : Option α := t.values.get? i.index

variable [DecidableEq α]

/-- The id of a value: the one it has, or the next free one. -/
def intern (t : Interned e α) (a : α) : Except Error (Id e × Interned e α) :=
  match t.values.index? a with
  | some i => .ok (⟨i⟩, t)
  | none => (nextIndex t.size e.plural).map fun i => (⟨i⟩, ⟨t.values.insert a⟩)

/-- A value that has an id gets it again. -/
theorem intern_of_index? {t : Interned e α} {a : α} {i : Nat} (h : t.values.index? a = some i) :
    t.intern a = .ok (⟨i⟩, t) := by
  simp [intern, h]

/-- A new value gets the next id, as long as there are ids. -/
theorem intern_fresh {t : Interned e α} {a : α} (h : ¬ a ∈ t.values) (hs : t.size < idBound) :
    t.intern a = .ok (⟨t.size⟩, ⟨t.values.insert a⟩) := by
  simp [intern, OrderedSet.index?_eq_none_iff.2 h, nextIndex, hs, Except.map]

/-- A table refuses a value only when it is full. -/
theorem intern_full {t : Interned e α} {a : α} (h : ¬ a ∈ t.values) (hs : ¬ t.size < idBound) :
    t.intern a = .error (.capacity e.plural) := by
  simp [intern, OrderedSet.index?_eq_none_iff.2 h, nextIndex, hs, Except.map]

/-- The id that is returned denotes the value that was asked for. -/
theorem get?_of_intern {t u : Interned e α} {a : α} {i : Id e} (h : t.intern a = .ok (i, u)) :
    u.get? i = some a := by
  by_cases ha : a ∈ t.values
  · cases hi : t.values.index? a with
    | none => exact absurd ha (OrderedSet.index?_eq_none_iff.1 hi)
    | some j =>
      rw [intern_of_index? hi] at h
      cases h
      exact OrderedSet.get?_index? hi
  · by_cases hs : t.size < idBound
    · rw [intern_fresh ha hs] at h
      cases h
      simp [get?, OrderedSet.get?, OrderedSet.toList_insert_of_not_mem ha, size, OrderedSet.size]
    · rw [intern_full ha hs] at h
      cases h

/-- Interning leaves every earlier id with its value. -/
theorem get?_intern_of_get? {t u : Interned e α} {a b : α} {i j : Id e}
    (h : t.intern a = .ok (i, u)) (hj : t.get? j = some b) : u.get? j = some b := by
  by_cases ha : a ∈ t.values
  · cases hi : t.values.index? a with
    | none => exact absurd ha (OrderedSet.index?_eq_none_iff.1 hi)
    | some k =>
      rw [intern_of_index? hi] at h
      cases h
      exact hj
  · by_cases hs : t.size < idBound
    · rw [intern_fresh ha hs] at h
      cases h
      exact OrderedSet.get?_insert_of_get? hj
    · rw [intern_full ha hs] at h
      cases h

end Interned

end PointsTo
