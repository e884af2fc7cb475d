import PointsTo.OrderedSet
import PointsTo.Pointer

/-!
# Points-to sets and maps

What each pointer may refer to.  Sets only grow: a merge adds the objects that
are new and reports exactly these, so that only they are passed on.

Main statements:

- {lit}`get_merge`: a merge changes one pointer, and that by a union.
- {lit}`pointers_merge`: a pointer is listed once, from its first merge on.
- {lit}`exists_mem_entries`, {lit}`get_of_mem_entries`: entries and sets.
-/

namespace PointsTo

/-- The objects that a pointer may refer to, in the order of their discovery. -/
abbrev ObjSet := OrderedSet QObj

/-- The points-to sets of a run, pointer by pointer. -/
structure PointsToMap where
  entries : List (Pointer × ObjSet)

namespace PointsToMap

/-- No pointer refers to anything. -/
def empty : PointsToMap := ⟨[]⟩

instance : Inhabited PointsToMap := ⟨empty⟩

/-- The pointers that were merged into, oldest first. -/
def pointers (m : PointsToMap) : List Pointer := m.entries.map Prod.fst

/-- The set of a pointer; it is empty until something is merged into it. -/
def get (m : PointsToMap) (p : Pointer) : ObjSet := (m.entries.lookup p).getD .empty

/-- Merge objects into the set of a pointer. -/
def merge (m : PointsToMap) (p : Pointer) (os : ObjSet) : PointsToMap :=
  ⟨Association.alter p (fun s => (s.getD .empty).union os) m.entries⟩

/-- The entries sorted by pointer. -/
def sorted (m : PointsToMap) : List (Pointer × ObjSet) :=
  m.entries.mergeSort fun a b => a.1.le b.1

/-! ## Reading after a merge -/

/-- At the beginning pointers refer to nothing. -/
@[simp] theorem get_empty (p : Pointer) : empty.get p = .empty := rfl

/-- A merge unites the set of one pointer with the merged objects. -/
theorem get_merge (m : PointsToMap) (p q : Pointer) (os : ObjSet) :
    (m.merge p os).get q = if q = p then (m.get q).union os else m.get q := by
  unfold get merge
  rw [Association.lookup_alter]
  by_cases h : q = p
  · rw [if_pos h, if_pos h, Option.getD_some, h]
  · rw [if_neg h, if_neg h]

/-- A merge lists its pointer, at the end if it is new. -/
theorem pointers_merge (m : PointsToMap) (p : Pointer) (os : ObjSet) :
    (m.merge p os).pointers =
      if p ∈ m.pointers then m.pointers else m.pointers ++ [p] :=
  Association.map_fst_alter p _ m.entries

/-! ## Reading the entries -/

/-- A merge lists no pointer a second time. -/
theorem nodup_pointers_merge {m : PointsToMap} (h : m.pointers.Nodup) (p : Pointer)
    (os : ObjSet) : (m.merge p os).pointers.Nodup := Association.nodup_alter h p _

/-- What a pointer refers to is in its entry. -/
theorem exists_mem_entries {m : PointsToMap} {p : Pointer} {o : QObj} (h : o ∈ m.get p) :
    ∃ os, (p, os) ∈ m.entries ∧ o ∈ os := by
  unfold get at h
  cases hlookup : m.entries.lookup p with
  | none =>
    rw [hlookup] at h
    exact absurd h (OrderedSet.not_mem_empty o)
  | some os =>
    rw [hlookup] at h
    obtain ⟨pre, post, hsplit, _⟩ := List.lookup_eq_some_iff.1 hlookup
    exact ⟨os, hsplit ▸ List.mem_append_right _ List.mem_cons_self, h⟩

/-- The set of a pointer that is listed once is the one in its entry. -/
theorem get_of_mem_entries {m : PointsToMap} (h : m.pointers.Nodup) {p : Pointer} {os : ObjSet}
    (hmem : (p, os) ∈ m.entries) : m.get p = os := by
  rw [get, (Association.lookup_eq_some_iff h).2 hmem, Option.getD_some]

end PointsToMap

end PointsTo
