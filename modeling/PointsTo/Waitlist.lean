import PointsTo.Multimap
import PointsTo.OrderedSet

/-!
# Waitlists

Records that wait until something happens to their key.  A pair of key and record
is registered once and never withdrawn.  The registered pairs are kept, so that a
second registration is noticed, and beside them the records of every key, which is
what is read.

Main statements:

- {lit}`mem_register`, {lit}`get_register`: what a registration adds.
- {lit}`mem_get`, {lit}`contains_iff`: records and registered pairs.
-/

namespace PointsTo

/-- Records under keys, in the order of registration. -/
structure Waitlist (κ ν : Type) [DecidableEq κ] where
  pairs : OrderedSet (κ × ν)
  records : Multimap κ ν
  /-- The records of a key are those that were registered with it. -/
  recorded : ∀ k, records.get k = (pairs.toList.filter fun e => e.1 = k).map Prod.snd

namespace Waitlist

variable {κ ν : Type} [DecidableEq κ]

/-- Nobody waits. -/
def empty : Waitlist κ ν := ⟨.empty, .empty, fun _ => rfl⟩

instance : Inhabited (Waitlist κ ν) := ⟨empty⟩

/-- The number of registered pairs. -/
def size (w : Waitlist κ ν) : Nat := w.pairs.size

/-- Nobody waits for anything. -/
def isEmpty (w : Waitlist κ ν) : Bool := w.pairs.isEmpty

/-- The records under a key, oldest first. -/
def get (w : Waitlist κ ν) (k : κ) : List ν := w.records.get k

/-- Some record is registered under the key. -/
def contains (w : Waitlist κ ν) (k : κ) : Bool := w.records.contains k

variable [DecidableEq ν]

/-- The record is registered under the key. -/
def isRegistered (w : Waitlist κ ν) (k : κ) (r : ν) : Bool := decide ((k, r) ∈ w.pairs)

/-- Register a record under a key; pair and record are added only the first time. -/
def register (w : Waitlist κ ν) (k : κ) (r : ν) : Waitlist κ ν where
  pairs := w.pairs.insert (k, r)
  records := if w.isRegistered k r then w.records else w.records.push k r
  recorded := by
    intro l
    by_cases h : (k, r) ∈ w.pairs
    · rw [isRegistered, decide_eq_true h, if_pos rfl, OrderedSet.insert_of_mem h, w.recorded]
    · rw [isRegistered, decide_eq_false h, if_neg Bool.false_ne_true, Multimap.get_push,
        OrderedSet.toList_insert_of_not_mem h, List.filter_append, List.map_append, w.recorded]
      by_cases hl : l = k
      · simp [hl]
      · simp [hl, Ne.symm hl]

/-- A registration adds its pair, and nothing else. -/
theorem mem_register {w : Waitlist κ ν} {k : κ} {r : ν} {x : κ × ν} :
    x ∈ (w.register k r).pairs ↔ x = (k, r) ∨ x ∈ w.pairs :=
  OrderedSet.mem_insert

omit [DecidableEq ν] in
/-- Nobody waits where nobody does. -/
theorem not_mem_empty (x : κ × ν) : ¬ x ∈ (empty : Waitlist κ ν).pairs :=
  OrderedSet.not_mem_empty x

/-- A first registration puts the record behind the others of its key. -/
theorem get_register (w : Waitlist κ ν) (k l : κ) (r : ν) :
    (w.register k r).get l =
      w.get l ++ if w.isRegistered k r = false ∧ k = l then [r] else [] := by
  unfold get register
  by_cases h : w.isRegistered k r = true
  · simp [h]
  · simp [h, Multimap.get_push, eq_comm]

omit [DecidableEq ν] in
/-- What waits for a key was registered for it. -/
theorem mem_get {w : Waitlist κ ν} {k : κ} {r : ν} : r ∈ w.get k ↔ (k, r) ∈ w.pairs := by
  simp only [get, w.recorded, List.mem_map, List.mem_filter, decide_eq_true_eq, Prod.exists,
    OrderedSet.mem_def]
  constructor
  · rintro ⟨a, b, ⟨h, rfl⟩, rfl⟩
    exact h
  · intro h
    exact ⟨k, r, ⟨h, rfl⟩, rfl⟩

omit [DecidableEq ν] in
/-- A key is there if something waits for it. -/
theorem contains_iff {w : Waitlist κ ν} {k : κ} :
    w.contains k = true ↔ ∃ r, (k, r) ∈ w.pairs := by
  rw [contains, Multimap.contains_iff]
  constructor
  · intro h
    obtain ⟨r, hr⟩ := List.exists_mem_of_ne_nil _ h
    exact ⟨r, mem_get.1 hr⟩
  · rintro ⟨r, hr⟩
    exact List.ne_nil_of_mem (mem_get.2 hr)

end Waitlist

end PointsTo
