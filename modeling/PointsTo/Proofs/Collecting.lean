import PointsTo.PointsToMap
import PointsTo.Proofs.FirstOccurrences
import PointsTo.Waitlist

/-!
# Collecting records and objects

Waitlists and points-to sets only grow.  What they hold after any sequence of additions depends on
what was added and on the order of the first additions alone: nothing is lost, nothing comes twice,
and what is added later goes behind what is there.  A registration is answered by whether it is the
first of its record under its key, and a merge of objects by those that were new.

Main results:

- {lit}`Waitlist.perform`, {lit}`Waitlist.after`: registrations with their answers.
- {lit}`Waitlist.Registers`: what a waitlist holds after registrations, and what it answers.
- {lit}`ObjSet.Addition`, {lit}`ObjSet.after`: objects that are added, alone or as a set.
- {lit}`ObjSet.Gathers`: what a points-to set holds after additions, and what it answers.
- Theorem {lit}`collected_in_order`: all sequences of registrations and of additions.
-/

namespace PointsTo

/-! ## Waitlists -/

namespace Waitlist

variable {κ ν : Type} [DecidableEq κ] [DecidableEq ν]

/-- Register a record under a key, and answer whether this is its first registration. -/
def perform (w : Waitlist κ ν) (r : κ × ν) : Bool × Waitlist κ ν :=
  (!w.isRegistered r.1 r.2, w.register r.1 r.2)

/-- The waitlist after registrations one after another. -/
def after (rs : List (κ × ν)) : Waitlist κ ν := rs.foldl (fun w r => (w.perform r).2) empty

/-- The waitlist holds the registrations that were made. -/
structure Registers (w : Waitlist κ ν) (rs : List (κ × ν)) : Prop where
  pairs : w.pairs.Collects rs
  /-- The records of a key come in the order of their first registration under it. -/
  get : ∀ k, w.get k = ((rs.filter fun r => r.1 = k).map Prod.snd).eraseDups
  nodup : ∀ k, (w.get k).Nodup
  contains : ∀ k, w.contains k = true ↔ ∃ r, (k, r) ∈ rs
  size : w.size = rs.toFinset.card
  /-- A further registration is answered by whether it has not been made before. -/
  answer : ∀ r, (w.perform r).1 = true ↔ r ∉ rs
  /-- Further registrations put records behind those that are there. -/
  monotone : ∀ (more : List (κ × ν)) (k : κ),
    w.get k <+: (more.foldl (fun w r => (w.perform r).2) w).get k

/-- The records of a key are read from the registered pairs, before or after repetitions among
these are erased. -/
theorem get_of_collects {w : Waitlist κ ν} {rs : List (κ × ν)} (h : w.pairs.Collects rs) (k : κ) :
    w.get k = ((rs.filter fun r => r.1 = k).map Prod.snd).eraseDups := by
  have hkey : ∀ a ∈ rs.filter (fun r => decide (r.1 = k)),
      ∀ b ∈ rs.filter (fun r => decide (r.1 = k)), a.2 = b.2 → a = b := by
    intro a ha b hb hab
    have hak := of_decide_eq_true (List.mem_filter.1 ha).2
    have hbk := of_decide_eq_true (List.mem_filter.1 hb).2
    exact Prod.ext (hak.trans hbk.symm) hab
  rw [get, w.recorded, h.toList, ← eraseDups_filter, ← eraseDups_map hkey]

/-- A registration only lengthens the lists. -/
theorem prefix_get_register (w : Waitlist κ ν) (k l : κ) (r : ν) :
    w.get l <+: (w.register k r).get l := by
  rw [get_register]
  exact List.prefix_append _ _

/-- So do several. -/
theorem prefix_get_foldl (w : Waitlist κ ν) (more : List (κ × ν)) (k : κ) :
    w.get k <+: (more.foldl (fun w r => (w.perform r).2) w).get k := by
  induction more generalizing w with
  | nil => exact List.prefix_rfl
  | cons r more ih => exact (w.prefix_get_register r.1 k r.2).trans (ih (w.register r.1 r.2))

/-- A waitlist whose pairs are those that were registered answers accordingly. -/
theorem registers_of_collects {w : Waitlist κ ν} {rs : List (κ × ν)} (h : w.pairs.Collects rs) :
    w.Registers rs where
  pairs := h
  get := get_of_collects h
  nodup k := by
    rw [get_of_collects h, ← OrderedSet.toList_ofList]
    exact OrderedSet.nodup _
  contains k := by
    rw [contains_iff]
    exact exists_congr fun r => h.mem (k, r)
  size := h.size
  answer r := by rw [perform, isRegistered, Bool.not_eq_true', decide_eq_false_iff_not, h.mem]
  monotone := w.prefix_get_foldl

/-- A registration offers its pair. -/
theorem Registers.perform {w : Waitlist κ ν} {rs : List (κ × ν)} (h : w.Registers rs)
    (r : κ × ν) : (w.perform r).2.Registers (rs ++ [r]) :=
  registers_of_collects (h.pairs.insert r)

/-- After any registrations the answers are as they should be. -/
theorem registers_after (rs : List (κ × ν)) : (after rs).Registers rs :=
  history_induction (motive := Registers) (registers_of_collects (OrderedSet.collects_ofList []))
    Registers.perform rs

end Waitlist

/-! ## Points-to sets -/

namespace ObjSet

/-- What is added to a points-to set: an object, or all objects of another set. -/
inductive Addition where
  | one (o : QObj)
  | all (os : ObjSet)

/-- The objects that an addition offers, in their order. -/
def Addition.offered : Addition → List QObj
  | one o => [o]
  | all os => os.toList

/-- Make an addition. -/
def perform (s : ObjSet) : Addition → ObjSet
  | .one o => s.insert o
  | .all os => s.union os

/-- The points-to set after additions one after another. -/
def after (as : List Addition) : ObjSet := as.foldl perform .empty

/-- The points-to set holds the objects that were offered to it. -/
structure Gathers (s : ObjSet) (offered : List QObj) : Prop where
  objects : s.Collects offered
  /-- A further object goes to the end unless it was offered before. -/
  add : ∀ o, (s.insert o).toList = s.toList ++ if o ∈ offered then [] else [o]
  /-- A merge appends the objects of the other set that are not there, in its order. -/
  merge : ∀ t : ObjSet, (s.union t).toList = s.toList ++ t.toList.filter fun o => o ∉ offered
  /-- It reports the objects that it appends. -/
  delta : ∀ t : ObjSet, (t.newIn s).toList = t.toList.filter fun o => o ∉ offered
  /-- Sets are compared by their members. -/
  same : ∀ t : ObjSet, s.sameEntries t = true ↔ ∀ o, o ∈ s ↔ o ∈ t

/-- A set whose entries are those that were offered answers accordingly. -/
theorem gathers_of_collects {s : ObjSet} {offered : List QObj} (h : s.Collects offered) :
    s.Gathers offered := by
  have hdelta : ∀ t : ObjSet,
      (t.newIn s).toList = t.toList.filter fun o => decide (o ∉ offered) := by
    intro t
    rw [OrderedSet.toList_newIn]
    simp only [h.mem]
  refine ⟨h, ?_, ?_, hdelta, fun t => OrderedSet.sameEntries_iff⟩
  · intro o
    rw [OrderedSet.toList_insert]
    by_cases ho : o ∈ offered
    · rw [if_pos ((h.mem o).2 ho), if_pos ho, List.append_nil]
    · rw [if_neg (mt (h.mem o).1 ho), if_neg ho]
  · intro t
    rw [OrderedSet.toList_union, hdelta]

/-- An addition offers its objects. -/
theorem Gathers.perform {s : ObjSet} {offered : List QObj} (h : s.Gathers offered) (a : Addition) :
    (ObjSet.perform s a).Gathers (offered ++ a.offered) := by
  cases a with
  | one o => exact gathers_of_collects (h.objects.insert o)
  | all os =>
      rw [ObjSet.perform, OrderedSet.union_eq_foldl]
      exact gathers_of_collects (h.objects.foldl_insert os.toList)

/-- After any additions the answers are as they should be. -/
theorem gathers_after (as : List Addition) : (after as).Gathers (as.flatMap Addition.offered) := by
  refine history_induction (motive := fun s as => Gathers s (as.flatMap Addition.offered))
    (gathers_of_collects (OrderedSet.collects_ofList [])) ?_ as
  intro s as h a
  rw [List.flatMap_append, List.flatMap_singleton]
  exact h.perform a

end ObjSet

/-! ## All sequences -/

/-- Whatever is registered in a waitlist and added to a points-to set, both hold it once and in the
order of the first additions, and answer what was new. -/
theorem collected_in_order :
    (∀ (κ ν : Type) [DecidableEq κ] [DecidableEq ν] (rs : List (κ × ν)),
      (Waitlist.after rs).Registers rs) ∧
    ∀ as : List ObjSet.Addition,
      (ObjSet.after as).Gathers (as.flatMap ObjSet.Addition.offered) := by
  constructor
  · intro κ ν _ _ rs
    exact Waitlist.registers_after rs
  · exact ObjSet.gathers_after

example : (Waitlist.after [(1, 7), (2, 7), (1, 5), (1, 7)]).get 1 = [7, 5] := by decide

end PointsTo
