import Mathlib.Data.Finset.Card
import Mathlib.Data.List.Induction
import Mathlib.Data.List.Perm.Subperm
import PointsTo.OrderedSet

/-!
# First occurrences

What an ordered collection holds is known from what was offered to it: every entry once, in the
order in which the entries were offered first.  In the list of what was offered these are the first
occurrences, which {lit}`List.eraseDups` keeps.  They can be selected and mapped before the
repetitions are erased or after it, so that a table for every key and a table of all entries stay
the same when both are filled from one list.

Main results:

- Theorems {lit}`eraseDups_filter`, {lit}`eraseDups_map`: first occurrences of a part and of an
  image.
- Theorem {lit}`history_induction`: from one step to all that led to a state.
- {lit}`OrderedSet.Collects`: a collection holds what was offered to it.
- Theorem {lit}`OrderedSet.collects_ofList`: a collection that was filled from a list does.
- Theorem {lit}`OrderedSet.sameEntries_iff`: a comparison of sizes and one inclusion decide whether
  two collections have the same entries.
-/

namespace PointsTo

variable {α β : Type} [DecidableEq α]

/-! ## Lists -/

/-- What comes last is kept if it has not come before. -/
theorem eraseDups_concat (l : List α) (a : α) :
    (l ++ [a]).eraseDups = if a ∈ l then l.eraseDups else l.eraseDups ++ [a] := by
  by_cases h : a ∈ l <;> simp [List.eraseDups_append, List.removeAll, List.eraseDups_cons, h]

/-- Erasing repetitions from a part of a list erases them from the part. -/
theorem eraseDups_filter (l : List α) (p : α → Bool) :
    (l.filter p).eraseDups = l.eraseDups.filter p := by
  induction l using List.reverseRecOn with
  | nil => rfl
  | append_singleton l a ih =>
      rw [eraseDups_concat, List.filter_append]
      cases ha : p a with
      | false => by_cases hl : a ∈ l <;> simp [hl, ha, ih]
      | true => by_cases hl : a ∈ l <;> simp [hl, ha, ih, eraseDups_concat]

/-- A map that tells the entries of a list apart keeps its first occurrences. -/
theorem eraseDups_map [DecidableEq β] {l : List α} {f : α → β}
    (h : ∀ a ∈ l, ∀ b ∈ l, f a = f b → a = b) : (l.map f).eraseDups = l.eraseDups.map f := by
  induction l using List.reverseRecOn with
  | nil => rfl
  | append_singleton l a ih =>
      have hl : ∀ a ∈ l, ∀ b ∈ l, f a = f b → a = b := fun b hb c hc =>
        h b (List.mem_append_left _ hb) c (List.mem_append_left _ hc)
      have hmem : f a ∈ l.map f ↔ a ∈ l := by
        refine ⟨fun hf => ?_, List.mem_map_of_mem⟩
        obtain ⟨b, hb, hba⟩ := List.mem_map.1 hf
        rwa [← h b (List.mem_append_left _ hb) a (by simp) hba]
      rw [List.map_append, List.map_singleton, eraseDups_concat, eraseDups_concat, ih hl]
      by_cases ha : a ∈ l <;> simp [hmem, ha]

/-- What relates a state to the steps that led to it, if it holds at the start and every step
keeps it. -/
theorem history_induction {σ : Type} {step : σ → β → σ} {s : σ} {motive : σ → List β → Prop}
    (start : motive s []) (next : ∀ {u l}, motive u l → ∀ b, motive (step u b) (l ++ [b]))
    (l : List β) : motive (l.foldl step s) l := by
  induction l using List.reverseRecOn with
  | nil => exact start
  | append_singleton l b ih =>
      rw [List.foldl_append]
      exact next ih b

namespace OrderedSet

/-! ## Collections -/

theorem ofList_concat (l : List α) (a : α) : ofList (l ++ [a]) = (ofList l).insert a := by
  rw [ofList, List.foldl_append]
  rfl

/-- A collection that was filled from a list has its first occurrences. -/
theorem toList_ofList (l : List α) : (ofList l).toList = l.eraseDups := by
  induction l using List.reverseRecOn with
  | nil => rfl
  | append_singleton l a ih =>
      rw [ofList_concat, toList_insert, eraseDups_concat, ih]
      simp only [mem_ofList]

/-- The collection holds what was offered to it: every entry once, in the order of the first
offers, and its index says the same as its list. -/
structure Collects (s : OrderedSet α) (offered : List α) : Prop where
  toList : s.toList = offered.eraseDups
  nodup : s.toList.Nodup
  mem : ∀ a, a ∈ s ↔ a ∈ offered
  size : s.size = offered.toFinset.card
  position : ∀ a i, s.index? a = some i ↔ s.toList[i]? = some a
  indexed : ∀ a, (s.index? a).isSome = true ↔ a ∈ s.toList

theorem collects_ofList (l : List α) : (ofList l).Collects l where
  toList := toList_ofList l
  nodup := (ofList l).nodup
  mem _ := mem_ofList
  size := by
    have hsame : (ofList l).toList.toFinset = l.toFinset := by
      ext a
      rw [List.mem_toFinset, List.mem_toFinset]
      exact mem_ofList
    rw [OrderedSet.size, ← List.toFinset_card_of_nodup (ofList l).nodup, hsame]
  position _ _ := index?_eq_some_iff
  indexed _ := isSome_index?

/-- A collection is determined by what was offered to it. -/
theorem Collects.eq_ofList {s : OrderedSet α} {l : List α} (h : s.Collects l) : s = ofList l :=
  ext_toList (h.toList.trans (toList_ofList l).symm)

/-- An entry is offered to a collection by inserting it. -/
theorem Collects.insert {s : OrderedSet α} {l : List α} (h : s.Collects l) (a : α) :
    (s.insert a).Collects (l ++ [a]) := by
  have hstep : s.insert a = ofList (l ++ [a]) := by rw [ofList_concat, h.eq_ofList]
  rw [hstep]
  exact collects_ofList _

theorem Collects.foldl_insert {s : OrderedSet α} {l : List α} (h : s.Collects l) (k : List α) :
    (k.foldl OrderedSet.insert s).Collects (l ++ k) := by
  induction k generalizing s l with
  | nil => rwa [List.append_nil]
  | cons a k ih =>
      have hrest := ih (h.insert a)
      rwa [List.append_assoc, List.singleton_append] at hrest

/-- What offers nothing leaves a collection as it is. -/
theorem Collects.pass {s : OrderedSet α} {l : List β} {f : β → Option α} {b : β}
    (h : s.Collects (l.filterMap f)) (hb : f b = none) :
    s.Collects ((l ++ [b]).filterMap f) := by
  rwa [List.filterMap_append, List.filterMap_cons_none hb, List.filterMap_nil, List.append_nil]

theorem Collects.take {s : OrderedSet α} {l : List β} {f : β → Option α} {b : β} {a : α}
    (h : s.Collects (l.filterMap f)) (hb : f b = some a) :
    (s.insert a).Collects ((l ++ [b]).filterMap f) := by
  rw [List.filterMap_append, List.filterMap_cons_some hb, List.filterMap_nil]
  exact h.insert a

/-- Merging adds the entries of the other collection one by one. -/
theorem union_eq_foldl (s t : OrderedSet α) : s.union t = t.toList.foldl insert s := by
  have hadd : ∀ (l : List α) (s new : OrderedSet α), (addEach l s new).1 = l.foldl insert s := by
    intro l
    induction l with
    | nil => exact fun _ _ => rfl
    | cons a l ih =>
        intro s new
        by_cases ha : a ∈ s
        · rw [addEach, if_pos ha, ih, List.foldl_cons, insert_of_mem ha]
        · rw [addEach, if_neg ha, ih, List.foldl_cons]
  exact hadd _ _ _

/-- Collections of one size, of which one is contained in the other, have the same entries: none
of them repeats an entry. -/
theorem sameEntries_iff {s t : OrderedSet α} :
    s.sameEntries t = true ↔ ∀ a, a ∈ s ↔ a ∈ t := by
  have hsplit : s.sameEntries t = true ↔
      s.toList.length = t.toList.length ∧ s.toList ⊆ t.toList := by
    simp only [sameEntries, size, Bool.and_eq_true, beq_iff_eq, List.all_eq_true,
      decide_eq_true_eq, mem_def, List.subset_def]
  rw [hsplit]
  constructor
  · rintro ⟨hsize, hsub⟩ a
    have hperm := (List.subperm_of_subset s.nodup hsub).perm_of_length_le (Nat.le_of_eq hsize.symm)
    exact hperm.mem_iff
  · intro h
    have hperm := (List.perm_ext_iff_of_nodup s.nodup t.nodup).2 h
    exact ⟨hperm.length_eq, hperm.subset⟩

end OrderedSet

end PointsTo
