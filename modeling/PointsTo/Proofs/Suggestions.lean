import PointsTo.Options.Error
import PointsTo.Proofs.Edits

/-!
# Suggestions for misspelt names

Who names an inference mode that does not exist is told the valid name that is nearest to what was
written.  The distances are computed in two rows that change places, so that a row is written over
an older one.  While it is being written the cells behind the last written one still have the
numbers of the older row, but a cell is only read when it has been written before.

Main results:

- {lit}`Row.Holds`: a row has the distances from a text to all beginnings of another.
- Theorem {lit}`Rows.holds_overwrite`: the next row holds, whatever it is written over.
- Theorem {lit}`distance_eq_recursive`: the rows lead to the distance by recursion.
- {lit}`CountsEdits`, {lit}`FirstNearest`: what a distance counts, and which name it selects.
- Theorem {lit}`suggests_first_nearest`: the name that is suggested.
-/

namespace PointsTo.EditDistance

variable {a b : List Char} {c : Char} {target : String}

/-! ## Rows -/

/-- What the beginning of a loop has and each round of it keeps, its end has as well. -/
theorem fold_induction {α : Type} {n : Nat} {f : (i : Nat) → i < n → α → α} {init : α}
    {motive : Nat → α → Prop} (zero : motive 0 init)
    (succ : ∀ i h x, motive i x → motive (i + 1) (f i h x)) : motive n (n.fold f init) := by
  induction n with
  | zero => exact zero
  | succ n ih =>
      rw [Nat.fold_succ]
      exact succ n _ _ (ih fun i h x => succ i (Nat.lt_succ_of_lt h) x)

/-- The cells of a row up to a position are the distances from {lit}`a`. -/
def Row.HoldsTo (row : Row b) (a : List Char) (k : Nat) : Prop :=
  ∀ j, j ≤ k → ∀ h : j < b.length + 1, row[j] = recursive a (b.take j)

/-- The cells of a row are the distances from {lit}`a` to the beginnings of {lit}`b`. -/
def Row.Holds (row : Row b) (a : List Char) : Prop := row.HoldsTo a b.length

namespace Rows

theorem holds_first (b : List Char) : (first b).last.Holds [] := by
  intro j hj h
  simp only [first, Vector.getElem_ofFn, recursive_nil_left, List.length_take]
  omega

/-- The next row holds, whatever was in the row that is overwritten. -/
theorem holds_overwrite {rows : Rows b} (h : rows.last.Holds a) (c : Char) :
    Row.Holds (rows.overwrite c a.length) (a ++ [c]) := by
  -- after `j` rounds the cells up to position `j` are written
  refine fold_induction (motive := fun j row => Row.HoldsTo row (a ++ [c]) j) ?_ ?_
  · intro j hj hlt
    obtain rfl : j = 0 := Nat.le_zero.1 hj
    simp
  · intro j hj row hrow i hi hlt
    rcases Nat.lt_or_eq_of_le hi with hbefore | rfl
    · rw [Vector.getElem_set_ne _ _ (by omega)]
      exact hrow i (by omega) hlt
    · have habove := h (j + 1) hj (by omega)
      have hcorner := h j (by omega) (by omega)
      have hleft := hrow j (Nat.le_refl j) (by omega)
      rw [Vector.getElem_set_self, habove, hcorner, hleft, List.take_succ_eq_append_getElem hj]
      exact (recursive_concat_concat a (b.take j) c b[j]).symm

/-- Character by character, the row for the whole first text is reached. -/
theorem holds_foldl_next {rows : Rows b} (h : rows.last.Holds a) (rest : List Char) :
    ((rest.zipIdx a.length).foldl (fun rows e => rows.next e.1 e.2) rows).last.Holds
      (a ++ rest) := by
  induction rest generalizing a rows with
  | nil => simpa using h
  | cons c rest ih =>
      have hnext : (rows.next c a.length).last.Holds (a ++ [c]) := holds_overwrite h c
      have hrest := ih hnext
      rw [List.append_assoc, List.singleton_append, List.length_append,
        List.length_singleton] at hrest
      rw [List.zipIdx_cons, List.foldl_cons]
      exact hrest

end Rows

/-- The rows lead to the distance by recursion. -/
theorem distance_eq_recursive (a b : List Char) : distance a b = recursive a b := by
  have hrows := Rows.holds_foldl_next (Rows.holds_first b) a
  have hlast := hrows b.length (Nat.le_refl _) (Nat.lt_succ_self _)
  rwa [List.take_length, List.nil_append] at hlast

/-! ## What the distance counts -/

/-- A distance between texts is the least number of edits that lead from one to the other. -/
structure CountsEdits (d : String → String → Nat) : Prop where
  recursion : ∀ s t, d s t = recursive s.toList t.toList
  least : ∀ s t, IsLeast {n | Edits n s.toList t.toList} (d s t)
  symmetric : ∀ s t, d s t = d t s
  eq_zero_iff : ∀ s t, d s t = 0 ↔ s = t
  triangle : ∀ s t u, d s u ≤ d s t + d t u

/-- All this follows from what is the least number of edits. -/
theorem countsEdits_of_recursion {d : String → String → Nat}
    (h : ∀ s t, d s t = recursive s.toList t.toList) : CountsEdits d := by
  have hleast : ∀ s t, IsLeast {n | Edits n s.toList t.toList} (d s t) := by
    intro s t
    rw [h]
    exact isLeast_recursive _ _
  have hedits : ∀ s t, Edits (d s t) s.toList t.toList := fun s t => (hleast s t).1
  have hback : ∀ s t, d s t ≤ d t s := fun s t => (hleast s t).2 (hedits t s).symm
  refine ⟨h, hleast, fun s t => Nat.le_antisymm (hback s t) (hback t s), ?_, ?_⟩
  · intro s t
    constructor
    · intro hzero
      have hedited := hedits s t
      rw [hzero] at hedited
      exact String.toList_inj.1 hedited.eq_of_zero
    · rintro rfl
      rw [h, recursive_self]
  · intro s t u
    exact (hleast s u).2 ((hedits s t).trans (hedits t u))

theorem countsEdits_between : CountsEdits between :=
  countsEdits_of_recursion fun _ _ => distance_eq_recursive _ _

/-! ## The nearest name -/

/-- A candidate is as near to the word as any, and nearer than all that come before it. -/
def FirstNearest (target : String) (cs : List String) (d : String) : Prop :=
  ∃ before after, cs = before ++ d :: after ∧
    (∀ e ∈ before, between target d < between target e) ∧
    ∀ e ∈ after, between target d ≤ between target e

theorem closest?_eq_none {cs : List String} (h : closest? target cs = none) : cs = [] := by
  cases cs with
  | nil => rfl
  | cons c cs =>
      rw [closest?] at h
      cases hrest : closest? target cs with
      | none =>
          rw [hrest] at h
          cases h
      | some d =>
          simp only [hrest] at h
          split at h <;> cases h

/-- The first of the nearest candidates is chosen. -/
theorem firstNearest_of_closest? {cs : List String} {d : String}
    (h : closest? target cs = some d) : FirstNearest target cs d := by
  induction cs generalizing d with
  | nil => cases h
  | cons c cs ih =>
      simp only [closest?] at h
      split at h
      · rename_i hnone
        cases h
        obtain rfl := closest?_eq_none hnone
        exact ⟨[], [], rfl, by simp, by simp⟩
      · rename_i e hsome
        obtain ⟨before, after, rfl, hbefore, hafter⟩ := ih hsome
        split at h
        · rename_i hle
          cases h
          refine ⟨[], _, rfl, by simp, ?_⟩
          intro f hf
          rcases List.mem_append.1 hf with hf | hf
          · exact hle.trans (hbefore f hf).le
          · rcases List.mem_cons.1 hf with rfl | hf
            · exact hle
            · exact hle.trans (hafter f hf)
        · rename_i hlt
          cases h
          refine ⟨c :: before, after, rfl, ?_, hafter⟩
          exact List.forall_mem_cons.2 ⟨Nat.lt_of_not_le hlt, hbefore⟩

theorem exists_firstNearest (target c : String) (cs : List String) :
    ∃ d, closest? target (c :: cs) = some d ∧ FirstNearest target (c :: cs) d := by
  cases h : closest? target (c :: cs) with
  | none => cases closest?_eq_none h
  | some d => exact ⟨d, rfl, firstNearest_of_closest? h⟩

/-- The distance between texts counts edits of characters, and whatever unknown name is given,
the first of the valid names at the least distance is suggested. -/
theorem suggests_first_nearest :
    CountsEdits between ∧
      ∀ value name names, ∃ d, FirstNearest value (name :: names) d ∧
        ConfigError.unknownInferenceOf value (name :: names) =
          .unknownInference value (some d) ∧
        (ConfigError.unknownInferenceOf value (name :: names)).message =
          "Unknown reflection inference '" ++ value ++ "'. " ++
            ("Did you mean '" ++ d ++ "'?") := by
  refine ⟨countsEdits_between, fun value name names => ?_⟩
  obtain ⟨d, hclosest, hnearest⟩ := exists_firstNearest value name names
  have herror : ConfigError.unknownInferenceOf value (name :: names) =
      .unknownInference value (some d) := by
    rw [ConfigError.unknownInferenceOf, hclosest]
  refine ⟨d, hnearest, herror, ?_⟩
  rw [herror]
  rfl

example : between "kitten" "sitting" = 3 := by decide

end PointsTo.EditDistance
