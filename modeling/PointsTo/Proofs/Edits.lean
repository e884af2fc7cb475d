import Mathlib.Order.Bounds.Basic
import PointsTo.Text.EditDistance

/-!
# Edits

The distance between two texts is a number of edits: insertions, deletions and replacements of
single characters, anywhere in the text and in any order.  It is also given by a recursion on the
first characters of both texts, in which edits are made from the front only.  That this recursion
finds the least number of edits is shown in both directions: it describes a way to make that many
edits, and a single edit changes its value by at most one.

Main results:

- {lit}`Edits`: one text is turned into another by a number of edits.
- {lit}`recursive`: the distance by recursion on both texts.
- Theorem {lit}`isLeast_recursive`: it is the least number of edits.
- Theorem {lit}`recursive_concat_concat`: the recursion holds at the last characters as well.
-/

namespace PointsTo.EditDistance

variable {a b c : List Char} {x y : Char} {m n : Nat}

/-! ## Making edits -/

/-- One character is inserted, deleted or replaced. -/
inductive Edit : List Char → List Char → Prop
  | insert (l r : List Char) (x : Char) : Edit (l ++ r) (l ++ x :: r)
  | delete (l r : List Char) (x : Char) : Edit (l ++ x :: r) (l ++ r)
  | replace (l r : List Char) (x y : Char) : Edit (l ++ x :: r) (l ++ y :: r)

namespace Edit

/-- An edit may be undone. -/
theorem symm (h : Edit a b) : Edit b a := by
  cases h with
  | insert l r x => exact delete l r x
  | delete l r x => exact insert l r x
  | replace l r x y => exact replace l r y x

/-- An edit may happen behind a character. -/
theorem cons (h : Edit a b) (z : Char) : Edit (z :: a) (z :: b) := by
  cases h with
  | insert l r x => exact insert (z :: l) r x
  | delete l r x => exact delete (z :: l) r x
  | replace l r x y => exact replace (z :: l) r x y

/-- An edit may happen from behind. -/
theorem reverse (h : Edit a b) : Edit a.reverse b.reverse := by
  cases h with
  | insert l r x => simpa using insert r.reverse l.reverse x
  | delete l r x => simpa using delete r.reverse l.reverse x
  | replace l r x y => simpa using replace r.reverse l.reverse x y

end Edit

/-- The first text is turned into the second by {lit}`n` edits. -/
inductive Edits : Nat → List Char → List Char → Prop
  | refl (a : List Char) : Edits 0 a a
  | step {n : Nat} {a b c : List Char} : Edit a b → Edits n b c → Edits (n + 1) a c

namespace Edits

/-- Edits follow each other. -/
theorem trans (h : Edits m a b) (k : Edits n b c) : Edits (m + n) a c := by
  induction h with
  | refl a => rwa [Nat.zero_add]
  | step hab _ ih =>
      rw [Nat.add_right_comm]
      exact step hab (ih k)

/-- One edit is one. -/
theorem single (h : Edit a b) : Edits 1 a b := step h (refl b)

/-- Edits may be undone. -/
theorem symm (h : Edits n a b) : Edits n b a := by
  induction h with
  | refl a => exact refl a
  | step hab _ ih => exact ih.trans (single hab.symm)

/-- Edits may happen behind a character. -/
theorem cons (h : Edits n a b) (z : Char) : Edits n (z :: a) (z :: b) := by
  induction h with
  | refl a => exact refl (z :: a)
  | step hab _ ih => exact step (hab.cons z) ih

/-- Edits may happen from behind. -/
theorem reverse (h : Edits n a b) : Edits n a.reverse b.reverse := by
  induction h with
  | refl a => exact refl a.reverse
  | step hab _ ih => exact step hab.reverse ih

/-- Without edits nothing changes. -/
theorem eq_of_zero (h : Edits 0 a b) : a = b := by
  cases h
  rfl

/-- A text is deleted character by character. -/
theorem deletions (a : List Char) : Edits a.length a [] := by
  induction a with
  | nil => exact refl []
  | cons x a ih => exact step (.delete [] a x) ih

/-- It is inserted character by character. -/
theorem insertions (b : List Char) : Edits b.length [] b := (deletions b).symm

end Edits

/-! ## The recursion -/

/-- The distance by recursion: the first character of one text is deleted, or that of the other
inserted, or both are dealt with together. -/
def recursive : List Char → List Char → Nat
  | [], b => b.length
  | a, [] => a.length
  | x :: a, y :: b =>
    min (min (recursive a (y :: b) + 1) (recursive (x :: a) b + 1))
      (recursive a b + if x = y then 0 else 1)

/-- To reach a text from nothing takes an insertion for each character. -/
@[simp] theorem recursive_nil_left (b : List Char) : recursive [] b = b.length := by
  rw [recursive]

/-- To reach nothing takes a deletion for each character. -/
@[simp] theorem recursive_nil_right (a : List Char) : recursive a [] = a.length := by
  cases a <;> simp [recursive]

/-- The cheapest way deletes, inserts or replaces first. -/
theorem recursive_cons_cons (x y : Char) (a b : List Char) :
    recursive (x :: a) (y :: b) =
      min (min (recursive a (y :: b) + 1) (recursive (x :: a) b + 1))
        (recursive a b + if x = y then 0 else 1) := by
  rw [recursive]

/-- The recursion describes a way to make the edits. -/
theorem edits_recursive (a b : List Char) : Edits (recursive a b) a b := by
  fun_induction recursive a b with
  | case1 b => exact .insertions b
  | case2 a => exact .deletions a
  | case3 x a y b hdelete hinsert hboth =>
      have hdeleted : Edits (recursive a (y :: b) + 1) (x :: a) (y :: b) :=
        .step (.delete [] a x) hdelete
      have hinserted : Edits (recursive (x :: a) b + 1) (x :: a) (y :: b) :=
        hinsert.trans (.single (.insert [] b y))
      have hreplaced : Edits (recursive a b + if x = y then 0 else 1) (x :: a) (y :: b) := by
        by_cases hxy : x = y
        · rw [if_pos hxy, ← hxy]
          exact hboth.cons x
        · rw [if_neg hxy]
          exact (hboth.cons x).trans (.single (.replace [] b x y))
      exact min_rec' (fun n => Edits n (x :: a) (y :: b))
        (min_rec' (fun n => Edits n (x :: a) (y :: b)) hdeleted hinserted) hreplaced

/-! ## No fewer edits -/

/-- Deleting the first character changes the distance by at most one. -/
theorem recursive_cons_left_le (x : Char) (a c : List Char) :
    recursive (x :: a) c ≤ recursive a c + 1 := by
  cases c with
  | nil => simp
  | cons z c =>
      rw [recursive_cons_cons]
      omega

/-- One more character on the right costs at most one more. -/
theorem recursive_cons_right_le (a c : List Char) (z : Char) :
    recursive a (z :: c) ≤ recursive a c + 1 := by
  cases a with
  | nil => simp
  | cons x a =>
      rw [recursive_cons_cons]
      omega

/-- Inserting a first character changes the distance by at most one. -/
theorem recursive_le_cons_left (x : Char) (a c : List Char) :
    recursive a c ≤ recursive (x :: a) c + 1 := by
  induction c with
  | nil => simp; omega
  | cons z c ih =>
      have hright := recursive_cons_right_le a c z
      rw [recursive_cons_cons]
      omega

/-- Replacing the first character changes the distance by at most one. -/
theorem recursive_replace_le (x y : Char) (a c : List Char) :
    recursive (x :: a) c ≤ recursive (y :: a) c + 1 := by
  induction c with
  | nil => simp
  | cons z c ih =>
      rw [recursive_cons_cons x, recursive_cons_cons y]
      split <;> split <;> omega

/-- Where a change makes little difference, it does so behind another character. -/
theorem recursive_cons_le_cons (h : ∀ c, recursive a c ≤ recursive b c + 1) (z : Char)
    (c : List Char) : recursive (z :: a) c ≤ recursive (z :: b) c + 1 := by
  induction c with
  | nil =>
      have hnil := h []
      simp only [recursive_nil_right, List.length_cons] at hnil ⊢
      omega
  | cons y c ih =>
      have htail := h c
      have hwhole := h (y :: c)
      rw [recursive_cons_cons z y a, recursive_cons_cons z y b]
      omega

/-- A common beginning does not make differences larger. -/
theorem recursive_append_le_append (h : ∀ c, recursive a c ≤ recursive b c + 1) (l : List Char) :
    ∀ c, recursive (l ++ a) c ≤ recursive (l ++ b) c + 1 := by
  induction l with
  | nil => exact h
  | cons z l ih => exact recursive_cons_le_cons ih z

/-- A single edit changes the distance to any text by at most one. -/
theorem Edit.recursive_le (h : Edit a b) (c : List Char) : recursive a c ≤ recursive b c + 1 := by
  cases h with
  | insert l r x => exact recursive_append_le_append (recursive_le_cons_left x r) l c
  | delete l r x => exact recursive_append_le_append (recursive_cons_left_le x r) l c
  | replace l r x y => exact recursive_append_le_append (recursive_replace_le x y r) l c

/-- A text is at no distance from itself. -/
theorem recursive_self (a : List Char) : recursive a a = 0 := by
  induction a with
  | nil => simp
  | cons x a ih =>
      rw [recursive_cons_cons, ih, if_pos rfl]
      omega

/-- The distance is at most the number of edits. -/
theorem Edits.recursive_le (h : Edits n a b) : recursive a b ≤ n := by
  induction h with
  | refl a => rw [recursive_self]
  | step hab _ ih => exact (hab.recursive_le _).trans (Nat.succ_le_succ ih)

/-- The recursion finds the least number of edits. -/
theorem isLeast_recursive (a b : List Char) : IsLeast {n | Edits n a b} (recursive a b) :=
  ⟨edits_recursive a b, fun _ h => h.recursive_le⟩

/-! ## The recursion at the other end -/

/-- A text is as far from another one when both are read backwards. -/
theorem recursive_reverse (a b : List Char) : recursive a.reverse b.reverse = recursive a b := by
  apply Nat.le_antisymm
  · exact (edits_recursive a b).reverse.recursive_le
  · have hback := (edits_recursive a.reverse b.reverse).reverse
    rw [List.reverse_reverse, List.reverse_reverse] at hback
    exact hback.recursive_le

/-- The distance is found by recursion from the last characters as well. -/
theorem recursive_concat_concat (a b : List Char) (x y : Char) :
    recursive (a ++ [x]) (b ++ [y]) =
      min (min (recursive a (b ++ [y]) + 1) (recursive (a ++ [x]) b + 1))
        (recursive a b + if x = y then 0 else 1) := by
  rw [← recursive_reverse (a ++ [x]) (b ++ [y]), ← recursive_reverse a (b ++ [y]),
    ← recursive_reverse (a ++ [x]) b, ← recursive_reverse a b]
  simp only [List.reverse_append, List.reverse_singleton, List.singleton_append]
  exact recursive_cons_cons x y a.reverse b.reverse

end PointsTo.EditDistance
