/-!
# Edit distance

The least number of insertions, deletions and replacements of single characters
that turn one text into another, and the candidate nearest to a word by that
measure.

The distances from one beginning of the first text to all beginnings of the second
make up a row.  The row for the next longer beginning is computed from it, cell by
cell, in the place of the row before it, which is not needed any more: two rows are
enough, and they change places after every character.
-/

namespace PointsTo.EditDistance

/-- One number for each beginning of {lit}`b`. -/
abbrev Row (b : List Char) : Type := Vector Nat (b.length + 1)

/-- The row that was written last, and the one to be overwritten. -/
structure Rows (b : List Char) where
  last : Row b
  spare : Row b

namespace Rows

/-- The row for the empty beginning of the first text: all of {lit}`b` is inserted. -/
def first (b : List Char) : Rows b :=
  { last := Vector.ofFn fun j => j.val, spare := Vector.replicate _ 0 }

/-- Write the next row over the spare one, for a beginning with {lit}`c` behind its
first {lit}`i` characters.  A cell depends on those above it and on the one written
just before. -/
def overwrite {b : List Char} (rows : Rows b) (c : Char) (i : Nat) : Row b :=
  b.length.fold
    (fun j _ row =>
      let replaced := rows.last[j] + if c = b[j] then 0 else 1
      row.set (j + 1) (min (min (rows.last[j + 1] + 1) (row[j] + 1)) replaced))
    (rows.spare.set 0 (i + 1))

/-- The rows change places when the next one is written. -/
def next {b : List Char} (rows : Rows b) (c : Char) (i : Nat) : Rows b :=
  { last := rows.overwrite c i, spare := rows.last }

end Rows

/-- The edit distance between two lists of characters. -/
def distance (a b : List Char) : Nat :=
  (a.zipIdx.foldl (fun rows e => rows.next e.1 e.2) (Rows.first b)).last[b.length]

/-- The edit distance between two texts, counted in characters. -/
def between (s t : String) : Nat := distance s.toList t.toList

/-- The first of the candidates that no other candidate is nearer than. -/
def closest? (target : String) : List String → Option String
  | [] => none
  | c :: cs =>
    match closest? target cs with
    | none => some c
    | some d => if between target c ≤ between target d then some c else some d

end PointsTo.EditDistance
