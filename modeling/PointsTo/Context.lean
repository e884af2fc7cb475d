import PointsTo.Interned

/-!
# Calling contexts

A context is a short sequence of elements: call sites, allocation sites or
classes, as the selection strategy has it.  Only the latest elements are kept, up
to a limit.  Contexts are interned, so that the rest of the analysis handles
their ids.
-/

namespace PointsTo

/-- A sequence of context elements, oldest first. -/
structure Context where
  elements : List Nat
deriving DecidableEq, Inhabited

namespace Context

/-- The context of the entry methods. -/
def empty : Context := ⟨[]⟩

/-- The last {lit}`limit` entries of a list. -/
def keepLast (limit : Nat) (l : List Nat) : List Nat := l.drop (l.length - limit)

/-- Append an element and keep the last {lit}`limit` elements. -/
def push (c : Context) (element limit : Nat) : Context :=
  ⟨keepLast limit (c.elements ++ [element])⟩

/-- Keep the last {lit}`limit` elements. -/
def truncate (c : Context) (limit : Nat) : Context := ⟨keepLast limit c.elements⟩

/-- The number of elements. -/
def depth (c : Context) : Nat := c.elements.length

/-- There are no elements. -/
def isEmpty (c : Context) : Bool := c.elements.isEmpty

/-- The written form: the elements in brackets. -/
def text (c : Context) : String := "[" ++ ", ".intercalate (c.elements.map toString) ++ "]"

/-! ## Lengths -/

/-- At most so many elements are kept. -/
theorem length_keepLast (limit : Nat) (l : List Nat) :
    (keepLast limit l).length = min limit l.length := by
  simp only [keepLast, List.length_drop]
  omega

/-- The kept elements are the last ones. -/
theorem keepLast_suffix (limit : Nat) (l : List Nat) : keepLast limit l <:+ l :=
  List.drop_suffix _ _

/-- No elements are kept where none may be. -/
theorem keepLast_zero (l : List Nat) : keepLast 0 l = [] := List.drop_length

/-- A pushed context is as long as the limit allows. -/
theorem depth_push (c : Context) (element limit : Nat) :
    (c.push element limit).depth = min limit (c.depth + 1) := by
  simp [push, depth, length_keepLast]

/-- A truncated context has at most so many elements. -/
theorem depth_truncate (c : Context) (limit : Nat) :
    (c.truncate limit).depth = min limit c.depth :=
  length_keepLast limit c.elements

/-- Cutting to at least the length of a context leaves it alone. -/
theorem truncate_of_depth_le {c : Context} {limit : Nat} (h : c.depth ≤ limit) :
    c.truncate limit = c := by
  cases c
  simp only [depth] at h
  simp [truncate, keepLast, Nat.sub_eq_zero_of_le h]

end Context

/-! ## The context table of a run -/

/-- The contexts of a run in the order of their ids. -/
abbrev ContextTable := Interned .context Context

namespace ContextTable

/-- The table that holds the empty context alone. -/
def new : ContextTable := ⟨.singleton .empty⟩

/-- The context of an id; an id outside the table stands for the empty one. -/
def get (t : ContextTable) (i : ContextId) : Context := (t.get? i).getD .empty

/-- In a new table every id is read as the empty context. -/
@[simp] theorem get_new (i : ContextId) : new.get i = .empty := by
  simp only [get, Interned.get?, new, OrderedSet.get?, OrderedSet.toList_singleton]
  cases i.index <;> simp

end ContextTable

end PointsTo
