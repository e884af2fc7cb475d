import PointsTo.Program

/-!
# Aligning the arguments of a lambda

A call on a lambda object runs the implementing method with the captured values
first and the actual arguments after them.  If that method has a receiver, the
first of all these values is the receiver and the others move up by one place.
-/

namespace PointsTo.Lambda

/-- How captured values and actual arguments line up with parameters. -/
structure Shift where
  captured : Nat
  /-- One if the first captured value is the receiver. -/
  shiftK : Nat
  /-- One if the first actual argument is the receiver. -/
  shiftN : Nat
deriving DecidableEq

namespace Shift

/-- The alignment for a target with a given number of captured values.  Static
methods and constructors take no receiver from either list. -/
def compute (captured : Nat) (isStatic isConstructor : Bool) : Shift :=
  if isStatic || isConstructor then ⟨captured, 0, 0⟩
  else if 0 < captured then ⟨captured, 1, 0⟩
  else ⟨captured, 0, 1⟩

/-- The alignment for a method. -/
def ofMethod (captured : Nat) (m : Method) : Shift :=
  compute captured m.isStatic m.isConstructor

/-- Subtraction that has no result below zero. -/
def minus? (a b : Nat) : Option Nat := if b ≤ a then some (a - b) else none

/-- The parameter that captured value {lit}`i` goes to; the receiver goes to none. -/
def capturedParam? (s : Shift) (i : Nat) : Option Nat := minus? i s.shiftK

/-- The parameter that actual argument {lit}`i` goes to; the receiver goes to none. -/
def actualParam? (s : Shift) (i : Nat) : Option Nat :=
  minus? (s.captured + i) (s.shiftK + s.shiftN)

/-- The first captured value is the receiver. -/
def capturedReceiver (s : Shift) : Bool := s.shiftK == 1

/-- The first actual argument is the receiver. -/
def actualReceiver (s : Shift) : Bool := s.shiftN == 1

end Shift

end PointsTo.Lambda
