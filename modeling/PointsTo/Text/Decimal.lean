/-!
# Numbers in decimal notation

Reading unsigned numbers.  A number is a non-empty row of ASCII digits, and a plus
sign may stand before it.
-/

namespace PointsTo.Text

/-- The value of an ASCII digit. -/
def digit? (c : Char) : Option Nat :=
  if c.isDigit then some (c.toNat - '0'.toNat) else none

/-- The value of a row of digits behind those that make {lit}`acc`. -/
def digitsFrom? (acc : Nat) : List Char → Option Nat
  | [] => some acc
  | c :: cs => (digit? c).bind fun d => digitsFrom? (acc * 10 + d) cs

/-- The value of a non-empty row of digits. -/
def digits? : List Char → Option Nat
  | [] => none
  | cs => digitsFrom? 0 cs

/-- An unsigned number below a bound, with or without a plus sign. -/
def unsigned? (bound : Nat) (s : String) : Option Nat :=
  let digits :=
    match s.toList with
    | '+' :: cs => cs
    | cs => cs
  (digits? digits).filter fun n => decide (n < bound)

end PointsTo.Text
