import PointsTo.Yaml.Character

/-!
# Words

What a bare scalar can be read as besides the text that it is.  Numbers may be written in
four radices; a decimal number does not begin with an idle zero.

Main definitions:

- {lit}`Word.isNull`, {lit}`Word.bool?`, {lit}`Word.unsigned?`: reading.
- {lit}`Word.isAmbiguous`: a text that would not be read back as a text if it were
  written bare.
-/

namespace PointsTo.Yaml.Word

/-- The words that stand for no value. -/
def isNull (w : String) : Bool := w.isEmpty || ["null", "Null", "NULL", "~"].contains w

def bool? (w : String) : Option Bool :=
  if ["true", "True", "TRUE"].contains w then some true
  else if ["false", "False", "FALSE"].contains w then some false
  else none

/-! ## Whole numbers -/

/-- A row of digits that begins with an idle zero. -/
def hasIdleZero : List Char → Bool
  | '0' :: c :: cs => (c :: cs).all Char.isDigit
  | _ => false

/-- The value of a number without a sign. -/
def magnitude? : List Char → Option Nat
  | '0' :: 'x' :: cs => digitsIn? 16 cs
  | '0' :: 'o' :: cs => digitsIn? 8 cs
  | '0' :: 'b' :: cs => digitsIn? 2 cs
  | cs => if hasIdleZero cs then none else digitsIn? 10 cs

/-- The value of a number below a bound, with or without a plus sign. -/
def unsigned? (bound : Nat) (w : String) : Option Nat :=
  let digits :=
    match w.toList with
    | '+' :: cs => cs
    | cs => cs
  (magnitude? digits).filter fun n => decide (n < bound)

/-- A number of at most 128 bits, with or without a sign. -/
def isWhole : List Char → Bool
  | '-' :: cs => (magnitude? cs).any fun n => decide (n ≤ Nat.pow 2 127)
  | '+' :: cs => (magnitude? cs).any fun n => decide (n < Nat.pow 2 128)
  | cs => (magnitude? cs).any fun n => decide (n < Nat.pow 2 128)

/-! ## Numbers with a fraction or an exponent -/

/-- A decimal number without sign: its digits, and the power of ten that they count. -/
structure Decimal where
  digits : List Char
  power : Int

/-- An exponent, or nothing, up to the end of the word. -/
def exponent? : List Char → Option Int
  | [] => some 0
  | c :: cs =>
    if c = 'e' ∨ c = 'E' then
      match cs with
      | '-' :: ds => (digitsIn? 10 ds).map fun n => -n
      | '+' :: ds => (digitsIn? 10 ds).map fun n => n
      | ds => (digitsIn? 10 ds).map fun n => n
    else none

/-- A decimal number: digits with a point before, between or behind them, or without one,
and perhaps an exponent. -/
def decimal? (cs : List Char) : Option Decimal := do
  let whole := cs.takeWhile Char.isDigit
  let rest := cs.dropWhile Char.isDigit
  let (fraction, rest) :=
    match rest with
    | '.' :: ds => (ds.takeWhile Char.isDigit, ds.dropWhile Char.isDigit)
    | _ => ([], rest)
  let e ← exponent? rest
  if whole.isEmpty && fraction.isEmpty then none
  else some ⟨whole ++ fraction, e - fraction.length⟩

/-- The least number that a 64-bit floating-point number is too small for: halfway between
the greatest of them and the next power of two. -/
def overflowBound : Nat := Nat.pow 2 1024 - Nat.pow 2 970

/-- The number is within the range of 64-bit floating-point numbers.  Only numbers with
309 digits before the point need a closer look. -/
def Decimal.isFinite (d : Decimal) : Bool :=
  let digits := d.digits.dropWhile (· == '0')
  let size := digits.length + d.power
  let value := (digitsIn? 10 digits).getD 0
  digits.isEmpty || size < 309 ||
    (size == 309 &&
      (if 0 ≤ d.power then decide (value * Nat.pow 10 d.power.toNat < overflowBound)
        else decide (value < overflowBound * Nat.pow 10 d.power.natAbs)))

/-- A floating-point number, with or without a sign; infinity and the undefined number have
names that begin with a point. -/
def isFloat (cs : List Char) : Bool :=
  let named := [".inf", ".Inf", ".INF"]
  let finite (ds : List Char) := (decimal? ds).any Decimal.isFinite
  match cs with
  | '-' :: ds => named.contains (String.ofList ds) || finite ds
  | '+' :: ds => named.contains (String.ofList ds) || finite ds
  | ds => (named ++ [".nan", ".NaN", ".NAN"]).contains (String.ofList ds) || finite ds

/-- A row of digits that begins with an idle zero, with or without a sign. -/
def isIdle : List Char → Bool
  | '-' :: cs => hasIdleZero cs
  | '+' :: cs => hasIdleZero cs
  | cs => hasIdleZero cs

/-- A text that means, or might be thought to mean, something else when written bare. -/
def isAmbiguous (s : String) : Bool :=
  isNull s || (bool? s).isSome || isWhole s.toList || isFloat s.toList || isIdle s.toList

end PointsTo.Yaml.Word
