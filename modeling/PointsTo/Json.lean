/-!
# JSON values

The values that the library's data are exchanged as.  Objects keep their members
in order.  No datum of the library is a number with a fraction, so all of these
are one value, which nothing is read from.
-/

namespace PointsTo

/-- A JSON value. -/
inductive Json where
  | null
  | bool (b : Bool)
  | int (n : Int)
  | fraction
  | str (s : String)
  | arr (items : List Json)
  | obj (members : List (String × Json))
deriving Inhabited

namespace Json

def nat (n : Nat) : Json := .int n

/-- A value or null. -/
def opt {α : Type} (f : α → Json) : Option α → Json
  | some a => f a
  | none => .null

/-- An array of texts. -/
def texts (l : List String) : Json := .arr (l.map .str)

/-- The member of an object by its name. -/
def member? : Json → String → Option Json
  | .obj members, name => members.lookup name
  | _, _ => none

end Json

end PointsTo
