import PointsTo.Id
import PointsTo.Json

/-!
# Codecs

A codec says how the values of a type are written as JSON and read back.  Records
are described field by field, in one description that serves both directions;
values with several forms are described form by form, each under its tag.

Records may also be read from an array of their fields in order, and a form
without content is read from its bare tag or from a null under the tag.

Main definitions:

- {lit}`Codec`, with {lit}`Codec.nat`, {lit}`Codec.list`, {lit}`Codec.nullable`.
- {lit}`Fields`, {lit}`Codec.record`: records.
- {lit}`Form`, {lit}`Codec.tagged`: values with several forms.
-/

namespace PointsTo

/-- How the values of a type are written and read. -/
structure Codec (α : Type) where
  encode : α → Json
  decode : Json → Option α

namespace Codec

variable {α β : Type}

/-! ## Plain values -/

def bool : Codec Bool where
  encode := .bool
  decode
    | .bool b => some b
    | _ => none

def string : Codec String where
  encode := .str
  decode
    | .str s => some s
    | _ => none

/-- Whole numbers from {lit}`low` up to and without {lit}`high`. -/
def int (low high : Int) : Codec Int where
  encode := .int
  decode
    | .int n => if low ≤ n ∧ n < high then some n else none
    | _ => none

/-- Unsigned numbers below a bound. -/
def nat (bound : Nat) : Codec Nat where
  encode := .nat
  decode
    | .int n => if 0 ≤ n ∧ n < bound then some n.toNat else none
    | _ => none

def nat32 : Codec Nat := nat bound32

def nat64 : Codec Nat := nat bound64

/-- A value in place of another. -/
def iso (c : Codec β) (proj : α → β) (make : β → α) : Codec α where
  encode a := c.encode (proj a)
  decode j := (c.decode j).map make

def id {e : Entity} : Codec (Id e) := nat32.iso Id.index Id.mk

def list (c : Codec α) : Codec (List α) where
  encode l := .arr (l.map c.encode)
  decode
    | .arr items => items.mapM c.decode
    | _ => none

/-- A value or null. -/
def nullable (c : Codec α) : Codec (Option α) where
  encode := Json.opt c.encode
  decode
    | .null => some none
    | j => (c.decode j).map some

/-- Two values in an array. -/
def pair (c : Codec α) (d : Codec β) : Codec (α × β) where
  encode p := .arr [c.encode p.1, d.encode p.2]
  decode
    | .arr [x, y] => do return (← c.decode x, ← d.decode y)
    | _ => none

end Codec

/-! ## Records -/

/-- Some fields of a record {lit}`ρ`, and what is made of them. -/
structure Fields (ρ α : Type) where
  names : List String
  write : ρ → List (String × Json)
  /-- What the fields make, given the value of each that is present. -/
  read : (String → Option Json) → Option α

namespace Fields

variable {ρ α β : Type}

instance : Applicative (Fields ρ) where
  pure a := { names := [], write := fun _ => [], read := fun _ => some a }
  seq f x :=
    { names := f.names ++ (x ()).names
      write := fun r => f.write r ++ (x ()).write r
      read := fun get => do
        let g ← f.read get
        let a ← (x ()).read get
        return g a }

/-- A field that has to be present. -/
def required (name : String) (proj : ρ → α) (c : Codec α) : Fields ρ α where
  names := [name]
  write r := [(name, c.encode (proj r))]
  read get := (get name).bind c.decode

/-- A field that has a value when it is absent. -/
def defaulted (name : String) (proj : ρ → α) (c : Codec α) (absent : α) : Fields ρ α where
  names := [name]
  write r := [(name, c.encode (proj r))]
  read get :=
    match get name with
    | some j => c.decode j
    | none => some absent

/-- A field that is null, or absent, when there is no value. -/
def optional (name : String) (proj : ρ → Option α) (c : Codec α) : Fields ρ (Option α) :=
  defaulted name proj c.nullable none

/-- A field that is not written when there is no value. -/
def omitted (name : String) (proj : ρ → Option α) (c : Codec α) : Fields ρ (Option α) :=
  { optional name proj c with
    write := fun r =>
      match proj r with
      | some a => [(name, c.encode a)]
      | none => [] }

end Fields

/-- Which spellings of a record are read. -/
structure RecordRules where
  /-- Members with other names are refused. -/
  closed : Bool := false
  /-- An array may leave out fields at its end. -/
  short : Bool := false

namespace Codec

variable {α : Type}

/-- A record with the given fields. -/
def recordWith (rules : RecordRules) (fs : Fields α α) : Codec α where
  encode a := .obj (fs.write a)
  decode
    | .obj members =>
      if rules.closed && members.any fun m => !fs.names.contains m.1 then none
      else fs.read fun name => members.lookup name
    | .arr items =>
      if items.length = fs.names.length ∨ (rules.short = true ∧ items.length ≤ fs.names.length)
      then fs.read fun name => (fs.names.zip items).lookup name
      else none
    | _ => none

/-- A record in which other members are passed over. -/
def record (fs : Fields α α) : Codec α := recordWith {} fs

/-- A record in which other members are refused. -/
def closedRecord (fs : Fields α α) : Codec α := recordWith { closed := true } fs

end Codec

/-! ## Values with several forms -/

/-- One form of the values of a type. -/
structure Form (α : Type) where
  tag : String
  /-- A value of this form, written; a form without content has none to write. -/
  encode? : α → Option (Option Json)
  decode : Option Json → Option α

namespace Form

variable {α β : Type}

/-- The form of a single value. -/
def unit [DecidableEq α] (tag : String) (a : α) : Form α where
  tag
  encode? b := if a = b then some none else none
  decode
    | none | some .null => some a
    | some _ => none

/-- A form with content. -/
def content (tag : String) (proj : α → Option β) (make : β → α) (c : Codec β) : Form α where
  tag
  encode? a := (proj a).map fun b => some (c.encode b)
  decode j := (j.bind c.decode).map make

/-- A form whose content is the members of a record. -/
def record (tag : String) (proj : α → Option β) (make : β → α) (fs : Fields β β) : Form α where
  tag
  encode? a := (proj a).map fun b => some (.obj (fs.write b))
  decode
    | some (.obj members) => (fs.read fun name => members.lookup name).map make
    | _ => none

end Form

namespace Codec

variable {α : Type}

/-- A written form: the bare tag, or an object with the content under the tag. -/
def tag (name : String) : Option Json → Json
  | none => .str name
  | some content => .obj [(name, content)]

/-- Values with the given forms. -/
def tagged (forms : List (Form α)) : Codec α where
  encode a := (forms.findSome? fun f => (f.encode? a).map (tag f.tag)).getD .null
  decode
    | .str name => (forms.find? fun f => f.tag == name).bind fun f => f.decode none
    | .obj [(name, content)] =>
      (forms.find? fun f => f.tag == name).bind fun f => f.decode (some content)
    | _ => none

/-- Values that are written as their names. -/
def named [DecidableEq α] (names : List (String × α)) : Codec α :=
  tagged (names.map fun (name, a) => .unit name a)

/-! ## Reading what was written -/

@[simp] theorem decode_bool_encode (b : Bool) : bool.decode (bool.encode b) = some b := rfl

@[simp] theorem decode_string_encode (s : String) :
    string.decode (string.encode s) = some s := rfl

/-- A number below the bound is read back. -/
theorem decode_nat_encode {bound n : Nat} (h : n < bound) :
    (nat bound).decode ((nat bound).encode n) = some n := by
  simp [nat, Json.nat, h]

end Codec

end PointsTo
