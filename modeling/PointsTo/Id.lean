/-!
# Numbered entities

Everything an analysis talks about lives in a table and is addressed by its
position: variables, methods, call sites, fields and classes of the program, and
the abstract objects and contexts that a run creates.  An {lit}`Id` is such a
position together with the table it belongs to, so that a variable can never be
passed where a method is meant.

Main definitions:

- {lit}`Id`: a position in one table, and its written form {lit}`Id.text`.
- {lit}`Qualified`: an entity under a calling context.
- {lit}`idBound`: the number of entries that a table can address.
-/

namespace PointsTo

/-- The tables whose entries are addressed by number. -/
inductive Entity where
  | var
  | method
  | invoke
  | field
  | cls
  | obj
  | context
deriving DecidableEq

namespace Entity

/-- The letters that a written id starts with. -/
def tag : Entity → String
  | var => "v"
  | method => "m"
  | invoke => "i"
  | field => "f"
  | cls => "c"
  | obj => "o"
  | context => "ctx"

/-- What the entries of a table are called when the table is full. -/
def plural : Entity → String
  | var => "variables"
  | method => "methods"
  | invoke => "call sites"
  | field => "fields"
  | cls => "classes"
  | obj => "heap objects"
  | context => "contexts"

end Entity

/-! ## Ids -/

/-- The position of an entry in the table of {lit}`e`. -/
structure Id (e : Entity) where
  index : Nat
deriving DecidableEq, Inhabited

/-- The written form of an id: the tag of its table, then the position. -/
def Id.text {e : Entity} (i : Id e) : String :=
  e.tag ++ toString i.index

/-- The least number with more than 32 bits. -/
def bound32 : Nat := 4294967296

/-- The least number with more than 64 bits. -/
def bound64 : Nat := 18446744073709551616

/-- A table addresses its entries by 32-bit numbers. -/
def idBound : Nat := bound32

/-- The largest 32-bit number, which no table reaches. -/
def lastId : Nat := idBound - 1

abbrev VarId := Id .var
abbrev MethodId := Id .method
abbrev InvokeId := Id .invoke
abbrev FieldId := Id .field
abbrev ClassId := Id .cls
abbrev ObjId := Id .obj
abbrev ContextId := Id .context

/-- The empty context is the first entry of every context table. -/
def emptyContext : ContextId := ⟨0⟩

/-! ## Entities under a context -/

/-- An entity of table {lit}`e` seen under a calling context. -/
structure Qualified (e : Entity) where
  context : ContextId
  item : Id e
deriving DecidableEq, Inhabited

/-- The written form of a qualified entity: context, colon, entity. -/
def Qualified.text {e : Entity} (q : Qualified e) : String :=
  q.context.text ++ ":" ++ q.item.text

/-- A local variable under the context of its method. -/
abbrev QVar := Qualified .var

/-- An abstract object under its heap context. -/
abbrev QObj := Qualified .obj

/-- A method under the context it is analysed in. -/
abbrev QMethod := Qualified .method

/-- A call site under the context of the calling method. -/
abbrev QSite := Qualified .invoke

end PointsTo
