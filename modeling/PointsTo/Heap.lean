import PointsTo.Interned

/-!
# Abstract objects

The objects that a run tells apart: one per allocating statement, per string
constant, per class literal, and the stand-ins for objects that no statement of
the program allocates, such as lambdas and the meta objects of reflection.
Objects are interned by all that is known of them.
-/

namespace PointsTo

/-- What an object without an allocating statement stands for. -/
inductive MockKind where
  | lambda
  | lambdaConstructed
  | reflective
  | classMeta
  | methodMeta
  | constructorMeta
deriving DecidableEq

namespace MockKind

/-- All kinds of stand-ins. -/
def all : List MockKind :=
  [lambda, lambdaConstructed, reflective, classMeta, methodMeta, constructorMeta]

/-- The written name of a kind of stand-in. -/
def text : MockKind → String
  | lambda => "LambdaObj"
  | lambdaConstructed => "LambdaConstructedObj"
  | reflective => "ReflectiveObj"
  | classMeta => "ClassMetaObj"
  | methodMeta => "MethodMetaObj"
  | constructorMeta => "ConstructorMetaObj"

/-- The kind of a name. -/
def ofText? (s : String) : Option MockKind := all.find? fun k => k.text == s

end MockKind

/-- What a stand-in is made for: a call site, a type or a method. -/
inductive MockSite where
  | invoke (site : InvokeId)
  | type (type : JavaType)
  | method (method : MethodId)
deriving DecidableEq

/-- The written form of the thing that a stand-in is made for. -/
def MockSite.text : MockSite → String
  | invoke i => i.text
  | type t => t.text
  | method m => m.text

/-- What makes an object the object it is. -/
inductive ObjKind where
  /-- Allocated by statement {lit}`stmt` of {lit}`method`. -/
  | alloc (method : MethodId) (stmt : Nat)
  | stringConstant (value : String)
  | classConstant (type : JavaType)
  | mock (kind : MockKind) (site : MockSite)
deriving DecidableEq

/-- An abstract object: its kind, its type, and the method that contains its
allocation. -/
structure Obj where
  kind : ObjKind
  type : JavaType
  container : Option MethodId
deriving DecidableEq

/-- A request for a stand-in. -/
structure MockObj where
  kind : MockKind
  site : MockSite
  type : JavaType
  container : Option MethodId
deriving DecidableEq

/-- The object that a stand-in is. -/
def MockObj.obj (m : MockObj) : Obj :=
  { kind := .mock m.kind m.site, type := m.type, container := m.container }

namespace Obj

instance : Inhabited Obj := ⟨⟨.classConstant .null, .null, none⟩⟩

/-- The object that {lit}`new type` makes at a statement. -/
def alloc (method : MethodId) (stmt : Nat) (type : JavaType) : Obj :=
  { kind := .alloc method stmt, type, container := some method }

/-- The object of a text literal. -/
def stringConstant (value : String) : Obj :=
  { kind := .stringConstant value, type := .string, container := none }

/-- The object of a class literal. -/
def classConstant (type : JavaType) : Obj :=
  { kind := .classConstant type, type := .classClass, container := none }

/-! ## Queries -/

/-- The kind of a stand-in. -/
def mockKind? (o : Obj) : Option MockKind :=
  match o.kind with
  | .mock kind _ => some kind
  | _ => none

/-- What a stand-in is made for. -/
def mockSite? (o : Obj) : Option MockSite :=
  match o.kind with
  | .mock _ site => some site
  | _ => none

/-- The object is a stand-in of this kind. -/
def isMock (o : Obj) (kind : MockKind) : Bool := o.mockKind? == some kind

/-- A stand-in of a kind for something is of the kind of object that says both. -/
theorem kind_of_isMock {o : Obj} {kind : MockKind} {site : MockSite} (hkind : o.isMock kind = true)
    (hsite : o.mockSite? = some site) : o.kind = .mock kind site := by
  cases h : o.kind <;> simp_all [isMock, mockKind?, mockSite?]

/-- The text of a literal. -/
def string? (o : Obj) : Option String :=
  match o.kind with
  | .stringConstant value => some value
  | _ => none

/-- The written form of an object. -/
def text (o : Obj) : String :=
  match o.kind with
  | .alloc method stmt => "alloc:" ++ method.text ++ ":" ++ toString stmt ++ ":" ++ o.type.text
  | .stringConstant value => "\"" ++ value ++ "\""
  | .classConstant type => type.text ++ ".class"
  | .mock kind site => kind.text ++ ":" ++ site.text ++ ":" ++ o.type.text

end Obj

/-! ## The heap of a run -/

/-- The objects of a run in the order of their ids. -/
abbrev Heap := Interned .obj Obj

/-- The object of an id; an id outside the table stands for an object of the
null type. -/
def Heap.get (h : Heap) (i : ObjId) : Obj := (h.get? i).getD default

/-- The type of the object of an id. -/
def Heap.typeOf (h : Heap) (i : ObjId) : JavaType := (h.get i).type

end PointsTo
