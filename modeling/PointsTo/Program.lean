import PointsTo.OrderedSet
import PointsTo.Stmt

/-!
# Programs

A program is a set of tables: classes, methods, variables, call sites and fields,
each entry at the position that its id says.  Looking up an id outside a table
yields a blank entry, so that every look-up is total.

Beside the tables a program answers by name: a class by its name, a method by its
full signature.
-/

namespace PointsTo

/-- The statements that have to be looked at again when a variable may refer to
another object. -/
structure VarUses where
  /-- Result and field of every load from a field of the variable. -/
  loads : List (VarId × FieldId) := []
  /-- Field and value of every store to a field of the variable. -/
  stores : List (FieldId × VarId) := []
  /-- Result of every load from an element of the variable. -/
  arrayLoads : List VarId := []
  /-- Value of every store to an element of the variable. -/
  arrayStores : List VarId := []
  /-- Instance calls with the variable as receiver. -/
  invokes : List InvokeId := []
deriving DecidableEq, Inhabited

/-- A local variable, a parameter, or the receiver of a method. -/
structure Var where
  id : VarId
  name : String
  type : JavaType
  method : MethodId
  uses : VarUses := {}
deriving DecidableEq, Inhabited

/-- A field with the class that declares it. -/
structure Field where
  id : FieldId
  className : String
  name : String
  type : JavaType
  isStatic : Bool
deriving DecidableEq, Inhabited

/-- A method with its signature, its variables and its statements. -/
structure Method where
  id : MethodId
  className : String
  name : String
  paramTypes : List JavaType
  ret : JavaType
  params : List VarId
  /-- The receiver, which static methods do not have. -/
  receiver : Option VarId
  /-- The variables that are returned, each once. -/
  returnVars : List VarId
  stmts : List Stmt
  isStatic : Bool
  isAbstract : Bool
  isPublic : Bool
deriving DecidableEq, Inhabited

namespace Method

/-- The method is a constructor. -/
def isConstructor (m : Method) : Bool := m.name == constructorName

/-- The method as a call names it. -/
def ref (m : Method) : MethodRef :=
  { className := m.className, name := m.name, params := m.paramTypes, ret := m.ret }

/-- The text that logs and entry points name a method by. -/
def signature (m : Method) : String := m.ref.signature

/-- What instance methods override each other by. -/
def dispatchKey (m : Method) : String := dispatchKeyOf m.name m.paramTypes

/-- The type of the class that the method names as its own. -/
def declaringType (m : Method) : JavaType := .cls m.className

/-- The parameters with their types, as far as both lists go. -/
def typedParams (m : Method) : List (VarId × JavaType) := m.params.zip m.paramTypes

end Method

/-- A class or an interface. -/
structure Class where
  id : ClassId
  name : String
  superClass : Option String
  interfaces : List String
  isInterface : Bool
  isAbstract : Bool
  methods : List MethodId
  fields : List FieldId
deriving DecidableEq, Inhabited

/-- The tables of a program. -/
structure Program where
  classes : Array Class := #[]
  methods : Array Method := #[]
  vars : Array Var := #[]
  invokes : Array Invoke := #[]
  fields : Array Field := #[]
deriving DecidableEq, Inhabited

namespace Program

/-! ## By id -/

/-- The method of an id; a default for unknown ones. -/
def method (p : Program) (m : MethodId) : Method := p.methods.getD m.index default

/-- The variable of an id; a default for unknown ones. -/
def var (p : Program) (v : VarId) : Var := p.vars.getD v.index default

/-- The call site of an id; a default for unknown ones. -/
def invoke (p : Program) (i : InvokeId) : Invoke := p.invokes.getD i.index default

/-- The field of an id; a default for unknown ones. -/
def field (p : Program) (f : FieldId) : Field := p.fields.getD f.index default

/-- The call sites of a method in the order of its statements. -/
def invokesIn (p : Program) (m : MethodId) : List Invoke :=
  (p.method m).stmts.filterMap fun
    | .invoke i => some (p.invoke i)
    | _ => none

/-! ## By name -/

/-- The first class with a name. -/
def class? (p : Program) (name : String) : Option Class :=
  p.classes.toList.find? fun c => c.name == name

/-- The id of that class. -/
def classId? (p : Program) (name : String) : Option ClassId :=
  (p.class? name).map Class.id

/-- The program has a class with this name. -/
def hasClass (p : Program) (name : String) : Bool := (p.class? name).isSome

/-- The method with a signature; of several, the one that was added last. -/
def methodBySignature? (p : Program) (signature : String) : Option MethodId :=
  (p.methods.toList.reverse.find? fun m => m.signature == signature).map Method.id

/-- A class that is found by a name has it. -/
theorem class?_name {p : Program} {name : String} {c : Class} (h : p.class? name = some c) :
    c.name = name := by
  simpa using List.find?_some h

/-- A method that is found by a signature has it. -/
theorem methodBySignature?_signature {p : Program} {s : String} {i : MethodId}
    (h : p.methodBySignature? s = some i) :
    ∃ m ∈ p.methods.toList, m.id = i ∧ m.signature = s := by
  unfold methodBySignature? at h
  obtain ⟨m, hm, rfl⟩ := Option.map_eq_some_iff.1 h
  exact ⟨m, List.mem_reverse.1 (List.mem_of_find?_eq_some hm), rfl,
    by simpa using List.find?_some hm⟩

end Program

end PointsTo
