import PointsTo.Error
import PointsTo.Program

/-!
# Building programs

A program is assembled by declarations in any order that a front end likes.
Building it then checks that every variable that a statement mentions was
created, and indexes the program: which statements use a variable as their base,
and which variables a method returns.  One pass over all statements does both.

Main definitions:

- {lit}`Declaration`, {lit}`Builder.declare`: one step of assembling.
- {lit}`Program.mentioned`: the variables of a statement in the order of checking.
- {lit}`Program.usesOf`, {lit}`Program.returned`: what the indexes hold.
- {lit}`Program.scan`: the pass over all statements.
- {lit}`Builder.build`: check and index.
-/

namespace PointsTo

/-! ## Declarations -/

/-- What is said of a class when it is added. -/
structure ClassDecl where
  name : String
  superClass : Option String
  interfaces : List String
  isInterface : Bool
  isAbstract : Bool
deriving DecidableEq

namespace ClassDecl

/-- A class without interfaces below the root; the root itself has no
superclass. -/
def plain (name : String) : ClassDecl :=
  { name
    superClass := if name = JavaType.objectName then none else some JavaType.objectName
    interfaces := []
    isInterface := false
    isAbstract := false }

/-- An interface, which is abstract. -/
def interface (name : String) : ClassDecl :=
  { plain name with isInterface := true, isAbstract := true }

/-- The same class with a superclass. -/
def extending (d : ClassDecl) (superClass : String) : ClassDecl :=
  { d with superClass := some superClass }

/-- The same class with more interfaces. -/
def implementing (d : ClassDecl) (interfaces : List String) : ClassDecl :=
  { d with interfaces := d.interfaces ++ interfaces }

/-- The same class, but abstract. -/
def abstract (d : ClassDecl) : ClassDecl := { d with isAbstract := true }

end ClassDecl

/-- What is said of a field when it is added. -/
structure FieldDecl where
  className : String
  name : String
  type : JavaType
  isStatic : Bool
deriving DecidableEq

/-- What is said of a method when it is added. -/
structure MethodDecl where
  className : String
  name : String
  params : List JavaType
  ret : JavaType
  isStatic : Bool
  isAbstract : Bool
  isPublic : Bool
deriving DecidableEq

/-- A call instruction with a statically known reference. -/
structure CallDecl where
  kind : InvokeKind
  target : MethodRef
  base : Option VarId
  args : List VarId
  result : Option VarId
deriving DecidableEq

/-- A dynamic call instruction with the values that it captures. -/
structure DynamicDecl where
  dynamic : DynamicCall
  captured : List VarId
  result : Option VarId
deriving DecidableEq

/-- One step of assembling a program. -/
inductive Declaration where
  | cls (d : ClassDecl)
  | field (d : FieldDecl)
  | method (d : MethodDecl)
  | var (method : MethodId) (name : String) (type : JavaType)
  | stmt (method : MethodId) (s : Stmt)
  | call (method : MethodId) (d : CallDecl)
  | dynamicCall (method : MethodId) (d : DynamicDecl)
  | line (site : InvokeId) (line : Nat)
deriving DecidableEq

/-! ## What is checked and indexed -/

namespace Program

/-- The variables that a statement mentions, in the order in which they are
checked. -/
def mentioned (p : Program) : Stmt → List VarId
  | .new lhs _ | .literal lhs _ | .loadStatic lhs _ => [lhs]
  | .copy lhs rhs | .cast lhs rhs _ => [lhs, rhs]
  | .loadField lhs base _ | .loadArray lhs base => [lhs, base]
  | .storeField base _ rhs | .storeArray base rhs => [base, rhs]
  | .storeStatic _ rhs => [rhs]
  | .invoke i =>
    let call := p.invoke i
    call.args ++ call.base.toList ++ call.result.toList
  | .ret value => value.toList

/-- The statements of all methods, in the order of the methods. -/
def allStmts (p : Program) : List Stmt := p.methods.toList.flatMap Method.stmts

/-- The first mentioned variable that was never created. -/
def dangling? (p : Program) : Option VarId :=
  (p.allStmts.flatMap p.mentioned).find? fun v => decide (p.vars.size ≤ v.index)

/-- The statements of a list that have {lit}`v` as their base. -/
def usesIn (p : Program) (stmts : List Stmt) (v : VarId) : VarUses where
  loads := stmts.filterMap fun
    | .loadField lhs base f => if base = v then some (lhs, f) else none
    | _ => none
  stores := stmts.filterMap fun
    | .storeField base f rhs => if base = v then some (f, rhs) else none
    | _ => none
  arrayLoads := stmts.filterMap fun
    | .loadArray lhs base => if base = v then some lhs else none
    | _ => none
  arrayStores := stmts.filterMap fun
    | .storeArray base rhs => if base = v then some rhs else none
    | _ => none
  invokes := stmts.filterMap fun
    | .invoke i =>
      if (p.invoke i).base = some v ∧ (p.invoke i).kind.isInstance = true then some i else none
    | _ => none

/-- The statements of the program that have {lit}`v` as their base. -/
def usesOf (p : Program) (v : VarId) : VarUses := p.usesIn p.allStmts v

/-- The variables that a list of statements returns, each at its first return. -/
def returned (stmts : List Stmt) : List VarId :=
  (OrderedSet.ofList (stmts.filterMap fun
    | .ret value => value
    | _ => none)).toList

/-- The program with its indexes filled in. -/
def indexed (p : Program) : Program :=
  { p with
    vars := p.vars.map fun v => { v with uses := p.usesOf v.id }
    methods := p.methods.map fun m => { m with returnVars := returned m.stmts } }

end Program

/-! ## The pass over the statements -/

/-- What was noted up to a statement. -/
structure Scan where
  /-- The uses of all variables, in the methods so far. -/
  uses : Array VarUses
  /-- The variables that the method at hand returns. -/
  returned : OrderedSet VarId := .empty

namespace Scan

/-- Note a use of a variable. -/
def note (s : Scan) (v : VarId) (use : VarUses → VarUses) : Scan :=
  { s with uses := s.uses.modify v.index use }

/-- Note that a variable is returned. -/
def noteReturn (s : Scan) (v : VarId) : Scan := { s with returned := s.returned.insert v }

end Scan

namespace Program

/-- A variable that a statement mentions has to be there. -/
def check (p : Program) (v : VarId) : Except Error Unit :=
  if v.index < p.vars.size then .ok () else .error (.danglingVariable v)

/-- Check the variables of a call site: arguments, receiver, result.  Calls that are
dispatched on the receiver are uses of it. -/
def scanCall (p : Program) (s : Scan) (i : InvokeId) : Except Error Scan := do
  let call := p.invoke i
  call.args.forM p.check
  let s ← match call.base with
    | some base => do
      p.check base
      pure <|
        if call.kind.isInstance then
          s.note base fun u => { u with invokes := u.invokes ++ [i] }
        else s
    | none => pure s
  match call.result with
  | some result => p.check result
  | none => pure ()
  return s

/-- Check the variables of a statement, and note what it uses or returns. -/
def scanStmt (p : Program) (s : Scan) : Stmt → Except Error Scan
  | .loadField lhs base f => do
    p.check lhs
    p.check base
    return s.note base fun u => { u with loads := u.loads ++ [(lhs, f)] }
  | .storeField base f rhs => do
    p.check base
    p.check rhs
    return s.note base fun u => { u with stores := u.stores ++ [(f, rhs)] }
  | .loadArray lhs base => do
    p.check lhs
    p.check base
    return s.note base fun u => { u with arrayLoads := u.arrayLoads ++ [lhs] }
  | .storeArray base rhs => do
    p.check base
    p.check rhs
    return s.note base fun u => { u with arrayStores := u.arrayStores ++ [rhs] }
  | .invoke i => p.scanCall s i
  | .ret (some v) => do
    p.check v
    return s.noteReturn v
  | .new lhs _ | .literal lhs _ | .loadStatic lhs _ => do
    p.check lhs
    return s
  | .copy lhs rhs | .cast lhs rhs _ => do
    p.check lhs
    p.check rhs
    return s
  | .storeStatic _ rhs => do
    p.check rhs
    return s
  | .ret none => return s

/-- Scan the bodies of methods one after the other, and fill in what each returns. -/
def scanMethods (p : Program) (uses : Array VarUses) :
    List Method → Except Error (Array VarUses × List Method)
  | [] => return (uses, [])
  | m :: rest => do
    let s ← m.stmts.foldlM p.scanStmt { uses }
    let (uses, rest) ← scanMethods p s.uses rest
    return (uses, { m with returnVars := s.returned.toList } :: rest)

/-- Check all statements and fill in the indexes. -/
def scan (p : Program) : Except Error Program := do
  let (uses, methods) ← p.scanMethods (.replicate p.vars.size {}) p.methods.toList
  return { p with
    vars := p.vars.zipWith (fun v uses => { v with uses }) uses
    methods := methods.toArray }

end Program

/-! ## The builder -/

/-- A program under construction, and the first table that became too large. -/
structure Builder where
  program : Program := {}
  overflow : Option Error := none
deriving Inhabited

namespace Builder

/-- Remember the first table that has no room for one more entry. -/
def reserve (b : Builder) (e : Entity) (size : Nat) : Builder :=
  match nextIndex size e.plural with
  | .ok _ => b
  | .error err => { b with overflow := b.overflow.or (some err) }

/-- Add a class; a second class of the same name changes nothing. -/
def addClass (b : Builder) (d : ClassDecl) : ClassId × Builder :=
  match b.program.classId? d.name with
  | some id => (id, b)
  | none =>
    let id : ClassId := ⟨b.program.classes.size⟩
    let b := b.reserve .cls id.index
    let entry : Class :=
      { id
        name := d.name
        superClass := d.superClass
        interfaces := d.interfaces
        isInterface := d.isInterface
        isAbstract := d.isAbstract
        methods := []
        fields := [] }
    (id, { b with program := { b.program with classes := b.program.classes.push entry } })

/-- The builder that every program starts from: it knows the root class. -/
def new : Builder := (addClass {} (.plain JavaType.objectName)).2

/-- Change the class of a name, if it is declared by now. -/
def modifyClass (p : Program) (name : String) (f : Class → Class) : Program :=
  match p.classId? name with
  | some id => { p with classes := p.classes.modify id.index f }
  | none => p

/-- Add a field; its class lists it if it is declared by now. -/
def addField (b : Builder) (d : FieldDecl) : FieldId × Builder :=
  let id : FieldId := ⟨b.program.fields.size⟩
  let b := b.reserve .field id.index
  let entry : Field :=
    { id, className := d.className, name := d.name, type := d.type, isStatic := d.isStatic }
  let program := { b.program with fields := b.program.fields.push entry }
  (id, { b with
    program := modifyClass program d.className fun c => { c with fields := c.fields ++ [id] } })

/-- Create a variable of a method. -/
def addVar (b : Builder) (method : MethodId) (name : String) (type : JavaType) :
    VarId × Builder :=
  let id : VarId := ⟨b.program.vars.size⟩
  let b := b.reserve .var id.index
  let entry : Var := { id, name, type, method }
  (id, { b with program := { b.program with vars := b.program.vars.push entry } })

/-- Create one variable per parameter type, numbered from {lit}`n`. -/
def addParams (method : MethodId) : Nat → List JavaType → Builder → List VarId × Builder
  | _, [], b => ([], b)
  | n, t :: ts, b =>
    let (v, b) := b.addVar method ("p" ++ toString n) t
    let (vs, b) := addParams method (n + 1) ts b
    (v :: vs, b)

/-- Create the receiver of an instance method. -/
def addReceiver (b : Builder) (method : MethodId) (d : MethodDecl) : Option VarId × Builder :=
  if d.isStatic then (none, b)
  else
    let (v, b) := b.addVar method "this" (.cls d.className)
    (some v, b)

/-- Add a method with its receiver and parameters; its class lists it if it is
declared by now. -/
def addMethod (b : Builder) (d : MethodDecl) : MethodId × Builder :=
  let id : MethodId := ⟨b.program.methods.size⟩
  let b := b.reserve .method id.index
  let (receiver, b) := b.addReceiver id d
  let (params, b) := addParams id 0 d.params b
  let entry : Method :=
    { id
      className := d.className
      name := d.name
      paramTypes := d.params
      ret := d.ret
      params
      receiver
      returnVars := []
      stmts := []
      isStatic := d.isStatic
      isAbstract := d.isAbstract
      isPublic := d.isPublic }
  let program := { b.program with methods := b.program.methods.push entry }
  (id, { b with
    program := modifyClass program d.className fun c => { c with methods := c.methods ++ [id] } })

/-- Append a statement to the body of a method. -/
def addStmt (b : Builder) (method : MethodId) (s : Stmt) : Builder :=
  { b with
    program := { b.program with
      methods := b.program.methods.modify method.index fun m =>
        { m with stmts := m.stmts ++ [s] } } }

/-- Add a call site, and the statement that calls it. -/
def addInvoke (b : Builder) (method : MethodId) (make : InvokeId → Invoke) :
    InvokeId × Builder :=
  let id : InvokeId := ⟨b.program.invokes.size⟩
  let b := b.reserve .invoke id.index
  let b := { b with program := { b.program with invokes := b.program.invokes.push (make id) } }
  (id, b.addStmt method (.invoke id))

/-- Adds a call site with its statement. -/
def addCall (b : Builder) (method : MethodId) (d : CallDecl) : InvokeId × Builder :=
  b.addInvoke method fun id =>
    { id
      container := method
      kind := d.kind
      target := d.target
      base := d.base
      args := d.args
      result := d.result
      line := none
      dynamic := none }

/-- Adds a dynamic call site with its statement. -/
def addDynamicCall (b : Builder) (method : MethodId) (d : DynamicDecl) : InvokeId × Builder :=
  b.addInvoke method fun id =>
    { id
      container := method
      kind := .dynamic
      target := d.dynamic.methodRef
      base := none
      args := d.captured
      result := d.result
      line := none
      dynamic := some d.dynamic }

/-- Note the source line of a call site. -/
def setLine (b : Builder) (site : InvokeId) (line : Nat) : Builder :=
  { b with
    program := { b.program with
      invokes := b.program.invokes.modify site.index fun i => { i with line := some line } } }

/-- Carry out one declaration. -/
def declare (b : Builder) : Declaration → Builder
  | .cls d => (b.addClass d).2
  | .field d => (b.addField d).2
  | .method d => (b.addMethod d).2
  | .var method name type => (b.addVar method name type).2
  | .stmt method s => b.addStmt method s
  | .call method d => (b.addCall method d).2
  | .dynamicCall method d => (b.addDynamicCall method d).2
  | .line site line => b.setLine site line

/-- The builder after a list of declarations. -/
def ofList (ds : List Declaration) : Builder := ds.foldl declare new

/-- The receiver of a method that was added. -/
def receiver? (b : Builder) (m : MethodId) : Option VarId := (b.program.method m).receiver

/-- A parameter of a method that was added. -/
def param? (b : Builder) (m : MethodId) (i : Nat) : Option VarId :=
  (b.program.method m).params[i]?

/-- Check the program and fill in its indexes. -/
def build (b : Builder) : Except Error Program :=
  match b.overflow with
  | some e => .error e
  | none => b.program.scan

end Builder

end PointsTo
