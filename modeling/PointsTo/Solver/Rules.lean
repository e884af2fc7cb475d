import PointsTo.Solver

/-!
# The rules of the analysis

What follows from a method being reachable, from a variable referring to a
further object, and from a call edge.  Rules that only add flow edges are given
as lists of edges, in the order in which they are added.

Main definitions:

- {lit}`SolverM.execute`: the effect of one statement of a reachable method.
- {lit}`accessEdges`: flow through the fields and elements of an object.
- {lit}`SolverM.dispatch`: the call of a method on an object.
- {lit}`ordinaryWiring`: arguments and results along an ordinary call edge.
-/

namespace PointsTo

/-! ## Flow edges -/

/-- The edge of an assignment between two variables of one context. -/
def assignEdge (context : ContextId) (kind : FlowKind) (filter : Option JavaType)
    (rhs lhs : VarId) : FlowEdge :=
  { source := varPointer context rhs, target := varPointer context lhs, kind, filter }

/-- The flow through fields and elements of an object that {lit}`v` refers to. -/
def accessEdges (p : Program) (heap : Heap) (v : QVar) (o : QObj) : List FlowEdge :=
  let uses := (p.var v.item).uses
  let place := varPointer v.context
  let elements := (heap.typeOf o.item).element?.bind JavaType.reference?
  uses.loads.map (fun (lhs, f) => ⟨.field o f, place lhs, .instanceLoad, none⟩) ++
    uses.stores.map (fun (f, rhs) => ⟨place rhs, .field o f, .instanceStore, none⟩) ++
    uses.arrayLoads.map (fun lhs => ⟨.array o, place lhs, .arrayLoad, none⟩) ++
    uses.arrayStores.map (fun rhs => ⟨place rhs, .array o, .arrayStore, elements⟩)

/-- Every actual argument flows to its parameter, if that holds references. -/
def argumentEdges (call : Invoke) (callee : Method) (caller target : ContextId) :
    List FlowEdge :=
  ((call.args.zip callee.typedParams).filter fun (_, _, type) => type.isReference).map
    fun (arg, param, _) =>
      ⟨varPointer caller arg, varPointer target param, .parameterPassing, none⟩

/-- Every returned variable flows to the result of the call. -/
def returnEdges (result : Option VarId) (callee : Method) (caller target : ContextId) :
    List FlowEdge :=
  match result with
  | some r =>
    callee.returnVars.map fun v => ⟨varPointer target v, varPointer caller r, .ret, none⟩
  | none => []

/-- The flow along an ordinary call edge: arguments, then results. -/
def ordinaryWiring (p : Program) (e : CallEdge) : List FlowEdge :=
  let call := p.invoke e.site.item
  let callee := p.method e.callee.item
  argumentEdges call callee e.site.context e.callee.context ++
    returnEdges call.result callee e.site.context e.callee.context

/-! ## Calls -/

/-- The method with a body that a call runs on an object. -/
def receiverTarget? (p : Program) (heap : Heap) (call : Invoke) (o : QObj) : Option MethodId :=
  p.concrete? <|
    match call.kind with
    | .special => p.resolve? call.target
    | _ => p.dispatch? (heap.typeOf o.item) call.target

/-- The method with a body that a static call runs. -/
def staticTarget? (p : Program) (call : Invoke) : Option MethodId :=
  match call.kind with
  | .static => p.concrete? (p.resolve? call.target)
  | _ => none

namespace SolverM

/-- A call of a method on an object: the object reaches the receiver of the
method, and an edge is queued. -/
def callOn (env : Setting) (site : QSite) (o : QObj) (callee : MethodId) (kind : CallKind) :
    SolverM Unit := do
  let target ← callContext env site (some o)
  if let some this := (env.program.method callee).receiver then
    modify fun s => s.addObj (varPointer target this) o
  modify fun s => s.addCall ⟨site, ⟨target, callee⟩, kind⟩

/-- Resolve a call site on an object; false if there is no method to call. -/
def dispatch (env : Setting) (context : ContextId) (site : InvokeId) (o : QObj) :
    SolverM Bool := do
  let call := env.program.invoke site
  match receiverTarget? env.program (← get).heap call o, CallKind.ofInvoke? call.kind with
  | some callee, some kind =>
    callOn env ⟨context, site⟩ o callee kind
    return true
  | _, _ => return false

/-! ## Statements -/

/-- An object is made or found and assigned to a variable. -/
def assignObj (env : Setting) (method : QMethod) (lhs : VarId) (o : Obj) (onHeap : Bool) :
    SolverM Unit := do
  let id ← internObj o
  let context ← if onHeap then heapContext env method else pure emptyContext
  modify fun s => s.addObj (varPointer method.context lhs) ⟨context, id⟩

/-- A call to a method that is known without a receiver. -/
def callStatic (env : Setting) (site : QSite) : SolverM Unit :=
  match staticTarget? env.program (env.program.invoke site.item) with
  | some callee => do
    let target ← callContext env site none
    modify fun s => s.addCall ⟨site, ⟨target, callee⟩, .static⟩
  | none => pure ()

/-- The effect of statement number {lit}`index` of a reachable method.  Accesses
through a base variable and calls on a receiver take effect object by object
later on. -/
def execute (env : Setting) (method : QMethod) (index : Nat) : Stmt → SolverM Unit
  | .new lhs type => do
    let stmt ← ofExcept (nextIndex index "statements")
    assignObj env method lhs (.alloc method.item stmt type) true
  | .literal lhs (.str value) => assignObj env method lhs (.stringConstant value) false
  | .literal lhs (.cls type) => assignObj env method lhs (.classConstant type) false
  | .literal _ .null => pure ()
  | .copy lhs rhs => flow (assignEdge method.context .localAssign none rhs lhs)
  | .cast lhs rhs type => flow (assignEdge method.context .cast type.reference? rhs lhs)
  | .loadStatic lhs f => flow ⟨.static f, varPointer method.context lhs, .staticLoad, none⟩
  | .storeStatic f rhs => flow ⟨varPointer method.context rhs, .static f, .staticStore, none⟩
  | .invoke site => callStatic env ⟨method.context, site⟩
  | .loadField .. | .storeField .. | .loadArray .. | .storeArray .. | .ret _ => pure ()
where
  flow (e : FlowEdge) : SolverM Unit := modify fun s => s.addFlow env.program e

/-- The effect of all statements of a reachable method, in order. -/
def executeBody (env : Setting) (method : QMethod) : SolverM Unit :=
  (env.program.method method.item).stmts.zipIdx.forM fun (stmt, index) =>
    execute env method index stmt

end SolverM

end PointsTo
