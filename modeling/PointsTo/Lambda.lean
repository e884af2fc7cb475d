import PointsTo.Lambda.Shift
import PointsTo.MockTable
import PointsTo.Plugin
import PointsTo.Solver.Rules
import PointsTo.Waitlist

/-!
# Lambdas and method references

A dynamic call site whose bootstrap method is one of the lambda factories makes a
lambda object.  No class has the methods of such an object, so calls on it stay
unresolved; if the name is that of the functional method, they run the method
that the bootstrap arguments name as the implementation.

Where the implementation is an instance method its receiver is a captured value
or the first argument.  What that variable refers to may grow later on, so such
calls wait on it and are resolved again whenever it does.

Main definitions:

- {lit}`Lambda.wiring`: arguments, receiver and results along a lambda edge.
- {lit}`Lambda.plugin`: the plugin.
-/

namespace PointsTo.Lambda

/-! ## The factories -/

/-- A class of the package that holds the lambda factories. -/
def invokeClass (name : String) : JavaType := .cls ("java.lang.invoke." ++ name)

/-- The factory that lambda expressions are compiled to. -/
def metafactory : MethodRef where
  className := "java.lang.invoke.LambdaMetafactory"
  name := "metafactory"
  params :=
    [invokeClass "MethodHandles$Lookup", .string, invokeClass "MethodType",
      invokeClass "MethodType", invokeClass "MethodHandle", invokeClass "MethodType"]
  ret := invokeClass "CallSite"

/-- The factory for lambdas with further markers or bridges. -/
def altMetafactory : MethodRef where
  className := "java.lang.invoke.LambdaMetafactory"
  name := "altMetafactory"
  params :=
    [invokeClass "MethodHandles$Lookup", .string, invokeClass "MethodType",
      .array (.cls JavaType.objectName)]
  ret := invokeClass "CallSite"

/-- The reference is written like one of the lambda factories. -/
def isFactory (r : MethodRef) : Bool :=
  r.signature == metafactory.signature || r.signature == altMetafactory.signature

/-- The position of the implementing method among the bootstrap arguments. -/
def implIndex : Nat := 1

/-! ## Wiring -/

/-- The flow of captured values to parameters. -/
def capturedEdges (shift : Shift) (call : LambdaCall) (params : List VarId)
    (target : ContextId) : List FlowEdge :=
  call.captured.zipIdx.filterMap fun (v, i) =>
    ((shift.capturedParam? i).bind fun j => params[j]?).map fun param =>
      ⟨varPointer call.lambdaContext v, varPointer target param, .parameterPassing, none⟩

/-- The flow of actual arguments to parameters. -/
def actualEdges (shift : Shift) (args : List VarId) (caller : ContextId) (params : List VarId)
    (target : ContextId) : List FlowEdge :=
  args.zipIdx.filterMap fun (v, i) =>
    ((shift.actualParam? i).bind fun j => params[j]?).map fun param =>
      ⟨varPointer caller v, varPointer target param, .parameterPassing, none⟩

/-- The variable that provides the receiver of the implementing method. -/
def receiverSource? (shift : Shift) (call : LambdaCall) (args : List VarId)
    (caller : ContextId) : Option Pointer :=
  if shift.capturedReceiver then call.captured.head?.map (varPointer call.lambdaContext)
  else if shift.actualReceiver then args.head?.map (varPointer caller)
  else none

/-- The flow of the receiver to the implementing method. -/
def receiverEdges (shift : Shift) (call : LambdaCall) (args : List VarId) (caller : ContextId)
    (callee : Method) (target : ContextId) : List FlowEdge :=
  match callee.receiver, receiverSource? shift call args caller with
  | some this, some source => [⟨source, varPointer target this, .localAssign, none⟩]
  | _, _ => []

/-- The flow along a lambda edge: captured values, arguments, receiver, results. -/
def wiring (p : Program) (e : CallEdge) (call : LambdaCall) : List FlowEdge :=
  let args := (p.invoke e.site.item).args
  let callee := p.method e.callee.item
  let caller := e.site.context
  let target := e.callee.context
  let shift := Shift.ofMethod call.captured.length callee
  capturedEdges shift call callee.params target ++
    actualEdges shift args caller callee.params target ++
    receiverEdges shift call args caller callee target ++
    returnEdges call.result callee caller target

/-! ## The plugin -/

/-- A call of an instance method whose receiver is not fully known yet. -/
structure PendingCall where
  site : QSite
  kind : HandleKind
  target : MethodRef
  call : LambdaCall
deriving DecidableEq

/-- What the plugin remembers. -/
structure State where
  /-- The lambda objects of the dynamic sites of each method. -/
  created : List (MethodId × InvokeId × ObjId) := []
  /-- The objects made by references to constructors. -/
  constructed : MockTable := .new .lambdaConstructed
  pending : Waitlist QVar PendingCall := .empty

/-- The lambda objects of the dynamic sites of a method, in the order of the
sites. -/
def createAll (env : Setting) (m : MethodId) : Service (List (MethodId × InvokeId × ObjId)) :=
  (env.program.invokesIn m).filterMapM fun site =>
    match site.dynamic with
    | none => pure none
    | some d =>
      if isFactory d.bootstrap then do
        let o ← Service.mock
          { kind := .lambda, site := .invoke site.id, type := d.methodType.ret
            container := some m }
        return some (m, site.id, o)
      else pure none

/-- Under each context of a method its lambda objects reach the results of their
sites. -/
def assignCreated (env : Setting) (st : State) (m : QMethod) : Service Unit :=
  st.created.forM fun (owner, site, o) =>
    match (env.program.invoke site).result with
    | some result =>
      if owner = m.item then Service.addVarObj m.context result ⟨m.context, o⟩ else pure ()
    | none => pure ()

/-- The method that a pending call runs on an object. -/
def pendingTarget? (p : Program) (r : PendingCall) (type : JavaType) : Option MethodId :=
  p.concrete? <|
    match r.kind with
    | .invokeSpecial => p.resolve? r.target
    | _ => p.dispatch? type r.target

/-- Resolve a pending call on every object of a set. -/
def resolvePending (env : Setting) (r : PendingCall) (receivers : ObjSet) : Service Unit :=
  receivers.toList.forM fun o => do
    let obj ← Service.obj o.item
    match pendingTarget? env.program r obj.type with
    | some m => do
      let target ← Service.callContext r.site (some o)
      Service.addCall ⟨r.site, ⟨target, m⟩, .lambda r.call⟩
    | none => pure ()

/-- A call that runs a constructor: it makes an object, which is the result of
the call and the receiver of the constructor. -/
def callConstructor (env : Setting) (st : State) (maker : InvokeId) (site : QSite)
    (target : MethodRef) (call : LambdaCall) : Service State :=
  match env.program.resolve? target with
  | none => pure st
  | some m => do
    let (o, constructed) ← st.constructed.getOrCreate (.invoke maker) (.cls target.className)
      (some (env.program.invoke maker).container)
    let made : QObj := ⟨site.context, o⟩
    (env.program.invoke site.item).result.forM fun result =>
      Service.addVarObj site.context result made
    let context ← Service.callContext site (some made)
    (env.program.method m).receiver.forM fun this => Service.addVarObj context this made
    Service.addCall ⟨site, ⟨context, m⟩, .lambda call⟩
    return { st with constructed }

/-- A call that runs a static method. -/
def callStatic (env : Setting) (site : QSite) (target : MethodRef) (call : LambdaCall) :
    Service Unit :=
  match env.program.resolve? target with
  | none => pure ()
  | some m => do
    let context ← Service.callContext site none
    Service.addCall ⟨site, ⟨context, m⟩, .lambda call⟩

/-- The variable that an instance method takes its receiver from: the first
captured value, or the first argument if nothing is captured. -/
def receiverVar? (captured args : List VarId) (lambdaContext context : ContextId) :
    Option QVar :=
  match captured, args with
  | v :: _, _ => some ⟨lambdaContext, v⟩
  | [], v :: _ => some ⟨context, v⟩
  | [], [] => none

/-- A call that runs an instance method waits on its receiver. -/
def callInstance (env : Setting) (st : State) (receiver : QVar) (r : PendingCall) :
    Service State :=
  if st.pending.isRegistered receiver r then pure st
  else do
    let receivers ← Service.varPointsTo receiver
    resolvePending env r receivers
    return { st with pending := st.pending.register receiver r }

/-- A call on a lambda object runs the method of a handle. -/
def callHandle (env : Setting) (st : State) (maker : InvokeId) (site : QSite)
    (handle : MethodHandle) (call : LambdaCall) : Service State :=
  match handle.kind with
  | .newInvokeSpecial => callConstructor env st maker site handle.target call
  | .invokeVirtual | .invokeInterface | .invokeSpecial =>
    match receiverVar? call.captured (env.program.invoke site.item).args call.lambdaContext
        site.context with
    | some receiver => callInstance env st receiver ⟨site, handle.kind, handle.target, call⟩
    | none => pure st
  | .invokeStatic => do
    callStatic env site handle.target call
    return st
  | .getField | .getStatic | .putField | .putStatic =>
    .fail (.unsupportedHandle handle.kind handle.target.signature)

/-- An unresolved call on an object: only the functional method of a lambda
object runs its implementation. -/
def callOn (env : Setting) (st : State) (o : QObj) (site : QSite) : Service State := do
  let obj ← Service.obj o.item
  match obj.isMock .lambda, obj.mockSite? with
  | true, some (.invoke maker) =>
    let making := env.program.invoke maker
    let call := env.program.invoke site.item
    match making.dynamic with
    | none => return st
    | some d =>
      match decide (call.target.name = d.methodName), d.handle? implIndex with
      | true, some handle =>
        callHandle env st maker site handle
          { captured := making.args, lambdaContext := o.context, result := call.result }
      | _, _ => return st
  | _, _ => return st

/-- The calls that wait on a variable are resolved on all that it refers to. -/
def wake (env : Setting) (st : State) (v : QVar) : Service Unit :=
  match st.pending.get v with
  | [] => pure ()
  | waiting => do
    let receivers ← Service.varPointsTo v
    waiting.forM fun r => resolvePending env r receivers

def react (env : Setting) (e : Event) (st : State) : Service State :=
  match e with
  | .method m => do
    let created ← createAll env m
    return { st with created := st.created ++ created }
  | .methodIn m => do
    assignCreated env st m
    return st
  | .unresolved o context site => callOn env st o ⟨context, site⟩
  | .grown v _ => do
    wake env st v
    return st
  | .edge e =>
    match e.kind with
    | .lambda call => do
      Service.addFlows (wiring env.program e call)
      return st
    | _ => return st
  | .start | .finish => return st

/-- The plugin that resolves lambdas and method references. -/
def plugin : Plugin State where
  name := fun _ => "lambda"
  react := react

end PointsTo.Lambda
