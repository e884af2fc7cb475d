import PointsTo.Program
import PointsTo.Reflection.Invocation
import PointsTo.Reflection.Log

/-!
# Reflective calls from a log

Call sites that a log reports do what the log says.  Entries whose caller or
target the program does not have are passed over.
-/

namespace PointsTo.Reflection

/-- What a logged call is about. -/
inductive LogTarget where
  | cls (name : String)
  | method (m : MethodId)
deriving DecidableEq

/-- An entry of a log whose caller and target the program has. -/
structure ResolvedEntry where
  caller : MethodId
  api : Api
  target : LogTarget
  line : Option Nat
deriving DecidableEq

/-- A call site that an entry speaks of. -/
structure Claim where
  caller : MethodId
  site : InvokeId
  api : Api
  target : LogTarget
deriving DecidableEq

/-- The entries of a log, the call sites that they cover, and what these sites
wait for and have made. -/
structure LogModel where
  entries : List ResolvedEntry := []
  claims : List Claim := []
  /-- Receivers of logged invocations, with the method that is invoked. -/
  receivers : RelevantVars MethodId := .empty
  made : MockTable := .new .reflective

namespace LogModel

def name : String := "log"

def size (m : LogModel) : Nat := m.entries.length

def isEmpty (m : LogModel) : Bool := m.entries.isEmpty

/-- The class or method that an entry names, if the program has it. -/
def target? (p : Program) (e : LogEntry) : Option LogTarget :=
  match e.api with
  | .forName | .classNewInstance => (p.class? e.target).map fun c => .cls c.name
  | _ => (p.methodBySignature? e.target).map .method

/-- The entry with its caller and its target looked up. -/
def resolved? (p : Program) (e : LogEntry) : Option ResolvedEntry := do
  let caller ← p.methodBySignature? e.caller
  let target ← target? p e
  return { caller, api := e.api, target, line := e.line }

/-- The model of a log. -/
def ofLog (p : Program) (content : String) : Except Error LogModel := do
  let entries ← Log.parse content
  return { entries := entries.filterMap (resolved? p) }

/-- The entries that speak of a call site. -/
def matching (m : LogModel) (site : Invoke) (api : Api) : List ResolvedEntry :=
  m.entries.filter fun e =>
    decide (e.caller = site.container) && decide (e.api = api) &&
      (e.line.isNone || decide (e.line = site.line))

/-- Offer a call site to the model; true if the log covers it. -/
def offer (m : LogModel) (site : Invoke) : Bool × LogModel :=
  match Api.classify site.target with
  | none => (false, m)
  | some api =>
    match m.matching site api with
    | [] => (false, m)
    | entries =>
      (true, { m with
        claims := m.claims ++ entries.map fun e =>
          { caller := site.container, site := site.id, api, target := e.target } })

/-- A covered call site does under a context what the log says. -/
def act (env : Setting) (m : LogModel) (context : ContextId) (c : Claim) : Service LogModel :=
  let site : QSite := ⟨context, c.site⟩
  let call := env.program.invoke c.site
  match c.api, c.target with
  | .forName, .cls className => do
    call.result.forM fun result => do
      let made ← Service.mock (classMeta (.cls className))
      Service.addVarObj context result ⟨emptyContext, made⟩
    return m
  | .classNewInstance, .cls className => do
    let made ← newInstance env m.made site (.cls className)
      (env.program.defaultConstructor? className) { api := .classNewInstance, args := none }
    return { m with made }
  | .constructorNewInstance, .method target => do
    let made ← newInstance env m.made site (env.program.method target).declaringType
      (some target) { api := .constructorNewInstance, args := call.args.head? }
    return { m with made }
  | .methodInvoke, .method target =>
    match call.args with
    | [] => do
      invokeMethod env site target .empty none
      return m
    | receiver :: rest => do
      let receivers ← Service.varPointsTo ⟨context, receiver⟩
      invokeMethod env site target receivers rest.head?
      return { m with receivers := m.receivers.register receiver (c.site, target) }
  | _, _ => return m

/-- A method is reachable under a context: its covered call sites act. -/
def reached (env : Setting) (m : LogModel) (method : QMethod) : Service LogModel :=
  (m.claims.filter fun c => c.caller = method.item).foldlM
    (fun m c => act env m method.context c) m

/-- A receiver of logged invocations may refer to further objects. -/
def grown (env : Setting) (m : LogModel) (v : QVar) (delta : ObjSet) : Service Unit :=
  (m.receivers.get v.item).forM fun (site, target) =>
    invokeMethod env ⟨v.context, site⟩ target delta (env.program.invoke site).args[1]?

end LogModel

end PointsTo.Reflection
