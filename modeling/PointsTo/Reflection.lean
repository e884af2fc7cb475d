import PointsTo.Options.Preset
import PointsTo.Plugin
import PointsTo.Reflection.ActionModel
import PointsTo.Reflection.ClassModel
import PointsTo.Reflection.LogModel
import PointsTo.Reflection.StringModel
import PointsTo.Solver.Rules

/-!
# Reflection

The plugin that resolves reflective calls.  Call sites are offered to the log
first, if there is one; those that it does not cover are offered to all models.
The arguments of a reflective call come in an array, whose elements flow to the
parameters of the method that is run, as far as their types allow.

Main definitions:

- {lit}`Reflection.State.new`: the models that options ask for.
- {lit}`Reflection.arrayEdges`: the flow from an array of arguments.
- {lit}`Reflection.plugin`: the plugin.
-/

namespace PointsTo.Reflection

/-- What the plugin remembers. -/
structure State where
  log : Option LogModel := none
  classes : ClassModel := {}
  strings : Option StringModel := none
  actions : ActionModel := {}
  /-- Argument arrays of reflective calls, with the methods that are run. -/
  argArrays : Waitlist QVar QMethod := .empty
  /-- Arrays whose elements flow to the parameters of a method already. -/
  forwarded : OrderedSet (QObj × QMethod) := .empty

/-- The content of the files that a run can read. -/
abbrev Files := String → Option String

/-- The log that options name, read from its file. -/
def readLog (o : Options) (p : Program) (files : Files) : Except Error (Option LogModel) :=
  match o.reflectionLog with
  | none => .ok none
  | some path =>
    match files path with
    | none => .error .unreadable
    | some content => (LogModel.ofLog p content).map some

/-- The models that options ask for, once the options are found valid. -/
def State.new (o : Options) (p : Program) (files : Files) : Except Error State := do
  o.validate.mapError .config
  let log ← readLog o p files
  match ← o.inference.mapError .config with
  | .disabled => return { log }
  | .stringConstant => return { log, strings := some {} }

/-! ## Offering call sites -/

/-- Offer a call site to all models but the log. -/
def State.offerModels (st : State) (site : Invoke) : State :=
  { st with
    classes := (st.classes.offer site).2
    strings := st.strings.map fun m => (m.offer site).2
    actions := (st.actions.offer site).2 }

/-- Offer a call site to the log, and to the other models if it is not covered. -/
def State.offer (st : State) (site : Invoke) : State :=
  match st.log with
  | none => st.offerModels site
  | some log =>
    match log.offer site with
    | (true, log) => { st with log := some log }
    | (false, log) => { st with log := some log }.offerModels site

/-! ## Arguments and results -/

/-- The elements of an array flow to the parameters that hold references. -/
def arrayEdges (callee : Method) (array : QObj) (target : ContextId) : List FlowEdge :=
  (callee.typedParams.filter fun (_, type) => type.isReference).map fun (param, type) =>
    ⟨.array array, varPointer target param, .parameterPassing, some type⟩

/-- The elements of each array among some objects flow to the parameters of a
method, once. -/
def forwardArrays (env : Setting) (forwarded : OrderedSet (QObj × QMethod)) (objects : ObjSet)
    (callee : QMethod) : Service (OrderedSet (QObj × QMethod)) :=
  objects.toList.foldlM (fun forwarded o => do
    let obj ← Service.obj o.item
    if obj.type.isArray = true ∧ ¬ (o, callee) ∈ forwarded then
      Service.addFlows (arrayEdges (env.program.method callee.item) o callee.context)
      return forwarded.insert (o, callee)
    else return forwarded) forwarded

/-- A reflective edge: the elements of its argument array flow to the parameters,
now and whenever there are more arrays. -/
def passArguments (env : Setting) (st : State) (e : CallEdge) (call : ReflectiveCall) :
    Service State :=
  match call.args with
  | none => pure st
  | some args =>
    let v : QVar := ⟨e.site.context, args⟩
    if st.argArrays.isRegistered v e.callee then pure st
    else do
      let objects ← Service.varPointsTo v
      let forwarded ← forwardArrays env st.forwarded objects e.callee
      return { st with argArrays := st.argArrays.register v e.callee, forwarded }

/-- A reflective edge: references that the method returns flow to the result. -/
def resultEdges (p : Program) (e : CallEdge) : List FlowEdge :=
  let callee := p.method e.callee.item
  if callee.ret.isReference then
    returnEdges (p.invoke e.site.item).result callee e.site.context e.callee.context
  else []

/-- An argument array may be further arrays: their elements flow to the
parameters of all methods that wait on it. -/
def wakeArguments (env : Setting) (st : State) (v : QVar) : Service State :=
  match st.argArrays.get v with
  | [] => pure st
  | callees => do
    let objects ← Service.varPointsTo v
    let forwarded ← callees.foldlM
      (fun forwarded callee => forwardArrays env forwarded objects callee) st.forwarded
    return { st with forwarded }

/-! ## The plugin -/

/-- The log and then the models look at what is new to a variable. -/
def grown (env : Setting) (st : State) (v : QVar) (delta : ObjSet) : Service State := do
  st.log.forM fun m => m.grown env v delta
  st.classes.grown env v delta
  st.strings.forM fun m => m.grown env v delta
  let actions ← st.actions.grown env v delta
  return { st with actions }

def react (env : Setting) (e : Event) (st : State) : Service State :=
  match e with
  | .method m => return (env.program.invokesIn m).foldl State.offer st
  | .methodIn m =>
    match st.log with
    | none => return st
    | some log => do
      let log ← log.reached env m
      return { st with log := some log }
  | .edge e =>
    match e.kind with
    | .reflective call => do
      let st ← passArguments env st e call
      Service.addFlows (resultEdges env.program e)
      return st
    | _ => return st
  | .grown v delta => do
    let st ← wakeArguments env st v
    grown env st v delta
  | .start | .finish | .unresolved .. => return st

/-- The plugin that resolves reflective calls. -/
def plugin : Plugin State where
  name := fun _ => "reflection"
  react := react

end PointsTo.Reflection
