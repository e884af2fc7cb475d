import PointsTo.Program
import PointsTo.Reflection.Invocation

/-!
# Reflective actions

The calls that do something: make an object of a class, run a constructor, invoke
a method.
-/

namespace PointsTo.Reflection

/-- The call sites of a run that act on meta objects, and the objects made. -/
structure ActionModel where
  relevant : RelevantVars Api := .empty
  made : MockTable := .new .reflective

namespace ActionModel

def name : String := "action"

/-- Offer a call site to the model; true if it takes it. -/
def offer (m : ActionModel) (site : Invoke) : Bool × ActionModel :=
  match Api.classify site.target, site.base with
  | some .classNewInstance, some base =>
    (true, { m with relevant := m.relevant.register base (site.id, .classNewInstance) })
  | some .constructorNewInstance, some base =>
    (true, { m with relevant := m.relevant.register base (site.id, .constructorNewInstance) })
  | some .methodInvoke, some base =>
    let relevant := m.relevant.register base (site.id, .methodInvoke)
    let relevant :=
      match site.args with
      | receiver :: _ => relevant.register receiver (site.id, .methodInvoke)
      | [] => relevant
    (true, { m with relevant })
  | _, _ => (false, m)

/-- Objects of declared classes are made and their constructor without
parameters is run. -/
def makeOfClass (env : Setting) (made : MockTable) (site : QSite) (metas : ObjSet) :
    Service MockTable :=
  metas.toList.foldlM (fun made o => do
    let obj ← Service.obj o.item
    match (denotedClass? obj).filter env.program.hasClass with
    | none => return made
    | some c =>
      newInstance env made site (.cls c) (env.program.defaultConstructor? c)
        { api := .classNewInstance, args := none }) made

/-- Objects are made by given constructors. -/
def makeByConstructor (env : Setting) (made : MockTable) (site : QSite) (metas : ObjSet) :
    Service MockTable :=
  metas.toList.foldlM (fun made o => do
    let obj ← Service.obj o.item
    match denotedConstructor? obj with
    | none => return made
    | some m =>
      newInstance env made site (env.program.method m).declaringType (some m)
        { api := .constructorNewInstance
          args := (env.program.invoke site.item).args.head? }) made

/-- The meta objects and receivers to pair when {lit}`v` has changed. -/
def pairs (v : QVar) (delta : ObjSet) (base : VarId) (receiver : Option VarId) :
    Service (ObjSet × ObjSet) :=
  match receiver with
  | none => do return (← seenIn v delta base, .empty)
  | some r =>
    -- a variable that is both pairs old meta objects with new receivers
    if r = base then do
      let all ← Service.varPointsTo v
      return (all, all)
    else do
      let metas ← seenIn v delta base
      let receivers ← seenIn v delta r
      return (metas, receivers)

/-- Methods are invoked on receivers. -/
def invokeAll (env : Setting) (v : QVar) (delta : ObjSet) (call : Invoke) : Service Unit :=
  match call.base with
  | none => pure ()
  | some base => do
    let (metas, receivers) ← pairs v delta base call.args.head?
    metas.toList.forM fun o => do
      let obj ← Service.obj o.item
      (denotedMethod? obj).forM fun m =>
        invokeMethod env ⟨v.context, call.id⟩ m receivers call.args[1]?

/-- A meta object or a receiver of some calls may refer to further objects. -/
def grown (env : Setting) (m : ActionModel) (v : QVar) (delta : ObjSet) :
    Service ActionModel := do
  let made ← (m.relevant.get v.item).foldlM (fun made (site, api) =>
    match api with
    | .classNewInstance => makeOfClass env made ⟨v.context, site⟩ delta
    | .constructorNewInstance => makeByConstructor env made ⟨v.context, site⟩ delta
    | _ => do
      invokeAll env v delta (env.program.invoke site)
      return made) m.made
  return { m with made }

end ActionModel

end PointsTo.Reflection
