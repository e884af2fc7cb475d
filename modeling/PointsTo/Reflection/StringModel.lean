import PointsTo.Program
import PointsTo.Reflection.Invocation

/-!
# Classes and methods named by string constants

A class is looked up by a name, and a method by a name in a class.  Where the name
is a string constant the result is known.
-/

namespace PointsTo.Reflection

/-- The call sites of a run that look classes and methods up by name. -/
structure StringModel where
  relevant : RelevantVars Api := .empty

namespace StringModel

def name : String := "string-constant"

/-- Offer a call site to the model; true if it takes it. -/
def offer (m : StringModel) (site : Invoke) : Bool × StringModel :=
  match Api.classify site.target, site.base, site.args with
  | some .forName, _, n :: _ => (true, ⟨m.relevant.register n (site.id, .forName)⟩)
  | some .loadClass, _, n :: _ => (true, ⟨m.relevant.register n (site.id, .loadClass)⟩)
  | some .getMethod, some base, n :: _ =>
    (true, ⟨(m.relevant.register base (site.id, .getMethod)).register n (site.id, .getMethod)⟩)
  | some .getDeclaredMethod, some base, n :: _ =>
    (true, ⟨(m.relevant.register base (site.id, .getDeclaredMethod)).register n
      (site.id, .getDeclaredMethod)⟩)
  | _, _, _ => (false, m)

/-- Every declared class that is named yields its meta object. -/
def lookUpClass (env : Setting) (v : QVar) (site : InvokeId) (names : ObjSet) : Service Unit :=
  (env.program.invoke site).result.forM fun result =>
    names.toList.forM fun n => do
      let constant ← Service.obj n.item
      match constant.string?.filter env.program.hasClass with
      | none => pure ()
      | some className => do
        let made ← Service.mock (classMeta (.cls className))
        Service.addVarObj v.context result ⟨emptyContext, made⟩

/-- The methods that a call finds by name in a class: public ones, inherited or
not, or all that the class declares itself. -/
def methodsFor (p : Program) (api : Api) (className name : String) : List MethodId :=
  p.methodsNamed className name (decide (api = .getMethod)) (decide (api = .getMethod))

/-- Every method that is named in a class yields its meta object. -/
def lookUpMethod (env : Setting) (v : QVar) (delta : ObjSet) (site : InvokeId) (api : Api) :
    Service Unit :=
  let call := env.program.invoke site
  match call.base, call.args, call.result with
  | some base, n :: _, some result => do
    -- a variable that is both class and name pairs old classes with new names
    let classes ←
      if base = v.item ∧ n = v.item then Service.varPointsTo v else seenIn v delta base
    let names ← seenIn v delta n
    classes.toList.forM fun c => do
      let classObj ← Service.obj c.item
      (denotedClass? classObj).forM fun className =>
        names.toList.forM fun o => do
          let constant ← Service.obj o.item
          constant.string?.forM fun methodName =>
            (methodsFor env.program api className methodName).forM fun m => do
              let made ← Service.mock (methodMeta m)
              Service.addVarObj v.context result ⟨emptyContext, made⟩
  | _, _, _ => pure ()

/-- A class or a name of some calls may refer to further objects. -/
def grown (env : Setting) (m : StringModel) (v : QVar) (delta : ObjSet) : Service Unit :=
  (m.relevant.get v.item).forM fun (site, api) =>
    match api with
    | .forName | .loadClass => lookUpClass env v site delta
    | _ => lookUpMethod env v delta site api

end StringModel

end PointsTo.Reflection
