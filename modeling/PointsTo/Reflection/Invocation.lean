import PointsTo.MockTable
import PointsTo.Reflection.Meta
import PointsTo.Waitlist

/-!
# Reflective allocation and invocation

What the reflective calls do once it is known which class, constructor or method
they are about.
-/

namespace PointsTo.Reflection

/-- The call sites that have to be looked at when a variable may refer to more,
with what they want to know. -/
abbrev RelevantVars (τ : Type) := Waitlist VarId (InvokeId × τ)

/-- What a variable refers to as far as a change concerns it: only the new
objects of the changed variable, everything of any other. -/
def seenIn (changed : QVar) (delta : ObjSet) (v : VarId) : Service ObjSet :=
  if v = changed.item then pure delta else Service.varPointsTo ⟨changed.context, v⟩

/-- Make an object of a type at a call site and run a constructor on it, if there
is one. -/
def newInstance (env : Setting) (made : MockTable) (site : QSite) (type : JavaType)
    (constructor? : Option MethodId) (call : ReflectiveCall) : Service MockTable := do
  let invoke := env.program.invoke site.item
  let (o, made) ← made.getOrCreate (.invoke site.item) type (some invoke.container)
  let heapContext ← Service.heapContext ⟨site.context, invoke.container⟩
  let object : QObj := ⟨heapContext, o⟩
  invoke.result.forM fun result => Service.addVarObj site.context result object
  match constructor? with
  | none => return made
  | some m => do
    let context ← Service.callContext site (some object)
    (env.program.method m).receiver.forM fun this => Service.addVarObj context this object
    Service.addCall ⟨site, ⟨context, m⟩, .reflective call⟩
    return made

/-- The method that a reflective call of {lit}`target` runs on an object of a type.
Methods that dispatch does not find, such as private ones, run as they are. -/
def invokedOn? (p : Program) (target : MethodId) (type : JavaType) : Option MethodId :=
  let method := p.method target
  if p.isSubtype type method.declaringType then
    p.concrete? (some ((p.dispatch? type method.ref).getD target))
  else none

/-- Invoke a method: at once if it is static, else on every receiver that has the
right type.  Constructors cannot be invoked. -/
def invokeMethod (env : Setting) (site : QSite) (target : MethodId) (receivers : ObjSet)
    (args : Option VarId) : Service Unit :=
  let call : ReflectiveCall := { api := .methodInvoke, args }
  let method := env.program.method target
  if method.isConstructor then pure ()
  else if method.isStatic then do
    let context ← Service.callContext site none
    Service.addCall ⟨site, ⟨context, target⟩, .reflective call⟩
  else
    receivers.toList.forM fun o => do
      let obj ← Service.obj o.item
      match invokedOn? env.program target obj.type with
      | none => pure ()
      | some m => do
        let context ← Service.callContext site (some o)
        (env.program.method m).receiver.forM fun this => Service.addVarObj context this o
        Service.addCall ⟨site, ⟨context, m⟩, .reflective call⟩

end PointsTo.Reflection
