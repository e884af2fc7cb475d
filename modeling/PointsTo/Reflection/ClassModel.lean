import PointsTo.Program
import PointsTo.Reflection.Invocation

/-!
# Class objects and constructors

The calls that need no names: {lit}`getClass` yields the class object of whatever
its receiver refers to, and the two calls for constructors yield the constructors
of the class that their receiver denotes.
-/

namespace PointsTo.Reflection

/-- The call sites of a run that ask for classes and constructors. -/
structure ClassModel where
  relevant : RelevantVars Api := .empty

namespace ClassModel

def name : String := "class"

/-- Offer a call site to the model; true if it takes it. -/
def offer (m : ClassModel) (site : Invoke) : Bool × ClassModel :=
  match Api.classify site.target, site.base, site.result with
  | some api, some base, some _ =>
    if api ∈ [Api.getClass, .getConstructor, .getDeclaredConstructor] then
      (true, { m with relevant := m.relevant.register base (site.id, api) })
    else (false, m)
  | _, _, _ => (false, m)

/-- The constructors of a class that a call asks for. -/
def constructorsFor (p : Program) (api : Api) (className : String) : List MethodId :=
  (p.constructors className).filter fun c =>
    decide (api ≠ .getConstructor) || (p.method c).isPublic

/-- The meta objects that a call yields on a receiver. -/
def yields (p : Program) (api : Api) (receiver : Obj) : List MockObj :=
  match api with
  | .getClass => [classMeta receiver.type]
  | _ =>
    match denotedClass? receiver with
    | some c => (constructorsFor p api c).map constructorMeta
    | none => []

/-- Only meta objects of the class of the receiver and of constructors are yielded. -/
theorem of_mem_yields {p : Program} {api : Api} {receiver : Obj} {x : MockObj}
    (h : x ∈ yields p api receiver) : x = classMeta receiver.type ∨
      ∃ c, ∃ m ∈ p.constructors c, x = constructorMeta m := by
  unfold yields at h
  split at h
  · exact .inl (List.mem_singleton.1 h)
  · split at h
    · rename_i c _
      obtain ⟨m, hm, rfl⟩ := List.mem_map.1 h
      exact .inr ⟨c, m, (List.mem_filter.1 hm).1, rfl⟩
    · exact absurd h List.not_mem_nil

/-- The receiver of some calls may refer to further objects. -/
def grown (env : Setting) (m : ClassModel) (v : QVar) (delta : ObjSet) : Service Unit :=
  (m.relevant.get v.item).forM fun (site, api) =>
    (env.program.invoke site).result.forM fun result =>
      delta.toList.forM fun o => do
        let receiver ← Service.obj o.item
        let metas ← (yields env.program api receiver).mapM Service.mock
        metas.forM fun made => Service.addVarObj v.context result ⟨emptyContext, made⟩

end ClassModel

end PointsTo.Reflection
