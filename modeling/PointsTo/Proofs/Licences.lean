import PointsTo.Proofs.IntermediateStates
import PointsTo.Proofs.Listings
import PointsTo.Proofs.Precedence

/-!
# What allows a call edge

Call edges come from the rules of the analysis, from lambdas and from reflection, and each of these
looks for the method that a call runs in its own way.  A licence says how a method was found.  It
speaks of a later state of the run, in which what was made or asked for along the way can be seen.

Main results:

- {lit}`Reflection.Licence`: how a reflective call comes to run a method.
- {lit}`CallEdge.Licensed`: how an edge comes to be; {lit}`Solver.Licensed`: all edges are licensed,
  and the meta objects of constructors denote constructors.
- Theorem {lit}`Service.upholds_of_licensed`: this is upheld as long as plugins ask only for what is
  licensed.
- Theorems {lit}`Reflection.Instantiating.licensed`, {lit}`Reflection.Invoking.licensed`: reflective
  allocation and invocation ask only for that.
-/

namespace PointsTo

open Reflection

/-! ## Licences -/

/-- By reflection an object of a type was made at a call, and it reaches the result. -/
def Solver.MadeAt (T : Solver) (p : Program) (site : QSite) (type : JavaType) : Prop :=
  ∃ (o : QObj) (container : Option MethodId),
    T.heap.get? o.item = some ⟨.mock .reflective (.invoke site.item), type, container⟩ ∧
      ∀ result ∈ (p.invoke site.item).result, T.Owes (varPointer site.context result) o

namespace Reflection

/-- The log asks a call to run a method. -/
def Reported (p : Program) (log : Option LogModel) (site : InvokeId) (api : Api) (m : MethodId) :
    Prop :=
  ∃ l ∈ log, ∃ claim ∈ l.asked (p.invoke site), claim.api = api ∧ claim.target = .method m

/-- How a reflective call comes to run a method.  The state is a later one of the run. -/
inductive Licence (p : Program) (log : Option LogModel) (T : Solver) (site : QSite)
    (callee : MethodId) : ReflectiveApi → Prop
  /-- The constructor without parameters is run on an object of its class. -/
  | ofClass {c} (hsite : Api.classify (p.invoke site.item).target = some .classNewInstance)
      (hcallee : p.defaultConstructor? c = some callee) (hmade : T.MadeAt p site (.cls c)) :
      Licence p log T site callee .classNewInstance
  /-- A constructor is run on an object of its class; what a log calls one need not be one. -/
  | byConstructor
      (hsite : Api.classify (p.invoke site.item).target = some .constructorNewInstance)
      (hcallee : (p.method callee).isConstructor = true ∨
        Reported p log site.item .constructorNewInstance callee)
      (hmade : T.MadeAt p site (p.method callee).declaringType) :
      Licence p log T site callee .constructorNewInstance
  /-- A static method is invoked as it is. -/
  | static (hsite : Api.classify (p.invoke site.item).target = some .methodInvoke)
      (hno : (p.method callee).isConstructor = false)
      (hstatic : (p.method callee).isStatic = true) :
      Licence p log T site callee .methodInvoke
  /-- Another method is invoked on an object that has a type. -/
  | onReceiver {target type}
      (hsite : Api.classify (p.invoke site.item).target = some .methodInvoke)
      (hno : (p.method target).isConstructor = false)
      (hcallee : invokedOn? p target type = some callee) :
      Licence p log T site callee .methodInvoke

end Reflection

/-- The handle of a lambda that is run as it is names the method. -/
def Lambda.Names (p : Program) (m : MethodId) : Prop :=
  ∃ maker d handle, (p.invoke maker).dynamic = some d ∧
    d.handle? Lambda.implIndex = some handle ∧
    (handle.kind = .invokeStatic ∨ handle.kind = .newInvokeSpecial) ∧
    p.resolve? handle.target = some m

/-- How a call edge comes to be. -/
inductive CallEdge.Licensed (p : Program) (log : Option LogModel) (T : Solver) (e : CallEdge) : Prop
  | ordinary (hk : e.kind.isOrdinary = true) (h : (p.method e.callee.item).isAbstract = false)
  | pending {call} (hk : e.kind = .lambda call) (h : (p.method e.callee.item).isAbstract = false)
  | handle {call} (hk : e.kind = .lambda call) (h : Lambda.Names p e.callee.item)
  | reflective {call} (hk : e.kind = .reflective call)
      (h : Licence p log T e.site e.callee.item call.api)

/-- If an object denotes a constructor, it denotes a method that is one. -/
def Reflection.Proper (p : Program) (x : Obj) : Prop :=
  ∀ m, denotedConstructor? x = some m → (p.method m).isConstructor = true

/-- Stand-ins of other kinds denote no constructors. -/
theorem Reflection.proper_of_kind {p : Program} {x : MockObj} (h : x.kind ≠ .constructorMeta) :
    Proper p x.obj := by
  intro m hm
  have hkind := denotedConstructor?_eq_some.1 hm
  simp only [MockObj.obj, ObjKind.mock.injEq] at hkind
  exact absurd hkind.1 h

/-- All edges are licensed, and the meta objects of constructors denote constructors. -/
structure Solver.Licensed (p : Program) (log : Option LogModel) (s T : Solver) : Prop where
  objects : ∀ {i x}, s.heap.get? i = some x → Proper p x
  edges : ∀ {e}, s.Announces e → e.Licensed p log T

/-- What an addition brings is licensed. -/
def Addition.Licensed (p : Program) (log : Option LogModel) (T : Solver) : Addition → Prop
  | .object x => Proper p x
  | .enter _ _ e | .call e => e.Licensed p log T
  | .context _ | .points .. | .flow _ | .note _ => True

variable {env : Setting} {p : Program} {log : Option LogModel} {T s t : Solver}

namespace Solver.Licensed

/-- A state without facts needs no licence. -/
theorem new : Solver.Licensed p log {} T where
  objects := fun h => by simp [Interned.get?, OrderedSet.get?, Interned.empty] at h
  edges := by
    rintro e (h | h)
    · exact absurd h (OrderedSet.not_mem_empty e)
    · exact absurd h List.not_mem_nil

/-- Also an id outside the heap stands for an object that denotes no constructor. -/
theorem get (h : s.Licensed p log T) (i : ObjId) : Proper p (s.heap.get i) := by
  unfold Heap.get
  cases hi : s.heap.get? i with
  | none => exact fun m hm => by cases hm
  | some x => exact h.objects hi

/-- A licensed addition keeps all edges licensed. -/
theorem of_adds {a : Addition} (h : s.Licensed p log T) (ha : a.Licensed p log T)
    (hadd : s.Adds p a t) : t.Licensed p log T where
  objects := by
    intro i x hi
    rcases hadd.heap_cases hi with hi | rfl
    · exact h.objects hi
    · exact ha
  edges := by
    intro e he
    rcases hadd.announces_cases he with he | hnew
    · exact h.edges he
    · cases a with
      | enter receiver o e' =>
          obtain rfl := hnew
          exact ha
      | call e' =>
          obtain rfl := hnew
          exact ha
      | object | context | points | flow | note => exact hnew.elim

end Solver.Licensed

/-! ## The rules of the analysis -/

/-- Static calls lead to methods with a body. -/
theorem isAbstract_of_staticTarget? {call : Invoke} {m : MethodId}
    (h : staticTarget? p call = some m) : (p.method m).isAbstract = false := by
  unfold staticTarget? at h
  split at h
  · exact (Program.concrete?_eq_some h).2
  · cases h

/-- The rules of the analysis lead to methods with a body. -/
theorem CoreRule.licensed {a : Addition} (h : CoreRule env s a) :
    a.Licensed env.program log T := by
  cases h with
  | @object m index stmt lhs o onHeap _ ho =>
      intro i hi
      cases stmt with
      | new => cases ho; cases hi
      | literal lhs value => cases value <;> cases ho <;> cases hi
      | _ => cases ho
  | static _ ht _ => exact .ordinary rfl (isAbstract_of_staticTarget? ht)
  | enter hd _ =>
      exact .ordinary (CallKind.isOrdinary_of_ofInvoke? hd.kind)
        (Program.concrete?_eq_some hd.target).2
  | heapContext | assign | flow | staticContext | access | callContext | wiring => trivial

/-! ## Conversations -/

/-- What is asked for is licensed. -/
def Request.Licensed (p : Program) (log : Option LogModel) (T : Solver) : Request → Prop
  | .mock x => Proper p x.obj
  | .addCall e => e.Licensed p log T
  | .callContext .. | .heapContext _ | .obj _ | .pointsTo _ | .addPointsTo .. | .addFlow _
  | .note _ => True

/-- What may be relied on of an answer: what was made or added is there in the later state. -/
def Request.Lasts (p : Program) (T : Solver) : (r : Request) → r.Answer → Prop
  | .mock x, i => T.heap.get? i = some x.obj
  | .obj _, x => Proper p x
  | .addPointsTo ptr os, _ => ∀ o ∈ os, T.Owes ptr o
  | .callContext .., _ | .heapContext _, _ | .pointsTo _, _ | .addFlow _, _ | .addCall _, _
  | .note _, _ => True

/-- A conversation asks only for what is licensed. -/
abbrev Service.Licensed (p : Program) (log : Option LogModel) (T : Solver) {α : Type}
    (Q : α → Prop) : Service α → Prop :=
  Service.Asks (Request.Licensed p log T) (Request.Lasts p T) Q

/-- What is licensed may be asked for, and what is made or added lasts. -/
theorem Request.Licensed.answer_ok {r : Request} {answer : r.Answer}
    (hr : r.Licensed env.program log T) (hs : s.Licensed env.program log T)
    (h : r.answer env s = .ok answer t) (hT : t.Extends T) :
    t.Licensed env.program log T ∧ r.Lasts env.program T answer := by
  cases r with
  | mock x =>
      obtain ⟨hadd, hget⟩ := SolverM.internObj_ok env h
      exact ⟨hs.of_adds (a := .object x.obj) hr hadd, hT.settled.heap _ _ hget⟩
  | callContext site receiver =>
      obtain ⟨contexts, rfl, hc⟩ := SolverM.callContext_ok h
      exact ⟨⟨hs.objects, hs.edges⟩, trivial⟩
  | heapContext m =>
      obtain ⟨contexts, rfl, hc⟩ := SolverM.heapContext_ok h
      exact ⟨⟨hs.objects, hs.edges⟩, trivial⟩
  | obj i =>
      simp only [Request.answer, bind_eq_ok, get_eq_ok, pure_eq_ok] at h
      obtain ⟨_, _, ⟨rfl, rfl⟩, rfl, rfl⟩ := h
      exact ⟨hs, hs.get i⟩
  | pointsTo ptr =>
      simp only [Request.answer, bind_eq_ok, get_eq_ok, pure_eq_ok] at h
      obtain ⟨_, _, ⟨rfl, rfl⟩, rfl, rfl⟩ := h
      exact ⟨hs, trivial⟩
  | addPointsTo ptr os =>
      obtain rfl := modify_eq_ok.1 h
      exact ⟨hs.of_adds (p := env.program) (a := .points ptr os) trivial rfl,
        fun o ho => hT.expected.points (Solver.owes_addPointsTo s ptr ho)⟩
  | addFlow e =>
      exact ⟨hs.of_adds (a := .flow e) trivial (modify_eq_ok.1 h), trivial⟩
  | addCall e => exact ⟨hs.of_adds (p := env.program) (a := .call e) hr (modify_eq_ok.1 h), trivial⟩
  | note line =>
      exact ⟨hs.of_adds (p := env.program) (a := .note line) trivial (modify_eq_ok.1 h), trivial⟩

/-- Plugins that ask only for what is licensed uphold that all edges are. -/
theorem Service.upholds_of_licensed {σ : Type} {P : Plugin σ} {entries : List MethodId}
    {K : σ → Prop}
    (hP : ∀ {s e p}, e.Holds env s → K p →
      (P.react env e p).Asks (Request.Licensed env.program log T) (Request.Lasts env.program T) K) :
    P.Upholds env entries T (fun s => s.Licensed env.program log T) K
      (Request.Licensed env.program log T) (Request.Lasts env.program T) where
  enter := fun hs _ => ⟨hs.objects, fun he => hs.edges (he.imp_left (by simp))⟩
  take := by
    refine fun hs hq => ⟨fun hi => ?_, fun he => hs.edges (Solver.announces_of_take hq he)⟩
    rw [Solver.heap_take] at hi
    exact hs.objects hi
  rule := fun hs hr hadd _ => hs.of_adds hr.licensed hadd
  react := fun _ _ he hp => hP he hp
  answer := fun hs hr h hT => hr.answer_ok hs h hT

/-! ### Requests that are licensed -/

section Requests

variable {A : (r : Request) → r.Answer → Prop} {r : Request} {site : QSite}

/-- A method may be run by licensed edges. -/
theorem Request.Runs.licensed {receiver : Option QObj} {m : MethodId} {kind : CallKind}
    (hr : Request.Runs A site receiver m kind r)
    (h : ∀ c, CallEdge.Licensed p log T ⟨site, ⟨c, m⟩, kind⟩) : r.Licensed p log T := by
  cases hr with
  | context => trivial
  | edge => exact h _

/-- A method may be run on an object by licensed edges. -/
theorem Request.RunsOn.licensed {o : QObj} {m : MethodId} {kind : CallKind}
    (hr : Request.RunsOn p A site o m kind r)
    (h : ∀ c, CallEdge.Licensed p log T ⟨site, ⟨c, m⟩, kind⟩) : r.Licensed p log T := by
  cases hr with
  | run hr => exact hr.licensed h
  | receiver => trivial

end Requests

/-! ## Reflective allocation and invocation -/

/-- The entries of a table of reflective objects are such objects. -/
structure MockTable.Reflects (T : Solver) (table : MockTable) : Prop where
  kind : table.kind = .reflective
  entries : ∀ x ∈ table.entries, ∃ container,
    T.heap.get? x.2 = some ⟨.mock .reflective x.1.1, x.1.2, container⟩

namespace MockTable

/-- A new table has nothing to reflect. -/
theorem reflects_new : (MockTable.new .reflective).Reflects T :=
  ⟨rfl, fun _ h => absurd h List.not_mem_nil⟩

variable {W : InvokeId → Prop} {table table' : MockTable} {i : InvokeId} {type : JavaType}
  {o : ObjId}

/-- The answer to the request of such a table is a reflective object of the call and the type. -/
theorem Reflects.get?_wanted (h : table.Reflects T)
    (ho : Request.Lasts p T (.mock (table.wanted p i type)) o) : ∃ container,
      T.heap.get? o = some ⟨.mock .reflective (.invoke i), type, container⟩ := by
  simp only [Request.Lasts, wanted, MockObj.obj, h.kind] at ho
  exact ⟨_, ho⟩

/-- So is what it hands out. -/
theorem Reflects.hands (h : table.Reflects T)
    (ho : table.Hands p (Request.Lasts p T) i type o) : ∃ container,
      T.heap.get? o = some ⟨.mock .reflective (.invoke i), type, container⟩ :=
  ho.elim (h.entries _) h.get?_wanted

/-- A table that is filled goes on reflecting the heap. -/
theorem Reflects.of_fills (h : table.Reflects T)
    (hfills : table.Fills p (Request.Lasts p T) W table') : table'.Reflects T where
  kind := hfills.kind.trans h.kind
  entries := by
    rintro ⟨key, o⟩ hx
    rcases hfills.entries _ hx with hx | ⟨i, type, _, rfl, ho⟩
    · exact h.entries _ hx
    · exact h.get?_wanted ho

end MockTable

namespace Reflection

variable {r : Request} {site : QSite}

/-- An object may be made, and a constructor run on it that has a licence once it is made. -/
theorem Instantiating.licensed {table : MockTable} {type : JavaType}
    {constructor? : Option MethodId} {call : ReflectiveCall}
    (hr : Instantiating p (Request.Lasts p T) table site type constructor? call r)
    (htable : table.Reflects T)
    (hcallee : ∀ m ∈ constructor?, T.MadeAt p site type → Licence p log T site m call.api) :
    r.Licensed p log T := by
  cases hr with
  | make => exact proper_of_kind (by simp [MockTable.wanted, htable.kind])
  | heapContext | result => trivial
  | @run i h m _ hi _ hresult hm hr =>
      obtain ⟨container, ho⟩ := htable.hands hi
      refine hr.licensed fun c => .reflective rfl (hcallee m hm ⟨⟨h, i⟩, container, ho, ?_⟩)
      exact fun w hw => hresult w hw _ (OrderedSet.mem_singleton.2 rfl)

/-- Methods may be invoked at calls that are to do so. -/
theorem Invoking.licensed {A : (r : Request) → r.Answer → Prop} {target : MethodId}
    {O : QObj → Prop} {args : Option VarId} (hr : Invoking p A site target O args r)
    (hsite : Api.classify (p.invoke site.item).target = some .methodInvoke) :
    r.Licensed p log T := by
  cases hr with
  | static hno hstatic hr => exact hr.licensed fun c => .reflective rfl (.static hsite hno hstatic)
  | look => trivial
  | run hno _ _ _ hm hr => exact hr.licensed fun c => .reflective rfl (.onReceiver hsite hno hm)

end Reflection

end PointsTo
