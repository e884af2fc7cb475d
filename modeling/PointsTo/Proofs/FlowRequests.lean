import PointsTo.Proofs.LambdaRequests
import PointsTo.Proofs.ReflectionRequests

/-!
# Where plugins ask for flow, and for which calls

Of all that the provided plugins do, only two things add edges to the flow graph: the wiring of a
call edge, and the forwarding of arguments that come in arrays.  Whatever else they do leaves the
flow graph as it is.  And each of them asks only for call edges of its own kind.

Main results:

- {lit}`Service.Flowless`: the conversation asks for no flow, and for calls of certain kinds only;
  theorem {lit}`Service.Flowless.flow_eq`: it leaves the flow graph alone.
- Theorem {lit}`Service.mem_flow_of_addFlows`: the flow that is asked for is added, and no other.
- Theorem {lit}`Lambda.flowless_react`: the plugin for lambdas asks for flow only when it is told of
  a lambda edge.
- Theorem {lit}`Reflection.flowless_grown` and its like: the models of the plugin for reflection
  ask for no flow.
-/

namespace PointsTo

/-- The kind of the edges that the plugin for lambdas asks for. -/
def CallKind.IsLambda (k : CallKind) : Prop := ∃ call, k = .lambda call

/-- The kind of the edges that the plugin for reflection asks for. -/
def CallKind.IsReflective (k : CallKind) : Prop := ∃ call, k = .reflective call

/-- No flow is asked for, and no call but one of certain kinds. -/
def Request.Flowless (K : CallKind → Prop) : Request → Prop
  | .addFlow _ => False
  | .addCall e => K e.kind
  | .mock _ | .callContext .. | .heapContext _ | .obj _ | .pointsTo _ | .addPointsTo .. | .note _ =>
      True

namespace Service

variable {env : Setting} {α : Type} {K : CallKind → Prop}

/-- The conversation asks for no flow and for calls of certain kinds only, whatever it is
answered. -/
def Flowless (K : CallKind → Prop) (x : Service α) : Prop :=
  x.Asks (Request.Flowless K) (fun _ _ => True) Any

/-- A conversation that asks for no flow leaves the flow as it is. -/
theorem Flowless.flow_eq {x : Service α} (hx : x.Flowless K) {a : α} {s t : Solver}
    (h : x.run env s = .ok a t) : t.flow = s.flow := by
  refine (hx.run_ok (I := fun u => u.flow = s.flow) ?_ rfl h).1
  intro r answer u v hr hu hanswer
  refine ⟨?_, trivial⟩
  cases r with
  | addFlow e => exact hr.elim
  | mock x =>
      obtain ⟨⟨heap, _, _, rfl⟩, _⟩ := SolverM.internObj_ok env hanswer
      exact hu
  | callContext site receiver =>
      obtain ⟨_, rfl, _⟩ := SolverM.callContext_ok hanswer
      exact hu
  | heapContext method =>
      obtain ⟨_, rfl, _⟩ := SolverM.heapContext_ok hanswer
      exact hu
  | obj | pointsTo =>
      simp only [Request.answer, bind_eq_ok, get_eq_ok, pure_eq_ok] at hanswer
      obtain ⟨_, _, ⟨rfl, rfl⟩, _, rfl⟩ := hanswer
      exact hu
  | addPointsTo ptr os =>
      obtain rfl := modify_eq_ok.1 hanswer
      unfold Solver.addPointsTo
      split <;> exact hu
  | addCall | note =>
      obtain rfl := modify_eq_ok.1 hanswer
      exact hu

/-! ## Flow that is asked for -/

/-- The flow that a conversation asks for is added, and no other. -/
theorem mem_flow_of_addFlows {es : List FlowEdge} {f : FlowEdge} {x : Unit} {s t : Solver}
    (h : (addFlows es).run env s = .ok x t) :
    f ∈ t.flow.edges ↔ f ∈ s.flow.edges ∨ f ∈ es := by
  simp only [addFlows, run_forM, run_addFlow] at h
  induction es generalizing s with
  | nil =>
      obtain ⟨_, rfl⟩ := pure_eq_ok.1 h
      simp
  | cons e es ih =>
      obtain ⟨_, u, hfirst, hrest⟩ := bind_eq_ok.1 h
      have hu : u = s.addFlow env.program e := modify_eq_ok.1 hfirst
      have hadd : f ∈ (s.addFlow env.program e).flow.edges ↔ f ∈ s.flow.edges ∨ f = e := by
        unfold Solver.addFlow
        split
        · rename_i hknown
          refine (or_iff_left_of_imp ?_).symm
          rintro rfl
          exact of_decide_eq_true hknown
        · rw [Solver.forward, Solver.flow_addPointsTo]
          exact OrderedSet.mem_insert.trans or_comm
      rw [ih hrest, hu, hadd, List.mem_cons, or_assoc]

end Service

/-! ## What plugins ask for -/

open Service CallKind

variable {env : Setting} {p : Program} {A : (r : Request) → r.Answer → Prop} {K : CallKind → Prop}
  {r : Request}

namespace Request

/-- Running a method takes no flow, and a call of its kind. -/
theorem Runs.flowless {site : QSite} {receiver : Option QObj} {m : MethodId} {kind : CallKind}
    (hr : Runs A site receiver m kind r) (hkind : K kind) : r.Flowless K := by
  cases hr with
  | context => trivial
  | edge => exact hkind

/-- Running a method on an object asks for no flow. -/
theorem RunsOn.flowless {site : QSite} {o : QObj} {m : MethodId} {kind : CallKind}
    (hr : RunsOn p A site o m kind r) (hkind : K kind) : r.Flowless K := by
  cases hr with
  | run hr => exact hr.flowless hkind
  | receiver => trivial

end Request

namespace Lambda

variable {st : State}

/-- A call that is resolved is a lambda call. -/
theorem Resolving.flowless {v : QVar} {waiting : PendingCall}
    (hr : Resolving p A v waiting r) : r.Flowless IsLambda := by
  cases hr with
  | receivers | look => trivial
  | run _ _ _ _ hr => exact hr.flowless ⟨_, rfl⟩

/-- The method of a handle is run by lambda calls. -/
theorem Handling.flowless {maker : InvokeId} {site : QSite} {handle : MethodHandle}
    {call : LambdaCall} (hr : Handling env A st maker site handle call r) :
    r.Flowless IsLambda := by
  cases hr with
  | construct _ hr =>
      cases hr with
      | make | result => trivial
      | run _ _ hr => exact hr.flowless ⟨_, rfl⟩
  | static _ _ hr => exact hr.flowless ⟨_, rfl⟩
  | resolve _ _ hr => exact hr.flowless

/-- The plugin asks for flow only when it is told of a lambda edge. -/
theorem Asked.flowless {e : Event} (hr : Asked env A st e r)
    (h : ∀ edge call, e = .edge edge → edge.kind ≠ .lambda call) : r.Flowless IsLambda := by
  cases hr with
  | create | assign | look => trivial
  | handle _ hr => exact hr.flowless
  | wake _ hr => exact hr.flowless
  | wire hk => exact absurd hk (h _ _ rfl)

/-- The plugin for lambdas asks for flow only when it is told of a lambda edge. -/
theorem flowless_react {e : Event} (h : ∀ edge call, e = .edge edge → edge.kind ≠ .lambda call) :
    (react env e st).Flowless IsLambda :=
  (asks_react e).imp (fun _ hr => hr.flowless h) fun _ _ => trivial

end Lambda

namespace Reflection

variable {v : QVar} {delta : ObjSet}

/-- Objects are made without flow, and their constructors are run by reflective calls. -/
theorem Instantiating.flowless {table : MockTable} {site : QSite} {type : JavaType}
    {constructor? : Option MethodId} {call : ReflectiveCall}
    (hr : Instantiating p A table site type constructor? call r) : r.Flowless IsReflective := by
  cases hr with
  | make | heapContext | result => trivial
  | run _ _ _ _ hr => exact hr.flowless ⟨_, rfl⟩

/-- Methods are invoked without flow, by reflective calls. -/
theorem Invoking.flowless {site : QSite} {target : MethodId} {O : QObj → Prop}
    {args : Option VarId} (hr : Invoking p A site target O args r) : r.Flowless IsReflective := by
  cases hr with
  | static _ _ hr => exact hr.flowless ⟨_, rfl⟩
  | look => trivial
  | run _ _ _ _ _ hr => exact hr.flowless ⟨_, rfl⟩

/-- Handing on a meta object asks for no flow. -/
theorem Presenting.flowless {c : ContextId} {result : VarId} {x : MockObj}
    (hr : Presenting A c result x r) : r.Flowless K := by
  cases hr <;> trivial

/-- What a log says of a call is done without flow. -/
theorem LogModel.Acting.flowless {table : MockTable} {c : ContextId} {claim : Claim}
    (hr : Acting p A table c claim r) : r.Flowless IsReflective := by
  cases hr with
  | present _ _ _ hr => exact hr.flowless
  | ofClass _ _ hr => exact hr.flowless
  | byConstructor _ _ hr => exact hr.flowless
  | receivers => trivial
  | invoke _ _ hr => exact hr.flowless

/-- What the models make of new objects is done without flow. -/
theorem State.Asked.flowless {st : State} (hr : st.Asked p A v delta r) :
    r.Flowless IsReflective := by
  cases hr with
  | log _ hr =>
      obtain ⟨_, _, _, hr⟩ := hr
      exact hr.flowless
  | classes hr =>
      cases hr with
      | look => trivial
      | yield _ _ _ _ _ hr => exact hr.flowless
  | strings _ hr =>
      cases hr with
      | lookNew | read | look => trivial
      | cls _ _ _ _ _ hr => exact hr.flowless
      | method _ _ _ hr => exact hr.flowless
  | actions hr =>
      cases hr with
      | lookNew | readAll | read | look => trivial
      | make _ _ _ _ hr => exact hr.flowless
      | invoke _ _ _ _ _ _ hr => exact hr.flowless

/-- What a log says of a method is done without flow. -/
theorem flowless_reached (m : LogModel) (q : QMethod) : (m.reached env q).Flowless IsReflective :=
  (LogModel.asks_reached fun _ _ _ hr => hr.flowless).mono fun _ _ => trivial

/-- The plugin waits on the same arrays of arguments, and has forwarded the same ones. -/
structure State.SameArguments (st q : State) : Prop where
  argArrays : q.argArrays = st.argArrays
  forwarded : q.forwarded = st.forwarded

/-- What the models make of new objects is done without flow, and does not concern arguments. -/
theorem flowless_grown (st : State) : (grown env st v delta).Asks (Request.Flowless IsReflective)
    (fun _ _ => True) st.SameArguments := by
  refine (asks_grown fun _ hr => hr.flowless).mono ?_
  rintro _ ⟨_, _, rfl⟩
  exact ⟨rfl, rfl⟩

end Reflection

end PointsTo
