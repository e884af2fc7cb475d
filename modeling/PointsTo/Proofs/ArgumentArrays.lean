import PointsTo.Proofs.EdgeKinds
import PointsTo.Proofs.Frames
import PointsTo.Proofs.LambdaWiring

/-!
# Arguments that come in arrays

The arguments of a reflective call come in an array.  Its elements flow to the parameters of the
method that is run, and nothing else in an analysis lets the elements of an array flow to a
parameter.

Main results:

- {lit}`Reflection.Spreads`: the flow from an argument array to the parameters of a callee.
- {lit}`FlowEdge.Spread`: elements of an array are passed to a parameter only for that reason;
  theorem {lit}`CoreRule.spread`: the rules of the analysis keep to that.
- Theorem {lit}`Reflection.State.Awaits.react`: so does the plugin for reflection.
- Theorem {lit}`Analysis.spread_of_arises`: in every state of a run there is no other such flow.
-/

namespace PointsTo

open Service Reflection

/-! ## Flow from arrays to parameters -/

/-- The elements of an array flow to a parameter of a method, because a reflective edge leads to the
method and the variable for its arguments refers to the array. -/
inductive Reflection.Spreads (p : Program) (T : Solver) : FlowEdge → Prop
  | intro {e call args o param type} (he : e ∈ T.calls.edges) (hk : e.kind = .reflective call)
      (hargs : call.args = some args) (ho : o ∈ T.pointsTo.get (varPointer e.site.context args))
      (harray : (T.heap.typeOf o.item).isArray = true)
      (hparam : (param, type) ∈ (p.method e.callee.item).typedParams)
      (href : type.isReference = true) :
      Spreads p T ⟨.array o, varPointer e.callee.context param, .parameterPassing, some type⟩

/-- If an edge passes the elements of an array to a parameter, it does so for a reflective edge. -/
def FlowEdge.Spread (p : Program) (T : Solver) (f : FlowEdge) : Prop :=
  f.kind = .parameterPassing → ∀ o, f.source = .array o → Spreads p T f

variable {env : Setting} {p : Program} {T s t : Solver} {f : FlowEdge}

/-- Flow other than by parameters is of no concern here. -/
theorem FlowEdge.spread_of_kind (h : f.kind ≠ .parameterPassing) : f.Spread p T :=
  fun hk => absurd hk h

/-- Nor is flow from variables. -/
theorem FlowEdge.spread_of_var {c : ContextId} {v : VarId} (h : f.source = varPointer c v) :
    f.Spread p T :=
  fun _ _ ho => absurd (h.symm.trans ho) (by simp [varPointer])

/-! ## The rules of the analysis -/

/-- Accesses pass nothing to parameters. -/
theorem spread_of_accessEdges {q : Program} {heap : Heap} {v : QVar} {o : QObj}
    (hf : f ∈ accessEdges q heap v o) : f.Spread p T := by
  refine FlowEdge.spread_of_kind ?_
  cases mem_accessEdges.1 hf <;> simp

/-- Nor do returns. -/
theorem spread_of_returnEdges {result : Option VarId} {callee : Method} {caller target : ContextId}
    (hf : f ∈ returnEdges result callee caller target) : f.Spread p T := by
  obtain ⟨_, _, _, _, rfl⟩ := mem_returnEdges.1 hf
  exact FlowEdge.spread_of_kind (by simp)

/-- The rules of the analysis pass the elements of an array to no parameter. -/
theorem CoreRule.spread {a : Addition} (h : CoreRule env s a) (hf : a.NewFlow f) :
    f.Spread p T := by
  obtain rfl := hf
  cases h with
  | @flow m index stmt _ _ he =>
      refine FlowEdge.spread_of_kind ?_
      cases stmt <;> cases he <;> simp [assignEdge]
  | access _ he => exact spread_of_accessEdges he
  | wiring _ _ hmem =>
      rcases List.mem_append.1 hmem with hmem | hmem
      · obtain ⟨_, _, _, _, _, rfl⟩ := mem_argumentEdges.1 hmem
        exact FlowEdge.spread_of_var rfl
      · exact spread_of_returnEdges hmem

/-! ## Conversations -/

/-- Elements of arrays are passed to parameters only for reflective edges. -/
def Request.Spread (p : Program) (T : Solver) : Request → Prop
  | .addFlow f => f.Spread p T
  | .mock _ | .callContext .. | .heapContext _ | .obj _ | .pointsTo _ | .addPointsTo .. | .addCall _
  | .note _ => True

/-- What may be relied on of an answer: an array stays one, and what a pointer refers to it still
refers to in the later state. -/
def Request.Stays (T : Solver) : (r : Request) → r.Answer → Prop
  | .obj i, x => x.type.isArray = true → (T.heap.typeOf i).isArray = true
  | .pointsTo ptr, os => ∀ o ∈ os, o ∈ T.pointsTo.get ptr
  | .mock _, _ | .callContext .., _ | .heapContext _, _ | .addPointsTo .., _ | .addFlow _, _
  | .addCall _, _ | .note _, _ => True

/-- An id outside the heap does not stand for an array. -/
theorem isArray_of_extends (h : s.Extends T) {i : ObjId}
    (hi : (s.heap.get i).type.isArray = true) : (T.heap.typeOf i).isArray = true := by
  cases hget : s.heap.get? i with
  | some x =>
      have hlater : T.heap.get i = s.heap.get i :=
        (Heap.get_of_get? (h.settled.heap _ _ hget)).trans (Heap.get_of_get? hget).symm
      rwa [Heap.typeOf, hlater]
  | none =>
      simp only [Heap.get, hget] at hi
      cases hi

/-- A request for no flow passes no elements of arrays. -/
theorem Request.Flowless.spread {K : CallKind → Prop} {r : Request} (hr : r.Flowless K) :
    r.Spread p T := by
  cases r with
  | addFlow => exact hr.elim
  | mock | callContext | heapContext | obj | pointsTo | addPointsTo | addCall | note => trivial

/-- Plugins that keep to it uphold that elements of arrays are passed to parameters only for
reflective edges. -/
theorem Service.upholds_of_spread {σ : Type} {P : Plugin σ} {entries : List MethodId} {J : σ → Prop}
    (hP : ∀ {s e p}, s.Extends T → e.Holds env s → J p →
      (P.react env e p).Asks (Request.Spread env.program T) (Request.Stays T) J) :
    P.Upholds env entries T (fun s => ∀ f ∈ s.flow.edges, f.Spread env.program T) J
      (Request.Spread env.program T) (Request.Stays T) where
  enter := fun hs _ => hs
  take := by
    intro s w rest hs _ f hf
    rw [Solver.flow_take] at hf
    exact hs f hf
  rule := fun hs hr hadd _ f hf => (hadd.flow_cases hf).elim (hs f) hr.spread
  react := fun _ hT he hp => hP hT he hp
  answer := by
    intro s t r answer hs hr h hT
    refine ⟨fun f hf => (Request.flow_cases h hf).elim (hs f) (by rintro rfl; exact hr), ?_⟩
    cases r with
    | obj i =>
        simp only [Request.answer, bind_eq_ok, get_eq_ok, pure_eq_ok] at h
        obtain ⟨_, _, ⟨rfl, rfl⟩, rfl, rfl⟩ := h
        exact isArray_of_extends hT
    | pointsTo ptr =>
        simp only [Request.answer, bind_eq_ok, get_eq_ok, pure_eq_ok] at h
        obtain ⟨_, _, ⟨rfl, rfl⟩, rfl, rfl⟩ := h
        exact fun o ho => hT.settled.points ho
    | mock | callContext | heapContext | addPointsTo | addFlow | addCall | note => trivial

/-! ## The plugin for lambdas -/

namespace Lambda

/-- A wire of a lambda call passes no elements of arrays. -/
theorem Wires.spread {e : CallEdge} {call : LambdaCall} (h : Wires p e call f) :
    f.Spread p T := by
  cases h with
  | receiver | result => exact FlowEdge.spread_of_kind (by simp)
  | param hsource =>
      rcases mem_sources.1 (List.mem_of_getElem? hsource) with ⟨_, _, rfl⟩ | ⟨_, _, rfl⟩
      · exact FlowEdge.spread_of_var rfl
      · exact FlowEdge.spread_of_var rfl

/-- The plugin for lambdas passes the elements of an array to no parameter. -/
theorem spread_react (e : Event) (st : Lambda.State) :
    (react env e st).Asks (Request.Spread env.program T) (Request.Stays T) Any := by
  refine (asks_react e).imp (fun r hr => ?_) fun _ _ => trivial
  cases hr with
  | create | assign | look => trivial
  | handle _ hr => exact hr.flowless.spread
  | wake _ hr => exact hr.flowless.spread
  | wire _ hf => exact (mem_wiring.1 hf).spread

end Lambda

/-! ## The plugin for reflection -/

namespace Reflection

variable {st : State}

/-- The plugin waits on a variable for a method because of a reflective edge to that method, whose
arguments come in the variable. -/
def State.Awaits (T : Solver) (st : State) : Prop :=
  ∀ v callee, (v, callee) ∈ st.argArrays.pairs → ∃ e ∈ T.calls.edges, ∃ call args,
    e.kind = .reflective call ∧ call.args = some args ∧ v = ⟨e.site.context, args⟩ ∧
      e.callee = callee

/-- An offer changes no arguments. -/
theorem State.sameArguments_offer (st : State) (call : Invoke) :
    st.SameArguments (st.offer call) :=
  ⟨(st.offered call).argArrays, (st.offered call).forwarded⟩

/-- Nor do several offers. -/
theorem State.sameArguments_offerAll (st : State) (calls : List Invoke) :
    st.SameArguments (calls.foldl State.offer st) := by
  induction calls generalizing st with
  | nil => exact ⟨rfl, rfl⟩
  | cons call calls ih =>
      have hfirst := st.sameArguments_offer call
      have hrest := ih (st.offer call)
      exact ⟨hrest.argArrays.trans hfirst.argArrays, hrest.forwarded.trans hfirst.forwarded⟩

/-- The arrays that the variable for the arguments of a reflective edge refers to may be
forwarded. -/
theorem Forwarding.spread {e : CallEdge} {call : ReflectiveCall} {args : VarId} {r : Request}
    (he : e ∈ T.calls.edges) (hk : e.kind = .reflective call) (hargs : call.args = some args)
    (hr : Forwarding p (Request.Stays T) ⟨e.site.context, args⟩ e.callee r) : r.Spread p T := by
  cases hr with
  | arrays | look => trivial
  | pass hos ho hx harray hf =>
      obtain ⟨⟨param, type⟩, hmem, rfl⟩ := List.mem_map.1 hf
      obtain ⟨hparam, href⟩ := List.mem_filter.1 hmem
      exact fun _ _ _ => .intro he hk hargs (hos _ ho) (hx harray) hparam href

/-- The plugin for reflection passes elements of arrays to parameters only for reflective edges. -/
theorem State.Awaits.react (hst : st.Awaits T) {e : Event} (he : e.Holds env s)
    (hT : s.Extends T) :
    (react env e st).Asks (Request.Spread env.program T) (Request.Stays T) (State.Awaits T) := by
  refine (asks_react e).imp (fun r hr => ?_) fun st' hst' => ?_
  · cases hr with
    | act _ _ hr => exact hr.flowless.spread
    | pass hk hargs hr => exact hr.spread (hT.settled.call he) hk hargs
    | @result _ _ f _ hf =>
        exact spread_of_returnEdges (mem_resultEdges.1 hf).2
    | wake hmem hr =>
        obtain ⟨edge, hedge, call, args, hk, hargs, rfl, rfl⟩ := hst _ _ hmem
        exact hr.spread hedge hk hargs
    | grown hr => exact hr.flowless.spread
  · cases hst' with
    | same | acted | grown => exact hst
    | offered =>
        intro v callee hmem
        rw [(st.sameArguments_offerAll _).argArrays] at hmem
        exact hst v callee hmem
    | passed hk hargs =>
        intro v callee hmem
        rcases Waitlist.mem_register.1 hmem with heq | hmem
        · cases heq
          exact ⟨_, hT.settled.call he, _, _, hk, hargs, rfl, rfl⟩
        · exact hst v callee hmem

end Reflection

/-! ## Runs -/

/-- A member that comes with the library, and waits only for arguments of reflective edges. -/
def Member.Awaits (T : Solver) : Member → Prop
  | lambda _ => True
  | reflection st => st.Awaits T
  | script _ => False

/-- A reaction passes elements of arrays to parameters only for reflective edges. -/
theorem Member.spread_react {m : Member} (hT : s.Extends T) {e : Event} (he : e.Holds env s)
    (hm : m.Awaits T) : (plugin.react env e m).Asks (Request.Spread env.program T)
      (Request.Stays T) (Awaits T) := by
  cases m with
  | lambda st => exact Asks.bind (Lambda.spread_react e st) fun _ _ => trivial
  | reflection st => exact Asks.bind (State.Awaits.react hm he hT) fun _ h => h
  | script => exact hm.elim

/-- In every state of a run without added plugins, elements of arrays are passed to parameters only
for reflective edges. -/
theorem Analysis.spread_of_arises {a : Analysis} (hextra : a.extra = []) {files : Files}
    {entries : List MethodId} {m : Machine Member} (h : a.Arises p files entries m) :
    ∀ f ∈ m.solver.flow.edges, f.Spread p m.solver := by
  obtain ⟨members, hmembers, talk, hoccurs⟩ := h
  have hstart : ∀ x ∈ members, x.Awaits m.solver := by
    intro x hx
    rcases Analysis.members_cases hmembers hx with rfl | ⟨st, hst, rfl⟩ | hx
    · trivial
    · have hnone : st.argArrays = .empty := by
        rcases (State.eq_of_new hst).2 with hst | hst <;> rw [hst]
      intro v callee hmem
      rw [hnone] at hmem
      exact absurd hmem (Waitlist.not_mem_empty _)
    · rw [hextra] at hx
      exact absurd hx List.not_mem_nil
  have hupholds : Member.plugin.Upholds (a.setting p) entries m.solver
      (fun s => ∀ f ∈ s.flow.edges, f.Spread p m.solver) (Member.Awaits m.solver)
      (Request.Spread p m.solver) (Request.Stays m.solver) :=
    upholds_of_spread fun hs he hx => Member.spread_react hs he hx
  exact (hoccurs.upholds hupholds
    (fun f hf => absurd hf (OrderedSet.not_mem_empty f)) hstart (.refl _)).solver

end PointsTo
