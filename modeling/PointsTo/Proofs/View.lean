import PointsTo.Proofs.FlowEdges
import PointsTo.Proofs.Tables
import PointsTo.Solver.Rules

/-!
# What is known in a state

The facts of a state are read in two ways.  The settled ones have been worked in;
the expected ones may still wait in the queue.  Both readings have the same shape,
a {lit}`View`, so that the effect of a statement or of a call is described once and
can be claimed of either.

Main results:

- {lit}`Solver.settled`, {lit}`Solver.expected`: the two readings, which agree when
  the queue is empty ({lit}`Solver.expected_eq_settled`).
- {lit}`View.Effect`, {lit}`View.Called`, {lit}`View.Access`, {lit}`View.Transfers`: what the
  rules ask of a view; effects and calls last in every later view ({lit}`Effect.mono` and its
  like).
- {lit}`Solver.Extends`: the order in which the states of a run come.
-/

namespace PointsTo

/-- Facts about pointers, flow and calls, with the tables that their ids refer to. -/
structure View where
  heap : Heap
  contexts : ContextTable
  points : Pointer → QObj → Prop
  flow : FlowEdge → Prop
  call : CallEdge → Prop
  reached : QMethod → Prop

namespace View

variable {env : Setting} {k l : View}

/-- The second view knows whatever the first one knows. -/
structure Le (k l : View) : Prop where
  heap : k.heap.Grows l.heap
  contexts : k.contexts.Grows l.contexts
  points : ∀ {ptr o}, k.points ptr o → l.points ptr o
  flow : ∀ {e}, k.flow e → l.flow e
  call : ∀ {e}, k.call e → l.call e
  reached : ∀ {m}, k.reached m → l.reached m

/-- A view grows into itself. -/
@[refl] theorem Le.refl (k : View) : k.Le k :=
  ⟨.refl _, .refl _, id, id, id, id⟩

/-- A view that grows twice grows. -/
theorem Le.trans {m : View} (h : k.Le l) (h' : l.Le m) : k.Le m :=
  ⟨h.heap.trans h'.heap, h.contexts.trans h'.contexts, fun a => h'.points (h.points a),
    fun a => h'.flow (h.flow a), fun a => h'.call (h.call a), fun a => h'.reached (h.reached a)⟩

/-! ## Ids that exist -/

/-- The object and its heap context exist. -/
def HasObj (k : View) (o : QObj) : Prop := k.contexts.Has o.context ∧ k.heap.Has o.item

/-- Objects go on existing while a view grows. -/
theorem HasObj.mono {o : QObj} (h : k.HasObj o) (hle : k.Le l) : l.HasObj o :=
  ⟨h.1.of_grows hle.contexts, h.2.of_grows hle.heap⟩

/-! ## Selected contexts -/

/-- The context that the selector chooses for a call; the table holds it already. -/
def Selects (env : Setting) (k : View) (site : QSite) (receiver : Option QObj)
    (c : ContextId) : Prop :=
  env.selector.callContext env.program k.heap k.contexts site receiver = .ok (c, k.contexts)

/-- The heap context that the selector chooses for allocations in a method; the
table holds it already. -/
def SelectsHeap (env : Setting) (k : View) (m : QMethod) (c : ContextId) : Prop :=
  env.selector.heapContext k.contexts m = .ok (c, k.contexts)

/-- A selected context stays the selected one. -/
theorem Selects.mono {site : QSite} {receiver : Option QObj} {c : ContextId}
    (h : k.Selects env site receiver c) (hsite : k.contexts.Has site.context)
    (hreceiver : ∀ o ∈ receiver, k.HasObj o) (hle : k.Le l) :
    l.Selects env site receiver c :=
  Selector.callContext_of_grows h hsite hreceiver hle.heap hle.contexts

/-- The heap context of an allocation stays selected. -/
theorem SelectsHeap.mono {m : QMethod} {c : ContextId} (h : k.SelectsHeap env m c)
    (hm : k.contexts.Has m.context) (hle : k.Le l) : l.SelectsHeap env m c :=
  Selector.heapContext_of_grows h hm hle.contexts

/-! ## What the rules ask for -/

/-- Statement number {lit}`index` of a method has had its effect under the context of
the method. -/
def Effect (env : Setting) (k : View) (m : QMethod) (index : Nat) : Stmt → Prop
  | .new lhs type => ∃ h o, k.SelectsHeap env m h ∧
      k.heap.get? o = some (.alloc m.item index type) ∧
      k.points (varPointer m.context lhs) ⟨h, o⟩
  | .literal lhs (.str value) => ∃ o, k.heap.get? o = some (.stringConstant value) ∧
      k.points (varPointer m.context lhs) ⟨emptyContext, o⟩
  | .literal lhs (.cls type) => ∃ o, k.heap.get? o = some (.classConstant type) ∧
      k.points (varPointer m.context lhs) ⟨emptyContext, o⟩
  | .copy lhs rhs =>
      k.flow ⟨varPointer m.context rhs, varPointer m.context lhs, .localAssign, none⟩
  | .cast lhs rhs type =>
      k.flow ⟨varPointer m.context rhs, varPointer m.context lhs, .cast, type.reference?⟩
  | .loadStatic lhs f => k.flow ⟨.static f, varPointer m.context lhs, .staticLoad, none⟩
  | .storeStatic f rhs => k.flow ⟨varPointer m.context rhs, .static f, .staticStore, none⟩
  | .invoke site => ∀ callee,
      staticTarget? env.program (env.program.invoke site) = some callee →
        ∃ c, k.Selects env ⟨m.context, site⟩ none c ∧
          k.call ⟨⟨m.context, site⟩, ⟨c, callee⟩, .static⟩
  | .literal _ .null | .loadField .. | .storeField .. | .loadArray .. | .storeArray .. | .ret _ =>
      True

/-- A call site is resolved on an object: if there is a method to run, an edge leads
to it under the selected context, and the object reaches its receiver. -/
def Called (env : Setting) (k : View) (context : ContextId) (site : InvokeId) (o : QObj) : Prop :=
  ∀ callee kind, receiverTarget? env.program k.heap (env.program.invoke site) o = some callee →
    CallKind.ofInvoke? (env.program.invoke site).kind = some kind →
    ∃ c, k.Selects env ⟨context, site⟩ (some o) c ∧
      k.call ⟨⟨context, site⟩, ⟨c, callee⟩, kind⟩ ∧
      ∀ this ∈ (env.program.method callee).receiver, k.points (varPointer c this) o

/-- What a statement asks for when {lit}`v`, as its base, refers to {lit}`o`. -/
def Access (env : Setting) (k : View) (v : QVar) (o : QObj) : Stmt → Prop
  | .loadField lhs base f => base = v.item →
      k.flow ⟨.field o f, varPointer v.context lhs, .instanceLoad, none⟩
  | .storeField base f rhs => base = v.item →
      k.flow ⟨varPointer v.context rhs, .field o f, .instanceStore, none⟩
  | .loadArray lhs base => base = v.item →
      k.flow ⟨.array o, varPointer v.context lhs, .arrayLoad, none⟩
  | .storeArray base rhs => base = v.item →
      k.flow ⟨varPointer v.context rhs, .array o, .arrayStore,
        (k.heap.typeOf o.item).element?.bind JavaType.reference?⟩
  | .invoke site => (env.program.invoke site).base = some v.item →
      (env.program.invoke site).kind.isInstance = true → k.Called env v.context site o
  | .new .. | .copy .. | .cast .. | .literal .. | .loadStatic .. | .storeStatic .. | .ret _ => True

/-- What an ordinary call edge asks for: arguments flow to the parameters that hold references,
and returned variables to the result of the call. -/
structure Transfers (p : Program) (k : View) (e : CallEdge) : Prop where
  argument : ∀ arg param type,
    (arg, param, type) ∈ (p.invoke e.site.item).args.zip (p.method e.callee.item).typedParams →
    type.isReference = true →
    k.flow ⟨varPointer e.site.context arg, varPointer e.callee.context param,
      .parameterPassing, none⟩
  result : ∀ r ∈ (p.invoke e.site.item).result, ∀ v ∈ (p.method e.callee.item).returnVars,
    k.flow ⟨varPointer e.callee.context v, varPointer e.site.context r, .ret, none⟩

/-- The wiring of an ordinary call edge is all that the edge asks for, and no more. -/
theorem transfers_iff {p : Program} {e : CallEdge} :
    k.Transfers p e ↔ ∀ f ∈ ordinaryWiring p e, k.flow f := by
  constructor
  · intro h f hf
    rcases List.mem_append.1 hf with harg | hret
    · obtain ⟨arg, param, type, hzip, htype, rfl⟩ := mem_argumentEdges.1 harg
      exact h.argument arg param type hzip htype
    · obtain ⟨r, v, hresult, hv, rfl⟩ := mem_returnEdges.1 hret
      exact h.result r hresult v hv
  · refine fun h => ⟨?_, ?_⟩
    · intro arg param type hzip htype
      exact h _ (List.mem_append_left _
        (mem_argumentEdges.2 ⟨arg, param, type, hzip, htype, rfl⟩))
    · intro r hresult v hv
      exact h _ (List.mem_append_right _ (mem_returnEdges.2 ⟨r, v, hresult, hv, rfl⟩))

/-- What a call on an object leads to does not change while the heap grows. -/
theorem receiverTarget?_of_grows {p : Program} {heap heap' : Heap} (call : Invoke) {o : QObj}
    (ho : heap.Has o.item) (hg : heap.Grows heap') :
    receiverTarget? p heap' call o = receiverTarget? p heap call o := by
  simp only [receiverTarget?, Heap.typeOf_of_grows ho hg]

/-- A statement goes on having its effect. -/
theorem Effect.mono {m : QMethod} {index : Nat} {stmt : Stmt}
    (h : k.Effect env m index stmt) (hm : k.contexts.Has m.context) (hle : k.Le l) :
    l.Effect env m index stmt := by
  cases stmt with
  | new lhs type =>
      obtain ⟨c, o, hc, ho, hp⟩ := h
      exact ⟨c, o, hc.mono hm hle, hle.heap _ _ ho, hle.points hp⟩
  | literal lhs value =>
      cases value with
      | str value =>
          obtain ⟨o, ho, hp⟩ := h
          exact ⟨o, hle.heap _ _ ho, hle.points hp⟩
      | cls type =>
          obtain ⟨o, ho, hp⟩ := h
          exact ⟨o, hle.heap _ _ ho, hle.points hp⟩
      | null => trivial
  | invoke site =>
      intro callee hcallee
      obtain ⟨c, hc, he⟩ := h callee hcallee
      exact ⟨c, hc.mono hm (fun o ho => absurd ho (by simp)) hle, hle.call he⟩
  | copy | cast | loadStatic | storeStatic => exact hle.flow h
  | loadField | storeField | loadArray | storeArray | ret => trivial

/-- A call on an object stays made. -/
theorem Called.mono {context : ContextId} {site : InvokeId} {o : QObj}
    (h : k.Called env context site o) (hc : k.contexts.Has context) (ho : k.HasObj o)
    (hle : k.Le l) : l.Called env context site o := by
  intro callee kind hcallee hkind
  rw [receiverTarget?_of_grows _ ho.2 hle.heap] at hcallee
  obtain ⟨c, hsel, he, hthis⟩ := h callee kind hcallee hkind
  refine ⟨c, hsel.mono hc ?_ hle, hle.call he, fun this ht => hle.points (hthis this ht)⟩
  intro o' ho'
  cases ho'
  exact ho

end View

/-- The edges of an access do not change while the heap grows. -/
theorem accessEdges_of_grows {p : Program} {h k : Heap} (v : QVar) {o : QObj}
    (ho : h.Has o.item) (hg : h.Grows k) : accessEdges p k v o = accessEdges p h v o := by
  simp only [accessEdges, Heap.typeOf_of_grows ho hg]

/-- The objects that a waiting fact is about exist, and so do the contexts that they
are worked in under. -/
def WorkItem.Exists (k : View) : WorkItem → Prop
  | .pointsTo ptr os => ∀ o ∈ os, k.HasObj o ∧ ∀ v, ptr = .var v → k.contexts.Has v.context
  | .call e => k.contexts.Has e.callee.context

/-! ## The two readings of a state -/

namespace Solver

/-- The object is in the set of the pointer, or on its way there. -/
def Owes (s : Solver) (ptr : Pointer) (o : QObj) : Prop :=
  o ∈ s.pointsTo.get ptr ∨ ∃ os, .pointsTo ptr os ∈ s.queue ∧ o ∈ os

/-- The edge is in the call graph, or on its way there. -/
def Announces (s : Solver) (e : CallEdge) : Prop := e ∈ s.calls.edges ∨ .call e ∈ s.queue

/-- What has been worked in. -/
def settled (s : Solver) : View where
  heap := s.heap
  contexts := s.contexts
  points := fun ptr o => o ∈ s.pointsTo.get ptr
  flow := fun e => e ∈ s.flow.edges
  call := fun e => e ∈ s.calls.edges
  reached := fun m => m ∈ s.calls.reachableIn

/-- What has been worked in or waits for that. -/
def expected (s : Solver) : View where
  heap := s.heap
  contexts := s.contexts
  points := s.Owes
  flow := fun e => e ∈ s.flow.edges
  call := s.Announces
  reached := fun m => m ∈ s.calls.reachableIn

/-- What is known for good is expected. -/
theorem settled_le_expected (s : Solver) : s.settled.Le s.expected :=
  ⟨.refl _, .refl _, .inl, id, .inl, id⟩

/-- When nothing waits, what is expected has happened. -/
theorem expected_eq_settled {s : Solver} (h : s.queue = []) : s.expected = s.settled := by
  simp [expected, settled, funext_iff, Owes, Announces, h]

/-- The second state can come after the first in a run. -/
structure Extends (s t : Solver) : Prop where
  settled : s.settled.Le t.settled
  expected : s.expected.Le t.expected
  reachable : ∀ {m}, m ∈ s.calls.reachable → m ∈ t.calls.reachable

/-- A state extends itself. -/
@[refl] theorem Extends.refl (s : Solver) : s.Extends s := ⟨.refl _, .refl _, id⟩

/-- States extend each other one after the other. -/
theorem Extends.trans {s t u : Solver} (h : s.Extends t) (k : t.Extends u) : s.Extends u :=
  ⟨h.settled.trans k.settled, h.expected.trans k.expected, fun a => k.reachable (h.reachable a)⟩

/-- What is reachable under a context stays so. -/
theorem Extends.reachableIn {s t : Solver} (h : s.Extends t) {m : QMethod}
    (hm : m ∈ s.calls.reachableIn) : m ∈ t.calls.reachableIn :=
  h.settled.reached hm

end Solver

end PointsTo
