import PointsTo.Proofs.IntermediateStates
import PointsTo.Proofs.LambdaCalls
import PointsTo.Reflection

/-!
# Where the facts of a run come from

An object comes to a pointer because a statement or a call puts it there, because it is the
receiver of a call, or along a flow edge; flow edges and call edges come from statements, accesses
and calls.  An origin names the reason.  The reasons speak of what is known for good, so that they
still hold later on, and they say under which context a receiver is received and which filter an
edge has.  Everything that is known in a state, or waits in it, has an origin.

Main results:

- {lit}`Selector.Admits`, {lit}`Obj.Placed`, {lit}`View.Lodges`: what contexts, objects and heap
  contexts are like.
- {lit}`Pointer.Origin`, {lit}`FlowEdge.Origin`, {lit}`CallEdge.Origin`: the reasons.
- {lit}`Solver.Warranted`: everything has an origin; kept by what has one
  ({lit}`Solver.Warranted.of_adds`) and by the working in of a fact
  ({lit}`Solver.Warranted.of_take`).
- Theorem {lit}`CoreRule.warranted`: what the rules of the analysis add has an origin.
-/

namespace PointsTo

open Lambda Reflection

/-! ## Contexts -/

namespace Selector

/-- The contexts that a selector may make: the empty one, and if it tells contexts apart those up
to its limit. -/
structure Admits (s : Selector) (c : Context) : Prop where
  insensitive : s.strategy = .insensitive → c = .empty
  depth : c.depth ≤ s.k

variable {s : Selector} {p : Program} {heap : Heap} {table : ContextTable} {site : QSite}
  {receiver : Option QObj} {m : QMethod} {w : Context}

/-- The empty context may always be made. -/
theorem admits_empty : s.Admits .empty := ⟨fun _ => rfl, Nat.zero_le _⟩

/-- A context that is looked up may be made if those of the table may. -/
theorem admits_get (h : ∀ {i c}, table.get? i = some c → s.Admits c) (i : ContextId) :
    s.Admits (table.get i) := by
  unfold ContextTable.get
  cases hi : table.get? i with
  | none => exact admits_empty
  | some c => exact h hi

/-- A selector that tells contexts apart may lengthen them, up to its limit. -/
theorem admits_push (hs : s.strategy ≠ .insensitive) (c : Context) (element : Nat) :
    s.Admits (c.push element s.k) := by
  refine ⟨fun h => absurd h hs, ?_⟩
  rw [Context.depth_push]
  exact Nat.min_le_left _ _

/-- The context that a call asks for may be made. -/
theorem admits_wanted (h : s.wanted? p heap table site receiver = some w) : s.Admits w := by
  unfold wanted? at h
  split at h
  all_goals
    rename_i hs
    cases h
    try exact admits_push (by rw [hs]; decide) _ _

/-- The heap context that an allocation asks for may be made if that of its method may. -/
theorem admits_wantedHeap (htable : ∀ {i c}, table.get? i = some c → s.Admits c)
    (h : s.wantedHeap? table m = some w) : s.Admits w := by
  unfold wantedHeap? at h
  split at h
  · cases h
  · rename_i hs
    cases h
    have hdepth := (admits_get htable m.context).depth
    refine ⟨fun hi => absurd (.inl hi) hs, ?_⟩
    rw [Context.depth_truncate]
    omega

end Selector

/-! ## Objects -/

/-- The method that contains an object follows from what the object is.  A lambda is contained in
the method that runs the call site which makes it. -/
def Obj.Placed (p : Program) (x : Obj) : Prop :=
  match x.kind with
  | .alloc m _ => x.container = some m
  | .mock .lambda (.invoke i) => ∃ m, x.container = some m ∧ .invoke i ∈ (p.method m).stmts
  | .mock .lambdaConstructed (.invoke i) | .mock .reflective (.invoke i) =>
      x.container = some (p.invoke i).container
  | .stringConstant _ | .classConstant _ | .mock .classMeta (.type _)
  | .mock .methodMeta (.method _) | .mock .constructorMeta (.method _) => x.container = none
  | .mock .. => False

/-- The object of a statement is placed in the method of the statement. -/
theorem Stmt.placed_of_obj? {p : Program} {method : MethodId} {index : Nat} {stmt : Stmt}
    {lhs : VarId} {x : Obj} {onHeap : Bool} (h : stmt.obj? method index = some (lhs, x, onHeap)) :
    x.Placed p := by
  cases stmt with
  | new => cases h; rfl
  | literal _ value => cases value <;> cases h <;> rfl
  | copy | cast | loadField | storeField | loadStatic | storeStatic | loadArray | storeArray
    | invoke | ret => cases h

/-- The heap context of an object is as its kind asks: objects that are made in a method have the
one that is selected for the method, lambdas may have any, and all others have the empty one. -/
def View.Lodges (env : Setting) (k : View) (o : QObj) : Prop :=
  match (k.heap.get o.item).kind with
  | .alloc .. | .mock .reflective _ => ∃ m : QMethod, k.contexts.Has m.context ∧
      (k.heap.get o.item).container = some m.item ∧ k.SelectsHeap env m o.context
  | .mock .lambda _ | .mock .lambdaConstructed _ => True
  | .stringConstant _ | .classConstant _ | .mock .classMeta _ | .mock .methodMeta _
  | .mock .constructorMeta _ => o.context = emptyContext

/-- An object goes on being lodged while a view grows. -/
theorem View.Lodges.mono {env : Setting} {k l : View} {o : QObj} (h : k.Lodges env o)
    (ho : k.HasObj o) (hle : k.Le l) : l.Lodges env o := by
  unfold View.Lodges at h ⊢
  rw [Heap.get_of_grows ho.2 hle.heap]
  have hmade : ∀ {x : Option MethodId}, (∃ m : QMethod, k.contexts.Has m.context ∧
      x = some m.item ∧ k.SelectsHeap env m o.context) →
      ∃ m : QMethod, l.contexts.Has m.context ∧ x = some m.item ∧
        l.SelectsHeap env m o.context := by
    rintro _ ⟨m, hm, hx, hsel⟩
    exact ⟨m, hm.of_grows hle.contexts, hx, hsel.mono hm hle⟩
  split at h
  · exact hmade h
  · exact hmade h
  all_goals exact h

/-! ## Origins -/

/-- How an object comes to a pointer. -/
inductive Pointer.Origin (env : Setting) (k : View) : Pointer → QObj → Prop
  /-- A statement assigns it. -/
  | assigned {m : QMethod} {index : Nat} {stmt : Stmt} {lhs x onHeap o}
      (hstmt : (env.program.method m.item).stmts[index]? = some stmt)
      (hx : stmt.obj? m.item index = some (lhs, x, onHeap)) :
      Origin env k (varPointer m.context lhs) o
  /-- It is the result of a call. -/
  | result {c site v o} (hv : v ∈ (env.program.invoke site).result) :
      Origin env k (varPointer c v) o
  /-- A method is run on it, under the context that is selected for it. -/
  | receiver {site m this c o} (hthis : this ∈ (env.program.method m).receiver)
      (hsite : k.contexts.Has site.context) (hc : k.Selects env site (some o) c) :
      Origin env k (varPointer c this) o
  /-- It passes the filter of a flow edge. -/
  | flow {e o} (he : k.flow e) (hp : Solver.Passes env.program k.heap e.filter o) :
      Origin env k e.target o

/-- How a flow edge comes to be. -/
inductive FlowEdge.Origin (env : Setting) (k : View) (e : FlowEdge) : Prop
  | stmt {c stmt} (hstmt : env.program.HasStmt stmt) (he : stmt.flow? c = some e)
  /-- Values flow through a field or the elements of an object. -/
  | access {v o} (ho : k.HasObj o) (he : e ∈ accessEdges env.program k.heap v o)
  /-- Values are passed to a parameter. -/
  | param {c m v} (hv : v ∈ (env.program.method m).params) (he : e.target = varPointer c v)
  /-- Values are returned to the result of a call. -/
  | result {c site v} (hv : v ∈ (env.program.invoke site).result)
      (he : e.target = varPointer c v)
  /-- A reference to an instance method takes its receiver from a variable. -/
  | receiver {edge call this} (hedge : k.call edge) (hk : edge.kind = .lambda call)
      (hno : (env.program.method edge.callee.item).isConstructor = false)
      (hthis : this ∈ (env.program.method edge.callee.item).receiver)
      (he : e.target = varPointer edge.callee.context this)

/-- A call site calls an object that is a lambda, so that it runs what a handle says with what the
lambda has captured. -/
structure Lambda.CallsOn (env : Setting) (k : View) (site : QSite) (maker : InvokeId)
    (handle : MethodHandle) (call : LambdaCall) : Prop where
  captured : call.captured = (env.program.invoke maker).args
  result : call.result = (env.program.invoke site.item).result
  on : ∃ base ∈ (env.program.invoke site.item).base, ∃ o,
    k.points (varPointer site.context base) o ∧ k.HasObj o ∧ call.lambdaContext = o.context ∧
      Fits env.program (k.heap.get o.item) site.item maker handle

/-- The call that a call edge stands for, and the object that it is a call on. -/
inductive CallEdge.Origin (env : Setting) (k : View) (e : CallEdge) : Option QObj → Prop
  | static (hk : e.kind = .static)
      (ht : staticTarget? env.program (env.program.invoke e.site.item) = some e.callee.item) :
      Origin env k e none
  /-- A call on what its base refers to. -/
  | dispatched {base o} (hbase : (env.program.invoke e.site.item).base = some base)
      (ho : k.points (varPointer e.site.context base) o)
      (hk : CallKind.ofInvoke? (env.program.invoke e.site.item).kind = some e.kind)
      (ht : receiverTarget? env.program k.heap (env.program.invoke e.site.item) o =
        some e.callee.item) : Origin env k e (some o)
  /-- A call on a lambda that refers to a static method. -/
  | handle {call maker handle} (hk : e.kind = .lambda call)
      (hcall : CallsOn env k e.site maker handle call) (hkind : handle.kind = .invokeStatic)
      (ht : env.program.resolve? handle.target = some e.callee.item) : Origin env k e none
  /-- A call on a lambda that refers to a constructor, which is run on a new object. -/
  | construction {call maker handle i} (hk : e.kind = .lambda call)
      (hcall : CallsOn env k e.site maker handle call) (hkind : handle.kind = .newInvokeSpecial)
      (ht : env.program.resolve? handle.target = some e.callee.item)
      (hi : k.heap.get? i = some (MockTable.standIn env.program .lambdaConstructed maker
        (.cls handle.target.className))) : Origin env k e (some ⟨e.site.context, i⟩)
  /-- A call on a lambda that refers to an instance method, which is run on what provides its
  receiver. -/
  | pending {call maker handle v o} (hk : e.kind = .lambda call)
      (hcall : CallsOn env k e.site maker handle call)
      (hkind : handle.kind ∈ [HandleKind.invokeVirtual, .invokeInterface, .invokeSpecial])
      (hv : receiverVar? call.captured (env.program.invoke e.site.item).args call.lambdaContext
        e.site.context = some v) (ho : k.points (.var v) o)
      (ht : pendingTarget? env.program ⟨e.site, handle.kind, handle.target, call⟩
        (k.heap.typeOf o.item) = some e.callee.item) : Origin env k e (some o)
  /-- By reflection a constructor is run on an object that is made at the call. -/
  | made {call type o} (hk : e.kind = .reflective call) (hapi : call.api ≠ .methodInvoke)
      (ho : k.heap.get? o.item =
        some (MockTable.standIn env.program .reflective e.site.item type))
      (hc : k.SelectsHeap env ⟨e.site.context, (env.program.invoke e.site.item).container⟩
        o.context) : Origin env k e (some o)
  /-- By reflection a static method is invoked. -/
  | invokedStatic {call} (hk : e.kind = .reflective call) (hapi : call.api = .methodInvoke)
      (hstatic : (env.program.method e.callee.item).isStatic = true) : Origin env k e none
  /-- By reflection a method is invoked on what the first argument refers to. -/
  | invoked {call v target o} (hk : e.kind = .reflective call) (hapi : call.api = .methodInvoke)
      (hv : v ∈ (env.program.invoke e.site.item).args.head?)
      (ho : k.points (varPointer e.site.context v) o)
      (ht : invokedOn? env.program target (k.heap.typeOf o.item) = some e.callee.item) :
      Origin env k e (some o)

/-- A call edge stands for a call, leads to its callee under the context that is selected for the
call, and returns to its result. -/
structure CallEdge.Warranted (env : Setting) (k : View) (e : CallEdge) : Prop where
  returns : e.Returns env.program
  selected : ∃ receiver, e.Origin env k receiver ∧ (∀ o ∈ receiver, k.HasObj o) ∧
    k.Selects env e.site receiver e.callee.context

section Mono

variable {env : Setting} {k l : View} {o : QObj}

/-- An object goes on having an origin at its pointer. -/
theorem Pointer.Origin.mono {ptr : Pointer} (h : ptr.Origin env k o) (ho : k.HasObj o)
    (hle : k.Le l) : ptr.Origin env l o := by
  cases h with
  | assigned hstmt hx => exact .assigned hstmt hx
  | result hv => exact .result hv
  | receiver hthis hsite hc =>
      refine .receiver hthis (hsite.of_grows hle.contexts) (hc.mono hsite ?_ hle)
      rintro _ ⟨⟩
      exact ho
  | flow he hp => exact .flow (hle.flow he) (hp.mono ho.2 hle.heap)

/-- A flow edge goes on having an origin. -/
theorem FlowEdge.Origin.mono {e : FlowEdge} (h : e.Origin env k) (hle : k.Le l) :
    e.Origin env l := by
  cases h with
  | stmt hstmt he => exact .stmt hstmt he
  | access ho he =>
      rw [← accessEdges_of_grows _ ho.2 hle.heap] at he
      exact .access (ho.mono hle) he
  | param hv he => exact .param hv he
  | result hv he => exact .result hv he
  | receiver hedge hk hno hthis he => exact .receiver (hle.call hedge) hk hno hthis he

/-- A call on a lambda goes on being one. -/
theorem Lambda.CallsOn.mono {site : QSite} {maker : InvokeId} {handle : MethodHandle}
    {call : LambdaCall} (h : CallsOn env k site maker handle call) (hle : k.Le l) :
    CallsOn env l site maker handle call := by
  obtain ⟨base, hbase, o, ho, hobj, hlambda, hfits⟩ := h.on
  rw [← Heap.get_of_grows hobj.2 hle.heap] at hfits
  exact ⟨h.captured, h.result, base, hbase, o, hle.points ho, hobj.mono hle, hlambda, hfits⟩

/-- A call edge goes on having an origin. -/
theorem CallEdge.Origin.mono {e : CallEdge} {receiver : Option QObj}
    (h : e.Origin env k receiver) (hsite : k.contexts.Has e.site.context)
    (hreceiver : ∀ o ∈ receiver, k.HasObj o) (hle : k.Le l) : e.Origin env l receiver := by
  cases h with
  | static hk ht => exact .static hk ht
  | dispatched hbase ho hk ht =>
      rw [← View.receiverTarget?_of_grows _ (hreceiver _ rfl).2 hle.heap] at ht
      exact .dispatched hbase (hle.points ho) hk ht
  | handle hk hcall hkind ht => exact .handle hk (hcall.mono hle) hkind ht
  | construction hk hcall hkind ht hi =>
      exact .construction hk (hcall.mono hle) hkind ht (hle.heap _ _ hi)
  | pending hk hcall hkind hv ho ht =>
      rw [← Heap.typeOf_of_grows (hreceiver _ rfl).2 hle.heap] at ht
      exact .pending hk (hcall.mono hle) hkind hv (hle.points ho) ht
  | made hk hapi ho hc => exact .made hk hapi (hle.heap _ _ ho) (hc.mono hsite hle)
  | invokedStatic hk hapi hstatic => exact .invokedStatic hk hapi hstatic
  | invoked hk hapi hv ho ht =>
      rw [← Heap.typeOf_of_grows (hreceiver _ rfl).2 hle.heap] at ht
      exact .invoked hk hapi hv (hle.points ho) ht

/-- A call edge goes on being warranted. -/
theorem CallEdge.Warranted.mono {e : CallEdge} (h : e.Warranted env k)
    (hsite : k.contexts.Has e.site.context) (hle : k.Le l) : e.Warranted env l := by
  obtain ⟨receiver, horigin, hreceiver, hc⟩ := h.selected
  exact ⟨h.returns, receiver, horigin.mono hsite hreceiver hle,
    fun o ho => (hreceiver o ho).mono hle, hc.mono hsite hreceiver hle⟩

end Mono

/-! ## States -/

/-- All ids that a state mentions exist, and everything in it has an origin. -/
structure Solver.Warranted (env : Setting) (s : Solver) : Prop where
  scope : s.Scoped
  empty : s.contexts.get? emptyContext = some .empty
  objects : ∀ {i x}, s.heap.get? i = some x → x.Placed env.program
  contexts : ∀ {i c}, s.contexts.get? i = some c → env.selector.Admits c
  lodged : ∀ {ptr o}, s.Owes ptr o → s.settled.Lodges env o
  points : ∀ {ptr o}, s.Owes ptr o → ptr.Origin env s.settled o
  flow : ∀ {e}, e ∈ s.flow.edges → e.Origin env s.settled
  calls : ∀ {e}, s.Announces e → e.Warranted env s.settled

/-- What an addition brings has an origin. -/
def Addition.Warranted (env : Setting) (k : View) : Addition → Prop
  | .object x => x.Placed env.program
  | .context c => env.selector.Admits c
  | .points ptr os => ∀ o ∈ os, k.Lodges env o ∧ ptr.Origin env k o
  | .flow e => e.Origin env k
  | .enter receiver o e => k.Lodges env o ∧ e.Warranted env k ∧
      ∀ this ∈ receiver, Pointer.Origin env k (varPointer e.callee.context this) o
  | .call e => e.Warranted env k
  | .note _ => True

namespace Solver.Warranted

variable {env : Setting} {s t : Solver} {a : Addition} {w : WorkItem} {rest : List WorkItem}

/-- A state without facts has nothing to give an origin to. -/
theorem new : Solver.Warranted env {} where
  scope := .new
  empty := rfl
  objects := fun h => by simp [Interned.get?, OrderedSet.get?, Interned.empty] at h
  contexts := by
    intro i c hi
    rw [← ContextTable.get_of_get? hi, ContextTable.get_new]
    exact Selector.admits_empty
  lodged := fun h => h.elim (fun h => absurd h (OrderedSet.not_mem_empty _)) (by simp)
  points := fun h => h.elim (fun h => absurd h (OrderedSet.not_mem_empty _)) (by simp)
  flow := fun h => absurd h (OrderedSet.not_mem_empty _)
  calls := fun h => h.elim (fun h => absurd h (OrderedSet.not_mem_empty _)) (by simp)

/-- What has an origin keeps it in a later state. -/
theorem of_le (h : s.Warranted env) (hscoped : t.Scoped) (hle : s.settled.Le t.settled)
    (hobjects : ∀ {i x}, t.heap.get? i = some x → s.heap.get? i = some x ∨ x.Placed env.program)
    (hcontexts : ∀ {i c}, t.contexts.get? i = some c →
      s.contexts.get? i = some c ∨ env.selector.Admits c)
    (hpoints : ∀ {ptr o}, t.Owes ptr o → s.Owes ptr o ∨
      t.settled.Lodges env o ∧ ptr.Origin env t.settled o)
    (hflow : ∀ {e}, e ∈ t.flow.edges → e ∈ s.flow.edges ∨ e.Origin env t.settled)
    (hcalls : ∀ {e}, t.Announces e → s.Announces e ∨ e.Warranted env t.settled) :
    t.Warranted env where
  scope := hscoped
  empty := hle.contexts _ _ h.empty
  objects := fun hi => (hobjects hi).elim h.objects id
  contexts := fun hi => (hcontexts hi).elim h.contexts id
  lodged := fun ho => (hpoints ho).elim
    (fun ho => (h.lodged ho).mono (h.scope.owes ho).2 hle) And.left
  points := fun ho => (hpoints ho).elim
    (fun ho => (h.points ho).mono (h.scope.owes ho).2 hle) And.right
  flow := fun he => (hflow he).elim (fun he => (h.flow he).mono hle) id
  calls := fun he => (hcalls he).elim
    (fun he => (h.calls he).mono (h.scope.call he).site hle) id

/-- An addition of what has an origin leaves only what has one. -/
theorem of_adds (h : s.Warranted env) (hexists : a.Exists s.settled)
    (ha : a.Warranted env s.settled) (hadd : s.Adds env.program a t) : t.Warranted env := by
  have hle := hadd.accretes.extends.settled
  refine h.of_le (h.scope.of_adds hexists hadd) hle (fun hi => ?_) (fun hi => ?_) (fun ho => ?_)
    (fun he => ?_) (fun he => ?_)
  · refine (hadd.heap_cases hi).imp_right ?_
    rintro rfl
    exact ha
  · refine (hadd.contexts_cases hi).imp_right ?_
    rintro rfl
    exact ha
  · refine (hadd.owes_cases ho).imp_right fun hnew => ?_
    cases a with
    | points ptr' os =>
        obtain ⟨rfl, ho⟩ := hnew
        have hobj := (hexists _ ho).2
        exact ⟨(ha _ ho).1.mono hobj hle, (ha _ ho).2.mono hobj hle⟩
    | flow e =>
        -- the first of the two moments at which filters are applied; the other is in `of_take`
        obtain ⟨rfl, hsource, hp⟩ := hnew
        have hobj := h.scope.obj hsource
        obtain rfl := hadd
        exact ⟨(h.lodged (.inl hsource)).mono hobj hle,
          .flow (mem_flow_addFlow s env.program e) (hp.mono hobj.2 hle.heap)⟩
    | enter receiver o' e =>
        obtain ⟨rfl, this, hthis, rfl⟩ := hnew
        exact ⟨ha.1.mono hexists.1 hle, (ha.2.2 this hthis).mono hexists.1 hle⟩
    | object | context | call | note => exact hnew.elim
  · refine (hadd.flow_cases he).imp_right ?_
    rintro rfl
    exact FlowEdge.Origin.mono ha hle
  · refine (hadd.announces_cases he).imp_right fun hnew => ?_
    cases a with
    | enter receiver o' e' =>
        obtain rfl := hnew
        exact ha.2.1.mono hexists.2.site hle
    | call e' =>
        obtain rfl := hnew
        exact CallEdge.Warranted.mono ha hexists.site hle
    | object | context | points | flow | note => exact hnew.elim

/-- The working in of a fact only sends objects along flow edges. -/
theorem of_take (h : s.Warranted env) (hq : s.queue = w :: rest) :
    (s.take env.program w rest).Warranted env := by
  have hle := (extends_take env.program hq).settled
  refine h.of_le (h.scope.of_take hq) hle (fun hi => .inl ?_) (fun hi => .inl ?_) (fun ho => ?_)
    (fun he => .inl ?_) (fun he => .inl (announces_of_take hq he))
  · rwa [heap_take] at hi
  · rwa [contexts_take] at hi
  · refine (owes_of_take hq ho).imp_right ?_
    rintro ⟨f, hf, rfl, ho, hp⟩
    have hobj := (h.scope.owes ho).2
    exact ⟨(h.lodged ho).mono hobj hle, .flow (hle.flow hf) (hp.mono hobj.2 hle.heap)⟩
  · rwa [flow_take] at he

/-- That a method is found to be reachable brings no other fact. -/
theorem of_discover (h : s.Warranted env) {m : QMethod} (hm : s.contexts.Has m.context) :
    Solver.Warranted env { s with calls := s.calls.discover m } :=
  h.of_le (h.scope.of_discover hm) (extends_discover s m).settled .inl .inl .inl .inl
    fun he => .inl (he.imp_left (by simp))

/-- Facts may be dropped from the queue. -/
theorem counted (h : s.Warranted env) (hq : s.queue = w :: rest) (n : Nat) :
    Solver.Warranted env { s with queue := rest, processed := n } := by
  have howes : ∀ {ptr o}, Solver.Owes { s with queue := rest, processed := n } ptr o →
      s.Owes ptr o := by
    rintro ptr o (ho | ⟨os, hos, ho⟩)
    · exact .inl ho
    · exact .inr ⟨os, by rw [hq]; exact List.mem_cons_of_mem _ hos, ho⟩
  have hannounces : ∀ {e}, Solver.Announces { s with queue := rest, processed := n } e →
      s.Announces e := by
    rintro e (he | he)
    · exact .inl he
    · exact .inr (by rw [hq]; exact List.mem_cons_of_mem _ he)
  have hscoped : Solver.Scoped { s with queue := rest, processed := n } :=
    ⟨h.scope.empty, fun ho => h.scope.owes (howes ho), h.scope.flow, h.scope.reached,
      fun he => h.scope.call (hannounces he)⟩
  exact h.of_le hscoped (.refl s.settled) .inl .inl (fun ho => .inl (howes ho)) .inl
    fun he => .inl (hannounces he)

end Solver.Warranted

/-! ## The rules of the analysis -/

section Rules

variable {env : Setting} {s : Solver}

/-- Only objects that are made in a method lie on the heap. -/
theorem View.lodges_of_obj? {k : View} {m : QMethod} {index : Nat} {stmt : Stmt} {lhs : VarId}
    {x : Obj} {onHeap : Bool} {i : ObjId} {c : ContextId}
    (hx : stmt.obj? m.item index = some (lhs, x, onHeap)) (hi : k.heap.get? i = some x)
    (hm : k.contexts.Has m.context) (hc : k.Houses env m onHeap c) : k.Lodges env ⟨c, i⟩ := by
  unfold View.Lodges
  rw [Heap.get_of_get? hi]
  cases stmt with
  | new => cases hx; exact ⟨m, hm, rfl, hc⟩
  | literal _ value => cases value <;> cases hx <;> exact hc
  | copy | cast | loadField | storeField | loadStatic | storeStatic | loadArray | storeArray
    | invoke | ret => cases hx

/-- What a callee returns flows to the result of the call. -/
theorem FlowEdge.origin_of_returnEdges {k : View} {result : Option VarId} {callee : Method}
    {caller target : ContextId} {site : InvokeId} {f : FlowEdge}
    (hf : f ∈ returnEdges result callee caller target)
    (hresult : result = (env.program.invoke site).result) : f.Origin env k := by
  obtain ⟨r, _, hr, _, rfl⟩ := mem_returnEdges.1 hf
  exact .result (hresult.symm.trans hr) rfl

/-- The flow along an ordinary call edge leads to a parameter or to a result. -/
theorem FlowEdge.origin_of_ordinaryWiring {k : View} {e : CallEdge} {f : FlowEdge}
    (hf : f ∈ ordinaryWiring env.program e) : f.Origin env k := by
  rcases List.mem_append.1 hf with hf | hf
  · obtain ⟨_, _, _, hmem, _, rfl⟩ := mem_argumentEdges.1 hf
    exact .param (List.of_mem_zip (List.of_mem_zip hmem).2).1 rfl
  · exact origin_of_returnEdges hf rfl

/-- What the rules of the analysis add has an origin. -/
theorem CoreRule.warranted {a : Addition} (h : CoreRule env s a) (hb : env.program.Built)
    (hs : s.Warranted env) : a.Warranted env s.settled := by
  cases h with
  | object _ ho => exact Stmt.placed_of_obj? ho
  | heapContext _ _ hw => exact Selector.admits_wantedHeap hs.contexts hw
  | staticContext _ _ hw => exact Selector.admits_wanted hw
  | callContext _ hw => exact Selector.admits_wanted hw
  | assign hx ho hi hc =>
      intro o' ho'
      obtain rfl := OrderedSet.mem_singleton.1 ho'
      exact ⟨View.lodges_of_obj? ho hi (hs.scope.reached hx.reachable) hc, .assigned hx.stmt ho⟩
  | flow hx he => exact .stmt hx.hasStmt he
  | static _ ht hc =>
      exact ⟨CallEdge.returns_of_kind (by simp), none, .static rfl ht, by simp, hc⟩
  | access ho he => exact .access (hs.scope.obj ho) he
  | @enter v o site callee kind c hd hc =>
      -- the receiver and the edge are added together, with the same context
      have hbase := (hb.mem_invokes.1 hd.use).2.1
      have hordinary := CallKind.isOrdinary_of_ofInvoke? hd.kind
      have hreturns : ∀ call, kind ≠ .lambda call := by
        rintro call rfl
        cases hordinary
      have hreceiver : ∀ o' ∈ some o, s.settled.HasObj o' := by
        rintro _ ⟨⟩
        exact hs.scope.obj hd.points
      have hsite : s.settled.contexts.Has (⟨v.context, site⟩ : QSite).context :=
        hs.scope.var hd.points
      refine ⟨hs.lodged (.inl hd.points), ⟨CallEdge.returns_of_kind hreturns, some o, ?_, hreceiver,
        hc⟩, fun this hthis => .receiver hthis hsite hc⟩
      exact .dispatched hbase hd.points hd.kind hd.target
  | wiring _ _ hf => exact FlowEdge.origin_of_ordinaryWiring hf

end Rules

end PointsTo
