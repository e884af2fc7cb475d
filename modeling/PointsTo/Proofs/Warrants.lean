import PointsTo.Proofs.Origins
import PointsTo.Proofs.ReflectionRequests

/-!
# Requests that have a reason

Plugins ask for objects, contexts and facts.  A request is warranted if what it brings has an
origin, and if what it asks about exists; then the answer can be relied on from then on.  Plugins
that only make warranted requests leave everything with an origin.

Main results:

- {lit}`Request.Warranted`, {lit}`Request.Vouches`: requests with a reason, and what is known of
  their answers; theorem {lit}`Request.Warranted.answer_ok`.
- Theorem {lit}`Service.sustains_of_warranted`: everything keeps having an origin as long as
  plugins ask only for what is warranted.
- Theorems {lit}`MockTable.Keeps.hands`, {lit}`Reflection.Instantiating.warranted`,
  {lit}`Reflection.Invoking.warranted`: the parts that plugins are made of.
-/

namespace PointsTo

variable {env : Setting} {k l : View} {s t : Solver}

/-! ## Requests and answers -/

/-- What is asked for has an origin, and what is asked about exists. -/
def Request.Warranted (env : Setting) (k : View) : Request → Prop
  | .mock x => x.obj.Placed env.program
  | .callContext site receiver => k.contexts.Has site.context ∧ ∀ o ∈ receiver, k.HasObj o
  | .heapContext m => k.contexts.Has m.context
  | .obj i => k.heap.Has i
  | .addPointsTo ptr os =>
      (Addition.points ptr os).Exists k ∧ (Addition.points ptr os).Warranted env k
  | .addFlow e => e.Exists k ∧ e.Origin env k
  | .addCall e => e.Exists k ∧ e.Warranted env k
  | .pointsTo _ | .note _ => True

/-- A pointer refers to an object that exists, under a heap context as its kind asks. -/
structure View.Holds (env : Setting) (k : View) (ptr : Pointer) (o : QObj) : Prop where
  points : k.points ptr o
  obj : k.HasObj o
  lodged : k.Lodges env o

/-- What may be relied on of an answer. -/
def Request.Vouches (env : Setting) (k : View) : (r : Request) → r.Answer → Prop
  | .mock x, i => k.heap.get? i = some x.obj
  | .callContext site receiver, c => k.Selects env site receiver c ∧ k.contexts.Has c
  | .heapContext m, c => k.SelectsHeap env m c ∧ k.contexts.Has c
  | .obj i, x => k.heap.get? i = some x
  | .pointsTo ptr, os => ∀ o ∈ os, k.Holds env ptr o
  | .addPointsTo .., _ | .addFlow _, _ | .addCall _, _ | .note _, _ => True

/-- What a pointer refers to by now it refers to from now on. -/
theorem Solver.Warranted.holds (hs : s.Warranted env) (hk : s.settled.Le k) {ptr : Pointer}
    {o : QObj} (ho : o ∈ s.pointsTo.get ptr) : k.Holds env ptr o := by
  have hobj := hs.scope.obj ho
  exact ⟨hk.points ho, hobj.mono hk, (hs.lodged (.inl ho)).mono hobj hk⟩

/-- What is warranted may be asked for, and its answer can be relied on later. -/
theorem Request.Warranted.answer_ok {r : Request} {answer : r.Answer}
    (hr : r.Warranted env s.settled) (hs : s.Warranted env)
    (h : r.answer env s = .ok answer t) :
    t.Warranted env ∧ ∀ k, t.settled.Le k → r.Vouches env k answer := by
  cases r with
  | mock x =>
      obtain ⟨hadd, hget⟩ := SolverM.internObj_ok env h
      exact ⟨hs.of_adds (a := .object x.obj) trivial hr hadd, fun k hk => hk.heap _ _ hget⟩
  | callContext site receiver =>
      obtain ⟨contexts, rfl, hc⟩ := SolverM.callContext_ok h
      refine ⟨?_, fun k hk => ?_⟩
      · rcases Selector.callContext_cases hc with ⟨w, hw, hi⟩ | ⟨_, rfl⟩
        · exact hs.of_adds (a := .context w) trivial (Selector.admits_wanted hw)
            ⟨answer, contexts, hi, rfl⟩
        · exact hs
      · have hhas := Selector.has_of_callContext hc hr.1 hs.scope.empty
        exact ⟨Selector.callContext_of_grows hc hr.1 hr.2 hk.heap hk.contexts,
          hhas.of_grows hk.contexts⟩
  | heapContext m =>
      obtain ⟨contexts, rfl, hc⟩ := SolverM.heapContext_ok h
      refine ⟨?_, fun k hk => ?_⟩
      · rcases Selector.heapContext_cases hc with ⟨w, hw, hi⟩ | ⟨_, rfl⟩
        · exact hs.of_adds (a := .context w) trivial (Selector.admits_wantedHeap hs.contexts hw)
            ⟨answer, contexts, hi, rfl⟩
        · exact hs
      · have hhas := Selector.has_of_heapContext hc hs.scope.empty
        exact ⟨Selector.heapContext_of_grows hc hr hk.contexts, hhas.of_grows hk.contexts⟩
  | obj i =>
      -- an id outside the table would be read as a default, which is no lasting answer
      simp only [Request.answer, bind_eq_ok, get_eq_ok, pure_eq_ok] at h
      obtain ⟨_, _, ⟨rfl, rfl⟩, rfl, rfl⟩ := h
      obtain ⟨x, hx⟩ : s.heap.Has i := hr
      refine ⟨hs, fun k hk => ?_⟩
      show k.heap.get? i = some (s.heap.get i)
      rw [Heap.get_of_get? hx]
      exact hk.heap _ _ hx
  | pointsTo ptr =>
      simp only [Request.answer, bind_eq_ok, get_eq_ok, pure_eq_ok] at h
      obtain ⟨_, _, ⟨rfl, rfl⟩, rfl, rfl⟩ := h
      exact ⟨hs, fun k hk o ho => hs.holds hk ho⟩
  | addPointsTo ptr os =>
      exact ⟨hs.of_adds (a := .points ptr os) hr.1 hr.2 (modify_eq_ok.1 h), fun _ _ => trivial⟩
  | addFlow e =>
      exact ⟨hs.of_adds (a := .flow e) hr.1 hr.2 (modify_eq_ok.1 h), fun _ _ => trivial⟩
  | addCall e =>
      exact ⟨hs.of_adds (a := .call e) hr.1 hr.2 (modify_eq_ok.1 h), fun _ _ => trivial⟩
  | note line =>
      exact ⟨hs.of_adds (a := .note line) trivial trivial (modify_eq_ok.1 h), fun _ _ => trivial⟩

/-- A conversation asks only for what is warranted. -/
abbrev Service.Warranted (env : Setting) (k : View) {α : Type} (Q : α → Prop) : Service α → Prop :=
  Service.Asks (Request.Warranted env k) (Request.Vouches env k) Q

/-- Plugins that ask only for what is warranted leave everything with an origin. -/
theorem Service.sustains_of_warranted {σ : Type} {P : Plugin σ} {entries : List MethodId}
    {K : View → σ → Prop} (hb : env.program.Built)
    (hP : ∀ {s e p k}, s.Warranted env → e.Holds env s → s.settled.Le k → K k p →
      (P.react env e p).Warranted env k (K k)) :
    P.Sustains env entries (Solver.Warranted env) K (Request.Warranted env)
      (Request.Vouches env) where
  enter := fun hs _ => hs.of_discover hs.scope.empty
  take := fun hs hq => hs.of_take hq
  rule := fun hs ha hadd => hs.of_adds (ha.exists hs.scope) (ha.warranted hb hs) hadd
  react := hP
  answer := fun hs hr h => hr.answer_ok hs h

/-! ## Calls of methods -/

/-- A receiver exists if its object does. -/
theorem View.hasObj_some {o : QObj} (ho : k.HasObj o) : ∀ o' ∈ some o, k.HasObj o' := by
  rintro _ ⟨⟩
  exact ho

/-- What a call of a lambda has captured lies under a context that exists, and the call returns
where its site does. -/
def CallKind.FitsSite (env : Setting) (k : View) (site : QSite) (kind : CallKind) : Prop :=
  ∀ call, kind = .lambda call →
    k.contexts.Has call.lambdaContext ∧ call.result = (env.program.invoke site.item).result

namespace Request

variable {site : QSite} {m : MethodId} {kind : CallKind} {c : ContextId} {o : QObj} {r : Request}

/-- One object may reach a variable, if it exists and has an origin there. -/
theorem warranted_varPointer {v : VarId} (hc : k.contexts.Has c) (ho : k.HasObj o)
    (hlodges : k.Lodges env o) (horigin : Pointer.Origin env k (varPointer c v) o) :
    (addPointsTo (varPointer c v) (.singleton o)).Warranted env k := by
  refine ⟨fun o' ho' => ?_, fun o' ho' => ?_⟩
  · obtain rfl := OrderedSet.mem_singleton.1 ho'
    exact ⟨hc, ho⟩
  · obtain rfl := OrderedSet.mem_singleton.1 ho'
    exact ⟨hlodges, horigin⟩

/-- A method may be run at a call site, if the edge to it has an origin under every context. -/
theorem Runs.warranted {receiver : Option QObj} (hr : Runs (Vouches env k) site receiver m kind r)
    (hsite : k.contexts.Has site.context) (hreceiver : ∀ o ∈ receiver, k.HasObj o)
    (hkind : kind.FitsSite env k site)
    (horigin : ∀ c, CallEdge.Origin env k ⟨site, ⟨c, m⟩, kind⟩ receiver) : r.Warranted env k := by
  cases hr with
  | context => exact ⟨hsite, hreceiver⟩
  | edge hc =>
      exact ⟨⟨hsite, hc.2, fun call hk => (hkind call hk).1⟩,
        fun call hk => (hkind call hk).2, receiver, horigin _, hreceiver, hc.1⟩

/-- A method may be run on an object, under the context that is selected for it. -/
theorem RunsOn.warranted (hr : RunsOn env.program (Vouches env k) site o m kind r)
    (hsite : k.contexts.Has site.context) (ho : k.HasObj o) (hlodges : k.Lodges env o)
    (hkind : kind.FitsSite env k site)
    (horigin : ∀ c, CallEdge.Origin env k ⟨site, ⟨c, m⟩, kind⟩ (some o)) : r.Warranted env k := by
  cases hr with
  | run hr => exact hr.warranted hsite (View.hasObj_some ho) hkind horigin
  | receiver hc hthis => exact warranted_varPointer hc.2 ho hlodges (.receiver hthis hsite hc.1)

end Request

/-! ## Heap contexts of stand-ins -/

namespace View

variable {o : QObj}

/-- A lambda object is lodged under any heap context. -/
theorem lodges_lambda {x : Obj} {site : MockSite} (hi : k.heap.get? o.item = some x)
    (hx : x.kind = .mock .lambda site) : k.Lodges env o := by
  unfold Lodges
  rw [Heap.get_of_get? hi, hx]
  trivial

/-- So is an object that a lambda constructs. -/
theorem lodges_constructed {maker : InvokeId} {type : JavaType}
    (hi : k.heap.get? o.item =
      some (MockTable.standIn env.program .lambdaConstructed maker type)) : k.Lodges env o := by
  unfold Lodges
  rw [Heap.get_of_get? hi]
  trivial

/-- A reflective object is lodged under the heap context of its call site. -/
theorem lodges_reflective {maker : InvokeId} {type : JavaType} {c : ContextId}
    (hi : k.heap.get? o.item = some (MockTable.standIn env.program .reflective maker type))
    (hc : k.contexts.Has c)
    (hsel : k.SelectsHeap env ⟨c, (env.program.invoke maker).container⟩ o.context) :
    k.Lodges env o := by
  unfold Lodges
  rw [Heap.get_of_get? hi]
  exact ⟨_, hc, rfl, hsel⟩

end View

/-! ## Tables of stand-ins -/

/-- A table holds stand-ins of a kind, and its entries are the objects that they say. -/
structure MockTable.Keeps (p : Program) (k : View) (kind : MockKind) (table : MockTable) :
    Prop where
  kind : table.kind = kind
  denotes : table.Denotes p k

/-- A new table has no entries that could be wrong. -/
theorem MockTable.keeps_new {p : Program} (kind : MockKind) : (MockTable.new kind).Keeps p k kind :=
  ⟨rfl, denotes_new kind⟩

section Requests

variable {table table' : MockTable} {kind : MockKind} {i : InvokeId} {type : JavaType} {o : ObjId}

/-- A table hands out the stand-in for a call site and a type. -/
theorem MockTable.Keeps.hands (h : table.Keeps env.program k kind)
    (ho : table.Hands env.program (Request.Vouches env k) i type o) :
    k.heap.get? o = some (standIn env.program kind i type) := by
  obtain ⟨rfl, hdenotes⟩ := h
  rcases ho with ho | ho
  · obtain ⟨_, ⟨⟩, hget⟩ := hdenotes _ _ _ ho
    exact hget
  · exact ho

/-- A table stays right when it is filled. -/
theorem MockTable.Keeps.of_fills {W : InvokeId → Prop} (h : table.Keeps env.program k kind)
    (hfills : table.Fills env.program (Request.Vouches env k) W table') :
    table'.Keeps env.program k kind := by
  refine ⟨hfills.kind.trans h.kind, fun site type i hi => ?_⟩
  rcases hfills.entries _ hi with hi | ⟨j, type', _, hkey, hi⟩
  · obtain ⟨j, rfl, hget⟩ := h.denotes _ _ _ hi
    exact ⟨j, rfl, hfills.kind ▸ hget⟩
  · cases hkey
    exact ⟨j, rfl, hfills.kind ▸ hi⟩

/-- Stand-ins of these kinds may be made at a call site. -/
theorem MockTable.Keeps.warranted_wanted (h : table.Keeps env.program k kind)
    (hkind : kind = .lambdaConstructed ∨ kind = .reflective) :
    (Request.mock (table.wanted env.program i type)).Warranted env k := by
  obtain ⟨rfl, -⟩ := h
  unfold wanted
  rcases hkind with hkind | hkind <;> rw [hkind] <;> rfl

/-! ## Reflective allocation and invocation -/

namespace Reflection

variable {site : QSite} {r : Request}

/-- Reflective calls capture nothing. -/
theorem fitsSite_reflective {call : ReflectiveCall} :
    CallKind.FitsSite env k site (.reflective call) :=
  fun _ h => by cases h

/-- An object may be made at a call, and a constructor run on it. -/
theorem Instantiating.warranted {constructor? : Option MethodId} {call : ReflectiveCall}
    (hr : Instantiating env.program (Request.Vouches env k) table site type constructor? call r)
    (hsite : k.contexts.Has site.context) (hapi : call.api ≠ .methodInvoke)
    (htable : table.Keeps env.program k .reflective) : r.Warranted env k := by
  cases hr with
  | make => exact htable.warranted_wanted (.inr rfl)
  | heapContext => exact hsite
  | result hi hh hw =>
      have hget := htable.hands hi
      exact Request.warranted_varPointer hsite ⟨hh.2, _, hget⟩
        (View.lodges_reflective hget hsite hh.1) (.result hw)
  | run hi hh _ _ hr =>
      have hget := htable.hands hi
      exact hr.warranted hsite ⟨hh.2, _, hget⟩ (View.lodges_reflective hget hsite hh.1)
        fitsSite_reflective fun c => .made rfl hapi hget hh.1

/-- A method may be invoked at a call on what the first argument of the call refers to. -/
theorem Invoking.warranted {target : MethodId} {O : QObj → Prop} {args : Option VarId}
    (hr : Invoking env.program (Request.Vouches env k) site target O args r)
    (hsite : k.contexts.Has site.context)
    (hreceivers : ∀ o, O o → ∃ v ∈ (env.program.invoke site.item).args.head?,
      k.Holds env (varPointer site.context v) o) : r.Warranted env k := by
  cases hr with
  | static _ hstatic hr =>
      exact hr.warranted hsite (by simp) fitsSite_reflective
        fun c => .invokedStatic rfl rfl hstatic
  | look ho =>
      obtain ⟨_, _, hholds⟩ := hreceivers _ ho
      exact hholds.obj.2
  | @run o x m _ _ _ ho hx hm hr =>
      obtain ⟨v, hv, hpoints, hobj, hlodges⟩ := hreceivers _ ho
      have hm' : invokedOn? env.program target (k.heap.typeOf o.item) = some m := by
        rwa [Heap.typeOf, Heap.get_of_get? hx]
      exact hr.warranted hsite hobj hlodges fitsSite_reflective
        fun c => .invoked rfl rfl hv hpoints hm'

end Reflection

end Requests

end PointsTo
