import PointsTo.Proofs.Interruptions
import PointsTo.Proofs.LambdaBounds
import PointsTo.Proofs.LambdaRequests
import PointsTo.Proofs.PluginPrecedence
import PointsTo.Proofs.Warrants

/-!
# The provided plugins have reasons for what they ask

A lambda is called as its call site and the call site that made it say, and a call by reflection is
made as the values of its arguments say.  So whatever the plugins that come with the library ask
for has an origin, and so has everything in a state that a run gets into.

Main results:

- {lit}`Lambda.State.Warranted`, {lit}`Reflection.State.Warranted`: what the plugins remember.
- Theorem {lit}`Lambda.origin_of_wiring`: flow along a lambda edge has an origin.
- Theorem {lit}`Member.warranted_react`: a reaction asks only for what is warranted.
- Theorem {lit}`Analysis.warranted_of_attains`: in every state of a run everything has an origin,
  and what the plugins remember is right.
-/

namespace PointsTo

open Service Reflection

variable {env : Setting} {p : Program} {k : View} {s : Solver}

/-! ## Lambdas -/

namespace Lambda

/-- A call on a lambda that refers to an instance method waits on the variable that provides its
receiver. -/
structure PendingCall.Warranted (env : Setting) (k : View) (v : QVar) (r : PendingCall) :
    Prop where
  site : k.contexts.Has r.site.context
  call : ∃ maker handle, CallsOn env k r.site maker handle r.call ∧
    r = ⟨r.site, handle.kind, handle.target, r.call⟩
  kind : r.kind ∈ [HandleKind.invokeVirtual, .invokeInterface, .invokeSpecial]
  receiver : receiverVar? r.call.captured (env.program.invoke r.site.item).args
    r.call.lambdaContext r.site.context = some v

/-- What the plugin remembers is right. -/
structure State.Warranted (env : Setting) (k : View) (st : State) : Prop where
  created : ∀ {m i o}, (m, i, o) ∈ st.created →
    ∃ x, k.heap.get? o = some x ∧ x.kind = .mock .lambda (.invoke i)
  constructed : st.constructed.Keeps env.program k .lambdaConstructed
  pending : ∀ {v r}, st.Waits v r → r.Warranted env k v

/-- The plugin begins with nothing that could be wrong. -/
theorem State.warranted_new : State.Warranted env k {} :=
  ⟨fun h => absurd h List.not_mem_nil, MockTable.keeps_new _,
    fun h => absurd h (OrderedSet.not_mem_empty _)⟩

variable {st : State} {site : QSite} {call : LambdaCall} {maker : InvokeId}
  {handle : MethodHandle}

/-- A lambda object lies under a context that exists. -/
theorem CallsOn.lambda (h : CallsOn env k site maker handle call) :
    k.contexts.Has call.lambdaContext := by
  obtain ⟨_, _, o, _, hobj, hlambda, _⟩ := h.on
  rw [hlambda]
  exact hobj.1

/-- The flow along a lambda edge has an origin. -/
theorem origin_of_wiring {e : CallEdge} (he : k.call e) (hk : e.kind = .lambda call)
    (hreturns : e.Returns env.program) {f : FlowEdge} (hf : f ∈ wiring env.program e call) :
    f.Origin env k := by
  cases mem_wiring.1 hf with
  | receiver hreceivers _ hthis =>
      exact .receiver he hk (not_constructor_of_receivers hreceivers) hthis rfl
  | param _ hparam => exact .param (List.mem_of_getElem? hparam) rfl
  | result hr => exact .result ((hreturns call hk).symm.trans hr) rfl

/-! ### What is asked for -/

section Requests

variable {r : Request}

/-- What a call on a lambda has captured exists, and the call returns where its site does. -/
theorem CallsOn.fitsSite (h : CallsOn env k site maker handle call) :
    CallKind.FitsSite env k site (.lambda call) := by
  rintro _ ⟨⟩
  exact ⟨h.lambda, h.result⟩

/-- What fits an object that the base of a call refers to is called on that object. -/
theorem Calls.on {o : QObj} {base : VarId} {c : ContextId} {i : InvokeId}
    (h : Calls env.program (Request.Vouches env k) o i maker handle call) (ho : k.HasObj o)
    (hbase : base ∈ (env.program.invoke i).base) (hpoints : k.points (varPointer c base) o) :
    CallsOn env k ⟨c, i⟩ maker handle call := by
  obtain ⟨⟨x, hx, hfits⟩, rfl⟩ := h
  rw [← Heap.get_of_get? hx] at hfits
  exact ⟨rfl, rfl, base, hbase, o, hpoints, ho, rfl, hfits⟩

/-- A call that waits may be run on each object that its receiver refers to. -/
theorem Resolving.warranted {v : QVar} {waiting : PendingCall}
    (hr : Resolving env.program (Request.Vouches env k) v waiting r)
    (hwaiting : waiting.Warranted env k v) : r.Warranted env k := by
  cases hr with
  | receivers => trivial
  | look hos ho => exact (hos _ ho).obj.2
  | @run os o x m _ hos ho hx hm hr =>
      obtain ⟨hpoints, hobj, -⟩ := hos o ho
      -- the call may have waited for long, but what it is made of has not changed
      obtain ⟨maker, handle, hcall, hsame⟩ := hwaiting.call
      have hkind : handle.kind ∈ [HandleKind.invokeVirtual, .invokeInterface, .invokeSpecial] := by
        have hkind := hwaiting.kind
        rwa [hsame] at hkind
      have htarget : pendingTarget? env.program
          ⟨waiting.site, handle.kind, handle.target, waiting.call⟩ (k.heap.typeOf o.item) =
            some m := by
        rw [← hsame, Heap.typeOf, Heap.get_of_get? hx]
        exact hm
      exact hr.warranted hwaiting.site (View.hasObj_some hobj) hcall.fitsSite
        fun c => .pending rfl hcall hkind hwaiting.receiver hpoints htarget

/-- The method of a handle may be run as its kind says. -/
theorem Handling.warranted (hr : Handling env (Request.Vouches env k) st maker site handle call r)
    (hst : st.Warranted env k) (hsite : k.contexts.Has site.context)
    (hcall : CallsOn env k site maker handle call) : r.Warranted env k := by
  cases hr with
  | construct hkind hr =>
      cases hr with
      | make => exact hst.constructed.warranted_wanted (.inl rfl)
      | result hi hv =>
          -- the new object lies under the context of the caller itself, not under a selected one
          have hget := hst.constructed.hands hi
          exact Request.warranted_varPointer hsite ⟨hsite, _, hget⟩
            (View.lodges_constructed hget) (.result hv)
      | run hi hm hr =>
          have hget := hst.constructed.hands hi
          exact hr.warranted hsite ⟨hsite, _, hget⟩ (View.lodges_constructed hget) hcall.fitsSite
            fun c => .construction rfl hcall hkind hm hget
  | static hkind hm hr =>
      exact hr.warranted hsite (by simp) hcall.fitsSite fun c => .handle rfl hcall hkind hm
  | resolve hkind hv hr =>
      exact hr.warranted ⟨hsite, ⟨maker, handle, hcall, rfl⟩, hkind, hv⟩

/-- What is remembered stays right when the method of a handle was run. -/
theorem State.Warranted.of_handled {st' : State} (hst : st.Warranted env k)
    (hst' : Handled env (Request.Vouches env k) st maker site handle call st')
    (hsite : k.contexts.Has site.context) (hcall : CallsOn env k site maker handle call) :
    st'.Warranted env k := by
  cases hst' with
  | same => exact hst
  | constructed htable => exact ⟨hst.created, hst.constructed.of_fills htable, hst.pending⟩
  | waiting hkind hv =>
      refine ⟨hst.created, hst.constructed, fun hmem => ?_⟩
      rcases Waitlist.mem_register.1 hmem with heq | hmem
      · cases heq
        exact ⟨hsite, ⟨maker, handle, hcall, rfl⟩, hkind, hv⟩
      · exact hst.pending hmem

/-- A call site that makes lambdas is known by the id that it says. -/
theorem invoke_id_of_dynamic (hp : p.Numbered) {i : InvokeId} {d : DynamicCall}
    (hd : (p.invoke i).dynamic = some d) : (p.invoke i).id = i :=
  (hp.invoke_cases i).resolve_right fun hdefault => by
    rw [hdefault] at hd
    cases hd

end Requests

/-! ### Reactions -/

section Reactions

variable (hb : env.program.Built) (hs : s.Warranted env) {e : Event} (he : e.Holds env s)
  (hk : s.settled.Le k) (hst : st.Warranted env k)

include hb he hk

/-- A call that was left open is one on an object that the base of its site refers to. -/
theorem callsOn_of_unresolved {o : QObj} {c : ContextId} {i : InvokeId}
    (hevent : e = .unresolved o c i)
    (hcalls : Calls env.program (Request.Vouches env k) o i maker handle call) :
    k.contexts.Has c ∧ CallsOn env k ⟨c, i⟩ maker handle call := by
  subst hevent
  obtain ⟨⟨v, rfl, hpoints, huse⟩, hc, ho, -⟩ := he
  exact ⟨hc.of_grows hk.contexts,
    hcalls.on (ho.mono hk) (hb.mem_invokes.1 huse).2.1 (hk.points hpoints)⟩

include hst

/-- What is remembered after a reaction is right. -/
theorem State.Warranted.of_became {st' : State}
    (hst' : Became env (Request.Vouches env k) st e st') : st'.Warranted env k := by
  cases hst' with
  | same => exact hst
  | created hcreated =>
      refine ⟨fun hmem => ?_, hst.constructed, hst.pending⟩
      rcases List.mem_append.1 hmem with hmem | hmem
      · exact hst.created hmem
      · obtain ⟨call, _, d, _, _, _, rfl, hget⟩ := hcreated _ hmem
        exact ⟨_, hget, rfl⟩
  | handled hcalls hst' =>
      obtain ⟨hc, hcall⟩ := callsOn_of_unresolved hb he hk rfl hcalls
      exact hst.of_handled hst' hc hcall

include hs

/-- A reaction asks only for what is warranted. -/
theorem Asked.warranted {r : Request} (hr : Asked env (Request.Vouches env k) st e r) :
    r.Warranted env k := by
  cases hr with
  | @create m call d hcall hd _ =>
      obtain ⟨i, hi, rfl⟩ := Program.mem_invokesIn.1 hcall
      refine ⟨m, rfl, ?_⟩
      rwa [invoke_id_of_dynamic hb.numbered hd]
  | assign hmem hresult =>
      obtain ⟨x, hx, hkind⟩ := hst.created hmem
      have hc := he.2.of_grows hk.contexts
      exact Request.warranted_varPointer hc ⟨hc, x, hx⟩ (View.lodges_lambda hx hkind)
        (.result hresult)
  | look =>
      obtain ⟨_, _, ho, _⟩ := he
      exact (ho.mono hk).2
  | handle hcalls hr =>
      obtain ⟨hc, hcall⟩ := callsOn_of_unresolved hb he hk rfl hcalls
      exact hr.warranted hst hc hcall
  | wake hmem hr => exact hr.warranted (hst.pending hmem)
  | wire hkind hf =>
      have hexists := exists_of_wiring (hs.scope.call (.inl he)) hkind hf
      exact ⟨hexists.mono hk, origin_of_wiring (hk.call he) hkind (hs.calls (.inl he)).returns hf⟩

/-- A reaction asks only for what is warranted, and remembers what is right. -/
theorem warranted_react : (react env e st).Warranted env k (State.Warranted env k) :=
  (asks_react e).imp (fun _ hr => hr.warranted hb hs he hk hst)
    fun _ hst' => hst.of_became hb he hk hst'

end Reactions

end Lambda

/-! ## Reflection -/

namespace Reflection

variable {st : State} {v : QVar} {delta : ObjSet} {call : Invoke}

/-! ### What is remembered -/

/-- The model of a log waits on receivers, and keeps the objects that it has made. -/
structure LogModel.Warranted (p : Program) (k : View) (m : LogModel) : Prop where
  receivers : ∀ {v x}, (v, x) ∈ m.receivers.pairs → v ∈ (p.invoke x.1).args.head?
  made : m.made.Keeps p k .reflective

/-- The model of actions looks at the base and at the first argument of a call, and keeps the
objects that it has made. -/
structure ActionModel.Warranted (p : Program) (k : View) (m : ActionModel) : Prop where
  relevant : ∀ {v x}, (v, x) ∈ m.relevant.pairs →
    v ∈ (p.invoke x.1).base ∨ v ∈ (p.invoke x.1).args.head?
  made : m.made.Keeps p k .reflective

/-- What the plugin remembers is right. -/
structure State.Warranted (p : Program) (k : View) (st : State) : Prop where
  log : ∀ m ∈ st.log, m.Warranted p k
  actions : st.actions.Warranted p k
  argArrays : ∀ {v m}, (v, m) ∈ st.argArrays.pairs → k.contexts.Has m.context

/-- Offering a call leaves all that is remembered right. -/
theorem State.Warranted.offer (h : st.Warranted p k) (hcall : p.invoke call.id = call) :
    (st.offer call).Warranted p k where
  log := by
    intro m' hm'
    obtain ⟨m, hm, rfl⟩ := (st.offered call).of_log hm'
    exact ⟨(h.log m hm).receivers, (h.log m hm).made⟩
  actions := by
    refine ⟨fun hmem => ?_, ?_⟩
    · rcases (st.offered call).actions _ hmem with hmem | ⟨_, hwatch, _⟩
      · exact h.actions.relevant hmem
      · rw [hwatch.site, hcall]
        exact hwatch.place
    · rw [(st.offered call).made]
      exact h.actions.made
  argArrays := by
    rw [(st.offered call).argArrays]
    exact h.argArrays

/-- The plugin begins with nothing but the log. -/
theorem State.warranted_of_new {o : Options} {files : Files} (h : State.new o p files = .ok st) :
    st.Warranted p k := by
  obtain ⟨hread, hst⟩ := State.eq_of_new h
  have hlog : ∀ m ∈ st.log, m.Warranted p k := by
    intro m hm
    obtain ⟨_, hofLog⟩ := ofLog_of_readLog hread m hm
    obtain ⟨_, _, rfl⟩ := LogModel.eq_of_ofLog hofLog
    exact ⟨fun hmem => absurd hmem (OrderedSet.not_mem_empty _), MockTable.keeps_new _⟩
  have hactions : ActionModel.Warranted p k {} :=
    ⟨fun hmem => absurd hmem (OrderedSet.not_mem_empty _), MockTable.keeps_new _⟩
  have hnone : ∀ {v m}, (v, m) ∈ ({} : State).argArrays.pairs → k.contexts.Has m.context :=
    fun hmem => absurd hmem (OrderedSet.not_mem_empty _)
  rcases hst with hst | hst <;> rw [hst] <;> exact ⟨hlog, hactions, hnone⟩

/-! ### Meta objects -/

/-- The stand-ins that are the same wherever they are made. -/
inductive IsMeta : MockObj → Prop
  | cls (t : JavaType) : IsMeta (classMeta t)
  | method (m : MethodId) : IsMeta (methodMeta m)
  | constructor (m : MethodId) : IsMeta (constructorMeta m)

/-- A meta object is contained in no method. -/
theorem IsMeta.placed {x : MockObj} (h : IsMeta x) : x.obj.Placed p := by
  cases h <;> rfl

/-- A meta object lies under the empty context. -/
theorem IsMeta.lodges {x : MockObj} (h : IsMeta x) {i : ObjId} (hi : k.heap.get? i = some x.obj) :
    k.Lodges env ⟨emptyContext, i⟩ := by
  unfold View.Lodges
  rw [Heap.get_of_get? hi]
  cases h <;> rfl

/-- What the model of classes yields are meta objects. -/
theorem isMeta_of_yields {api : Api} {receiver : Obj} {x : MockObj}
    (hx : x ∈ ClassModel.yields p api receiver) : IsMeta x := by
  rcases ClassModel.of_mem_yields hx with rfl | ⟨_, m, _, rfl⟩
  · exact .cls _
  · exact .constructor m

/-! ### What is asked for -/

section Requests

variable {r : Request} {c : ContextId} {claim : Claim}

/-- A meta object may be the result of a call. -/
theorem Presenting.warranted {x : MockObj} {i : InvokeId} {result : VarId}
    (hr : Presenting (Request.Vouches env k) c result x r) (hx : IsMeta x)
    (hempty : k.contexts.Has emptyContext) (hc : k.contexts.Has c)
    (hresult : (env.program.invoke i).result = some result) : r.Warranted env k := by
  cases hr with
  | make => exact hx.placed
  | result hi =>
      exact Request.warranted_varPointer hc ⟨hempty, _, hi⟩ (hx.lodges hi) (.result hresult)

/-- What is seen of a variable is what it refers to. -/
theorem Reads.holds {w : VarId} {o : QObj} (h : Reads (Request.Vouches env k) v delta w o)
    (hdelta : ∀ o ∈ delta, k.Holds env (.var v) o) :
    k.Holds env (varPointer v.context w) o := by
  rcases h with ⟨rfl, ho⟩ | ⟨os, hos, ho⟩
  · exact hdelta o ho
  · exact hos o ho

/-- What is seen when methods are invoked is what the base and the variable of the receivers refer
to.  If these are the same, that has to be the variable that has changed. -/
theorem ActionModel.Meets.holds {base w : VarId} {receiver : Option VarId} {o : QObj}
    (h : Meets (Request.Vouches env k) v delta base receiver w o)
    (hdelta : ∀ o ∈ delta, k.Holds env (.var v) o) (hw : w = base ∨ w ∈ receiver)
    (hboth : receiver = some base → v.item = base) :
    k.Holds env (varPointer v.context w) o := by
  rcases h with ⟨hsame, os, hos, ho⟩ | ⟨_, hreads⟩
  · obtain rfl : w = base := hw.elim id fun h => Option.some.inj (h.symm.trans hsame)
    rw [← hboth hsame]
    exact hos o ho
  · exact hreads.holds hdelta

section Grown

variable (hempty : k.contexts.Has emptyContext) (hv : k.contexts.Has v.context)
  (hdelta : ∀ o ∈ delta, k.Holds env (.var v) o)

include hv hdelta

/-- The model of classes hands meta objects to the results of calls. -/
theorem ClassModel.Asked.warranted {m : ClassModel} (hempty : k.contexts.Has emptyContext)
    (hr : m.Asked env.program (Request.Vouches env k) v delta r) : r.Warranted env k := by
  cases hr with
  | look ho => exact (hdelta _ ho).obj.2
  | yield _ hresult _ _ hmade hr =>
      exact hr.warranted (isMeta_of_yields hmade) hempty hv hresult

/-- So does the model of strings. -/
theorem StringModel.Asked.warranted {m : StringModel} (hempty : k.contexts.Has emptyContext)
    (hr : m.Asked env.program (Request.Vouches env k) v delta r) : r.Warranted env k := by
  cases hr with
  | lookNew ho => exact (hdelta _ ho).obj.2
  | read => trivial
  | look _ _ ho => exact (ho.holds hdelta).obj.2
  | cls _ hresult _ _ _ hr => exact hr.warranted (.cls _) hempty hv hresult
  | method _ hresult _ hr => exact hr.warranted (.method _) hempty hv hresult

/-- The model of actions makes objects at calls, and invokes methods on what their first arguments
refer to. -/
theorem ActionModel.Asked.warranted {m : ActionModel}
    (hr : m.Asked env.program (Request.Vouches env k) v delta r) (hp : env.program.Numbered)
    (hm : m.Warranted env.program k) : r.Warranted env k := by
  -- the variable that has changed is the base of the call or that of its receivers
  have hboth : ∀ {i api base}, (v.item, (i, api)) ∈ m.relevant.pairs →
      (env.program.invoke i).base = some base →
      (env.program.invoke i).args.head? = some base → v.item = base := by
    intro i api base hmem hbase hhead
    rcases hm.relevant hmem with h | h
    · exact Option.some.inj (h.symm.trans hbase)
    · exact Option.some.inj (h.symm.trans hhead)
  cases hr with
  | lookNew ho => exact (hdelta _ ho).obj.2
  | make _ _ _ hproduct hr => exact hr.warranted hv (api_of_product? hproduct) hm.made
  | readAll | read => trivial
  | look hmem hbase ho => exact (ho.holds hdelta (.inl rfl) (hboth hmem hbase)).obj.2
  | @invoke i api base _ _ _ _ hmem _ hbase _ _ _ hr =>
      have hid : (env.program.invoke i).id = i :=
        hp.invoke_id (v := base) (by simp [Program.mentioned, hbase])
      rw [hid] at hr
      refine hr.warranted hv fun o => ?_
      rintro ⟨w, hw, hmeets⟩
      exact ⟨w, hw, hmeets.holds hdelta (.inr hw) (hboth hmem hbase)⟩

/-- The log invokes methods on what the first argument of a covered call refers to. -/
theorem LogModel.Asked.warranted {m : LogModel}
    (hr : m.Asked env.program (Request.Vouches env k) v delta r)
    (hm : m.Warranted env.program k) : r.Warranted env k := by
  obtain ⟨i, target, hmem, hr⟩ := hr
  exact hr.warranted hv fun o ho => ⟨v.item, hm.receivers hmem, hdelta o ho⟩

end Grown

/-- A covered call may do what the log says. -/
theorem LogModel.Acting.warranted {table : MockTable}
    (hr : LogModel.Acting env.program (Request.Vouches env k) table c claim r)
    (hempty : k.contexts.Has emptyContext) (hc : k.contexts.Has c)
    (htable : table.Keeps env.program k .reflective) : r.Warranted env k := by
  cases hr with
  | present _ _ hresult hr => exact hr.warranted (.cls _) hempty hc hresult
  | ofClass _ _ hr => exact hr.warranted hc (by simp) htable
  | byConstructor _ _ hr => exact hr.warranted hc (by simp) htable
  | receivers => trivial
  | invoke _ _ hr =>
      refine hr.warranted hc fun o => ?_
      rintro ⟨receiver, hreceiver, os, hos, ho⟩
      exact ⟨receiver, hreceiver, hos o ho⟩

/-- The elements of an array may flow to the parameters of a method. -/
theorem Forwarding.warranted {callee : QMethod}
    (hr : Forwarding env.program (Request.Vouches env k) v callee r)
    (hcallee : k.contexts.Has callee.context) : r.Warranted env k := by
  cases hr with
  | arrays => trivial
  | look hos ho => exact (hos _ ho).obj.2
  | pass hos ho _ _ hf =>
      obtain ⟨⟨param, type⟩, hmem, rfl⟩ := List.mem_map.1 hf
      have hparam := (List.of_mem_zip (List.mem_filter.1 hmem).1).1
      exact ⟨⟨(hos _ ho).obj, hcallee⟩, .param hparam rfl⟩

/-- The log model stays right when it becomes another one. -/
theorem LogModel.Warranted.of_becomes {C : Claim → Prop} {m m' : LogModel}
    (hm : m.Warranted env.program k)
    (hm' : m.Becomes env.program (Request.Vouches env k) C m') : m'.Warranted env.program k := by
  refine ⟨?_, hm.made.of_fills hm'.made⟩
  rintro v ⟨i, target⟩ hmem
  rcases hm'.receivers v i target hmem with hmem | ⟨_, _, _, _, _, hhead⟩
  · exact hm.receivers hmem
  · exact hhead

end Requests

/-! ### Reactions -/

section Reactions

variable (hp : env.program.Numbered) (hs : s.Warranted env) {e : Event} (he : e.Holds env s)
  (hk : s.settled.Le k) (hst : st.Warranted env.program k)

include hp hs he hk hst

/-- A reaction asks only for what is warranted. -/
theorem Asked.warranted {r : Request} (hr : Asked env.program (Request.Vouches env k) st e r) :
    r.Warranted env k := by
  have hempty := hs.scope.empty.of_grows hk.contexts
  cases hr with
  | act hm _ hr => exact hr.warranted hempty (he.2.of_grows hk.contexts) (hst.log _ hm).made
  | pass _ _ hr => exact hr.warranted ((hs.scope.call (.inl he)).callee.of_grows hk.contexts)
  | result _ hf =>
      have hexists := hs.scope.call (.inl he)
      have hf := (mem_resultEdges.1 hf).2
      exact ⟨(exists_of_returnEdges hf hexists.site hexists.callee).mono hk,
        FlowEdge.origin_of_returnEdges hf rfl⟩
  | wake hmem hr => exact hr.warranted (hst.argArrays hmem)
  | @grown v delta _ hr =>
      have hv := he.1.of_grows hk.contexts
      have hdelta : ∀ o ∈ delta, k.Holds env (.var v) o := fun o ho => hs.holds hk (he.2.1 o ho)
      cases hr with
      | log hm hr => exact hr.warranted hv hdelta (hst.log _ hm)
      | classes hr => exact hr.warranted hv hdelta hempty
      | strings _ hr => exact hr.warranted hv hdelta hempty
      | actions hr => exact hr.warranted hv hdelta hp hst.actions

omit hp in
/-- What is remembered after a reaction is right. -/
theorem State.Warranted.of_became (hp : env.program.Numbered) {st' : State}
    (hst' : Became env.program (Request.Vouches env k) st e st') :
    st'.Warranted env.program k := by
  cases hst' with
  | same => exact hst
  | offered => exact State.offerAll_rec hp hst (fun _ _ hcall hst => hst.offer hcall) _
  | acted hm hbecomes =>
      refine ⟨?_, hst.actions, hst.argArrays⟩
      rintro _ ⟨⟩
      exact (hst.log _ hm).of_becomes hbecomes
  | passed =>
      refine ⟨hst.log, hst.actions, fun hmem => ?_⟩
      rcases Waitlist.mem_register.1 hmem with heq | hmem
      · cases heq
        exact (hs.scope.call (.inl he)).callee.of_grows hk.contexts
      · exact hst.argArrays hmem
  | grown _ htable =>
      exact ⟨hst.log, ⟨hst.actions.relevant, hst.actions.made.of_fills htable⟩, hst.argArrays⟩

/-- A reaction asks only for what is warranted, and remembers what is right. -/
theorem warranted_react :
    (react env e st).Warranted env k (State.Warranted env.program k) :=
  (asks_react e).imp (fun _ hr => hr.warranted hp hs he hk hst)
    fun _ hst' => hst.of_became hs he hk hp hst'

end Reactions

end Reflection

/-! ## Members -/

namespace Member

/-- A member that comes with the library, and remembers what is right. -/
def Warranted (env : Setting) (k : View) : Member → Prop
  | lambda st => st.Warranted env k
  | reflection st => st.Warranted env.program k
  | script _ => False

/-- A reaction asks only for what is warranted. -/
theorem warranted_react {m : Member} (hb : env.program.Built) (hs : s.Warranted env)
    {e : Event} (he : e.Holds env s) (hk : s.settled.Le k) (hm : m.Warranted env k) :
    (plugin.react env e m).Warranted env k (Warranted env k) := by
  cases m with
  | lambda st => exact Asks.bind (Lambda.warranted_react hb hs he hk hm) fun _ h => h
  | reflection st =>
      exact Asks.bind (Reflection.warranted_react hb.numbered hs he hk hm) fun _ h => h
  | script s => exact hm.elim

end Member

/-! ## Analyses -/

/-- Everything in a machine has an origin, and its plugins remember what is right. -/
structure Machine.Warranted (env : Setting) (m : Machine Member) : Prop where
  solver : m.solver.Warranted env
  plugins : ∀ x ∈ m.plugins, x.Warranted env m.solver.settled

/-- In every state that a run gets into everything has an origin. -/
theorem Analysis.warranted_of_attains {a : Analysis} {files : Files} {entries : List MethodId}
    {m : Machine Member} (hb : p.Built) (hextra : a.extra = [])
    (h : a.Attains p files entries m) : m.Warranted (a.setting p) := by
  refine h.keeps ?_ fun m w rest hq hm => ⟨hm.solver.counted hq _, hm.plugins⟩
  rintro m ⟨members, hmembers, talk, hoccurs⟩
  have hbuilt : (a.setting p).program.Built := hb
  have hstart : ∀ k, ∀ x ∈ members, x.Warranted (a.setting p) k := by
    intro k x hx
    rcases Analysis.members_cases hmembers hx with rfl | ⟨st, hst, rfl⟩ | hx
    · exact Lambda.State.warranted_new
    · exact State.warranted_of_new hst
    · rw [hextra] at hx
      exact absurd hx List.not_mem_nil
  have hsustains : Member.plugin.Sustains (a.setting p) entries
      (Solver.Warranted (a.setting p)) (Member.Warranted (a.setting p))
      (Request.Warranted (a.setting p)) (Request.Vouches (a.setting p)) :=
    sustains_of_warranted hbuilt fun hs he hk hm =>
      Member.warranted_react hbuilt hs he hk hm
  have hheld := hoccurs.sustains hsustains .new hstart (.refl _)
  exact ⟨hheld.solver, hheld.plugins⟩

end PointsTo
