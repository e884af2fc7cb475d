import PointsTo.Proofs.Conversations
import PointsTo.Proofs.LambdaEdges

/-!
# What the plugin for lambdas does

Every reaction of the plugin for lambdas, with what it achieves for the call that it
reacts to: a call on a lambda object is performed at once where the method is known,
and registered where it depends on a receiver.

Main results:

- {lit}`Resolved`: a registered call has been resolved on an object of its receiver.
- {lit}`Performs`: a call on a lambda object runs what the handle says.
- Theorems {lit}`resolvePending_ok`, {lit}`callOn_ok`, {lit}`wake_ok`: the reactions.
- Theorem {lit}`honest`: the plugin keeps to the rules.
-/

namespace PointsTo.Lambda

variable {env : Setting} {s t : Solver} {k l : View}

/-! ## Calls that wait -/

/-- There is a reason to act where a call waits, and it carries a context that exists and
its own result. -/
structure PendingCall.Sound (p : Program) (k : View) (r : PendingCall) : Prop where
  site : k.Acting p r.site
  lambda : k.contexts.Has r.call.lambdaContext
  result : r.call.result = (p.invoke r.site.item).result

/-- A call that waits stays right while a view grows. -/
theorem PendingCall.Sound.mono {p : Program} {r : PendingCall} (h : r.Sound p k)
    (hle : k.Le l) : r.Sound p l :=
  ⟨h.site.mono hle, h.lambda.of_grows hle.contexts, h.result⟩

/-- A waiting call has been resolved on an object: if there is a method to run, a lambda
edge leads to it under the context selected for the object. -/
def Resolved (env : Setting) (k : View) (r : PendingCall) (o : QObj) : Prop :=
  ∀ m, pendingTarget? env.program r (k.heap.typeOf o.item) = some m →
    k.Runs env r.site (some o) m (.lambda r.call)

/-- A call that was resolved on an object stays so. -/
theorem Resolved.mono {r : PendingCall} {o : QObj} (h : Resolved env k r o)
    (hr : r.Sound env.program k) (ho : k.HasObj o) (hle : k.Le l) : Resolved env l r o := by
  intro m hm
  rw [Heap.typeOf_of_grows ho.2 hle.heap] at hm
  refine (h m hm).mono hr.site.context ?_ hle
  rintro _ ⟨⟩
  exact ho

/-- A waiting call is resolved on one object. -/
private theorem resolveOn_ok {r : PendingCall} {o : QObj}
    (h : (do
      let obj ← Service.obj o.item
      match pendingTarget? env.program r obj.type with
      | some m => do
        let target ← Service.callContext r.site (some o)
        Service.addCall ⟨r.site, ⟨target, m⟩, .lambda r.call⟩
      | none => pure () : Service Unit).run env s = .ok ⟨⟩ t)
    (hempty : s.contexts.Has emptyContext) (hr : r.Sound env.program s.settled)
    (ho : s.settled.HasObj o) :
    s.Evolves env.program (PluginRule env) t ∧ Resolved env t.expected r o := by
  simp only [Service.bind_eq, Service.run_bind, bind_eq_ok, Service.obj_eq_ok] at h
  obtain ⟨_, _, ⟨rfl, rfl⟩, h⟩ := h
  cases hm : pendingTarget? env.program r (s.heap.typeOf o.item) with
  | none =>
      simp only [Heap.typeOf] at hm
      simp only [hm, Service.pure_eq, Service.run_done, pure_eq_ok] at h
      obtain ⟨_, rfl⟩ := h
      refine ⟨.refl _, ?_⟩
      intro m hm'
      exact absurd (hm.symm.trans hm') (by simp)
  | some m =>
      have hm' := hm
      simp only [Heap.typeOf] at hm'
      simp only [hm', Service.run_bind, bind_eq_ok] at h
      obtain ⟨c, u, hselect, hcall⟩ := h
      obtain ⟨hevolves, hruns⟩ := Service.runs_ok hselect hcall hempty hr.site (by
          rintro _ ⟨⟩
          exact ho) (by
          rintro call ⟨⟩
          exact ⟨hr.lambda, hr.result⟩)
      refine ⟨hevolves, ?_⟩
      intro m' hm''
      rw [Heap.typeOf_of_grows ho.2 hevolves.extends.expected.heap] at hm''
      obtain rfl := Option.some.inj (hm.symm.trans hm'')
      exact hruns

/-- A waiting call is resolved on every object of a set. -/
theorem resolvePending_ok {r : PendingCall} {os : ObjSet} {x : Unit}
    (h : (resolvePending env r os).run env s = .ok x t) (hempty : s.contexts.Has emptyContext)
    (hr : r.Sound env.program s.settled) (hos : ∀ o ∈ os, s.settled.HasObj o) :
    s.Evolves env.program (PluginRule env) t ∧ ∀ o ∈ os, Resolved env t.expected r o := by
  simp only [resolvePending, Service.run_forM] at h
  have hresolved : ∀ {o} {u v : Solver}, o ∈ os.toList → s.Evolves env.program (PluginRule env) u →
      _ → u.Evolves env.program (PluginRule env) v ∧ Resolved env v.expected r o :=
    fun ho hsu huv => resolveOn_ok huv (hempty.of_grows hsu.accretes.contexts)
      (hr.mono hsu.extends.settled) ((hos _ ho).mono hsu.extends.settled)
  obtain ⟨hevolves, hall⟩ := forM_rel (R := Solver.Evolves env.program (PluginRule env)) .refl
    .trans h fun o ho _ _ hsu huv => (hresolved ho hsu huv).1
  refine ⟨hevolves, ?_⟩
  intro o ho
  obtain ⟨u, v, hsu, huv, hvt⟩ := hall o ho
  obtain ⟨huv, hv⟩ := hresolved ho hsu huv
  have hle := (Solver.settled_le_expected s).trans (hsu.trans huv).extends.expected
  exact hv.mono (hr.mono hle) ((hos o ho).mono hle) hvt.extends.expected

/-! ## Calls on lambda objects -/

/-- A call on a lambda object that was made at {lit}`maker` runs what a handle says.  A call
that depends on a receiver waits on it. -/
def Performs (env : Setting) (k : View) (waits : QVar → PendingCall → Prop) (site : QSite)
    (maker : InvokeId) (handle : MethodHandle) (call : LambdaCall) : Prop :=
  match handle.kind with
  | .invokeStatic => ∀ m, env.program.resolve? handle.target = some m →
      k.Runs env site none m (.lambda call)
  | .newInvokeSpecial => ∀ m, env.program.resolve? handle.target = some m →
      ∃ i, k.heap.get? i = some (MockTable.standIn env.program .lambdaConstructed maker
          (.cls handle.target.className)) ∧
        (∀ result ∈ (env.program.invoke site.item).result,
          k.points (varPointer site.context result) ⟨site.context, i⟩) ∧
        k.RunsOn env site ⟨site.context, i⟩ m (.lambda call)
  | .invokeVirtual | .invokeInterface | .invokeSpecial => ∀ receiver,
      receiverVar? call.captured (env.program.invoke site.item).args call.lambdaContext
          site.context = some receiver →
        waits receiver ⟨site, handle.kind, handle.target, call⟩
  | .getField | .getStatic | .putField | .putStatic => False

/-- An object is a lambda object that was made at {lit}`maker` for the name that a call site
calls, and {lit}`handle` says what it runs. -/
structure Fits (p : Program) (obj : Obj) (site maker : InvokeId) (handle : MethodHandle) :
    Prop where
  mock : obj.kind = .mock .lambda (.invoke maker)
  handle : ∃ d, (p.invoke maker).dynamic = some d ∧ (p.invoke site).target.name = d.methodName ∧
    d.handle? implIndex = some handle

/-- A call has been answered on an object: if that is a lambda object for the name that is
called, the call runs what its handle says. -/
def Answered (env : Setting) (k : View) (waits : QVar → PendingCall → Prop) (site : QSite)
    (o : QObj) : Prop :=
  ∀ maker handle, Fits env.program (k.heap.get o.item) site.item maker handle →
    Performs env k waits site maker handle
      { captured := (env.program.invoke maker).args, lambdaContext := o.context
        result := (env.program.invoke site.item).result }

variable {waits waits' : QVar → PendingCall → Prop} {site : QSite} {maker : InvokeId}
  {handle : MethodHandle} {call : LambdaCall}

/-- A handle that was performed stays so while more calls wait. -/
theorem Performs.mono (h : Performs env k waits site maker handle call)
    (hsite : k.contexts.Has site.context) (hle : k.Le l)
    (hwaits : ∀ v r, waits v r → waits' v r) :
    Performs env l waits' site maker handle call := by
  unfold Performs at h ⊢
  split at h
  · intro m hm
    exact (h m hm).mono hsite (by simp) hle
  · intro m hm
    obtain ⟨i, hi, hresult, hruns⟩ := h m hm
    exact ⟨i, hle.heap _ _ hi, fun r hr => hle.points (hresult r hr),
      hruns.mono hsite ⟨hsite, _, hi⟩ hle⟩
  · exact fun receiver hreceiver => hwaits _ _ (h receiver hreceiver)
  · exact fun receiver hreceiver => hwaits _ _ (h receiver hreceiver)
  · exact fun receiver hreceiver => hwaits _ _ (h receiver hreceiver)
  · exact h.elim
  · exact h.elim
  · exact h.elim
  · exact h.elim

/-- A call that was answered on an object stays so. -/
theorem Answered.mono {o : QObj} (h : Answered env k waits site o)
    (hsite : k.contexts.Has site.context) (ho : k.HasObj o) (hle : k.Le l)
    (hwaits : ∀ v r, waits v r → waits' v r) : Answered env l waits' site o := by
  intro maker handle hfits
  rw [Heap.get_of_grows ho.2 hle.heap] at hfits
  exact (h maker handle hfits).mono hsite hle hwaits

/-- At most one handle fits. -/
theorem Fits.unique {p : Program} {obj : Obj} {site maker maker' : InvokeId}
    {handle handle' : MethodHandle} (h : Fits p obj site maker handle)
    (h' : Fits p obj site maker' handle') : maker' = maker ∧ handle' = handle := by
  obtain ⟨hmock, d, hd, _, hhandle⟩ := h
  obtain ⟨hmock', d', hd', _, hhandle'⟩ := h'
  cases hmock.symm.trans hmock'
  cases hd.symm.trans hd'
  cases hhandle.symm.trans hhandle'
  exact ⟨rfl, rfl⟩

/-! ## The memory of the plugin -/

/-- The call waits on the variable. -/
def State.Waits (st : State) (v : QVar) (r : PendingCall) : Prop := (v, r) ∈ st.pending.pairs

/-- The ids in the memory of the plugin exist and denote what they are kept for, and lambda
objects are kept for the methods that make them. -/
structure State.Sound (p : Program) (k : View) (st : State) : Prop where
  created : ∀ m i o, (m, i, o) ∈ st.created → k.heap.Has o ∧ .invoke i ∈ (p.method m).stmts
  kind : st.constructed.kind = .lambdaConstructed
  constructed : st.constructed.Denotes p k
  pending : ∀ v r, st.Waits v r → r.Sound p k

/-- What is remembered stays right. -/
theorem State.Sound.mono {p : Program} {st : State} (h : st.Sound p k) (hle : k.Le l) :
    st.Sound p l where
  created := fun m i o hmem => (h.created m i o hmem).imp_left fun ho => ho.of_grows hle.heap
  kind := h.kind
  constructed := h.constructed.mono hle
  pending := fun v r hmem => (h.pending v r hmem).mono hle

/-- The plugin begins with nothing that could be wrong. -/
theorem State.sound_new {p : Program} : State.Sound p k {} where
  created := fun _ _ _ h => absurd h List.not_mem_nil
  kind := rfl
  constructed := MockTable.denotes_new _
  pending := fun _ _ h => absurd h (OrderedSet.not_mem_empty _)

/-- What a reaction of the plugin does: it keeps to the rules, forgets no waiting call, and a
call that begins to wait has been resolved on all that its receiver refers to. -/
structure Progress (env : Setting) (s t : Solver) (st q : State) : Prop where
  evolves : s.Evolves env.program (PluginRule env) t
  sound : q.Sound env.program t.settled
  kept : ∀ v r, st.Waits v r → q.Waits v r
  new : ∀ v r, q.Waits v r → st.Waits v r ∨
    ∀ o ∈ s.pointsTo.get (.var v), Resolved env t.expected r o

variable {st q : State}

/-- A reaction that leaves the memory alone. -/
theorem Progress.of_evolves (h : s.Evolves env.program (PluginRule env) t)
    (hst : st.Sound env.program s.settled) : Progress env s t st st :=
  ⟨h, hst.mono h.extends.settled, fun _ _ hmem => hmem, fun _ _ hmem => .inl hmem⟩

/-! ## The reactions to calls -/

/-- A static method is run without a receiver. -/
theorem callStatic_ok {target : MethodRef} {x : Unit}
    (h : (callStatic env site target call).run env s = .ok x t)
    (hempty : s.contexts.Has emptyContext) (hsite : s.settled.Acting env.program site)
    (hcall : s.contexts.Has call.lambdaContext ∧
      call.result = (env.program.invoke site.item).result) :
    s.Evolves env.program (PluginRule env) t ∧ ∀ m, env.program.resolve? target = some m →
      t.expected.Runs env site none m (.lambda call) := by
  cases hm : env.program.resolve? target with
  | none =>
      simp only [callStatic, hm, Service.pure_eq, Service.run_done, pure_eq_ok] at h
      obtain ⟨_, rfl⟩ := h
      exact ⟨.refl _, by simp⟩
  | some m =>
      simp only [callStatic, hm, Service.bind_eq, Service.run_bind, bind_eq_ok] at h
      obtain ⟨c, u, hselect, hadd⟩ := h
      obtain ⟨hevolves, hruns⟩ := Service.runs_ok hselect hadd hempty hsite (by simp) (by
        rintro _ ⟨⟩
        exact hcall)
      refine ⟨hevolves, ?_⟩
      rintro _ ⟨⟩
      exact hruns

/-- A call waits on its receiver from then on, if it did not before. -/
theorem callInstance_ok {receiver : QVar} {r : PendingCall}
    (h : (callInstance env st receiver r).run env s = .ok q t) (hg : s.Grounded)
    (hst : st.Sound env.program s.settled) (hr : r.Sound env.program s.settled) :
    Progress env s t st q ∧ q.Waits receiver r := by
  by_cases hmem : (receiver, r) ∈ st.pending.pairs
  · have hknown : st.pending.isRegistered receiver r = true := decide_eq_true hmem
    simp only [callInstance, hknown, if_true, Service.pure_eq, Service.run_done,
      pure_eq_ok] at h
    obtain ⟨rfl, rfl⟩ := h
    exact ⟨.of_evolves (.refl _) hst, hmem⟩
  · have hnew : st.pending.isRegistered receiver r = false := decide_eq_false hmem
    simp only [callInstance, hnew, Bool.false_eq_true, if_false, Service.bind_eq,
      Service.run_bind, bind_eq_ok, Service.varPointsTo_eq_ok, Service.pure_eq,
      Service.run_done, pure_eq_ok] at h
    obtain ⟨_, _, ⟨rfl, rfl⟩, _, _, hresolve, rfl, rfl⟩ := h
    obtain ⟨hevolves, hall⟩ := resolvePending_ok hresolve hg.empty hr (hg.points _)
    have hle := hevolves.extends.settled
    have hcases : ∀ v r', (v, r') ∈ (st.pending.register receiver r).pairs →
        (v, r') ∈ st.pending.pairs ∨ v = receiver ∧ r' = r := by
      intro v r' hmem
      rcases OrderedSet.mem_insert.1 hmem with heq | hmem
      · exact .inr (Prod.mk.inj heq)
      · exact .inl hmem
    refine ⟨⟨hevolves, ⟨(hst.mono hle).created, hst.kind, (hst.mono hle).constructed, ?_⟩, ?_, ?_⟩,
      OrderedSet.mem_insert.2 (.inl rfl)⟩
    · intro v r' hmem
      rcases hcases v r' hmem with hmem | ⟨_, rfl⟩
      · exact (hst.mono hle).pending v r' hmem
      · exact hr.mono hle
    · exact fun v r' hmem => OrderedSet.mem_insert.2 (.inr hmem)
    · intro v r' hmem
      rcases hcases v r' hmem with hmem | ⟨rfl, rfl⟩
      · exact .inl hmem
      · exact .inr hall

/-- A constructor is run on the object that it makes. -/
theorem callConstructor_ok {target : MethodRef}
    (h : (callConstructor env st maker site target call).run env s = .ok q t)
    (hempty : s.contexts.Has emptyContext) (hst : st.Sound env.program s.settled)
    (hsite : s.settled.Acting env.program site)
    (hcall : s.contexts.Has call.lambdaContext ∧
      call.result = (env.program.invoke site.item).result) :
    Progress env s t st q ∧ ∀ m, env.program.resolve? target = some m →
      ∃ i, t.heap.get? i = some (MockTable.standIn env.program .lambdaConstructed maker
          (.cls target.className)) ∧
        (∀ result ∈ (env.program.invoke site.item).result,
          t.Owes (varPointer site.context result) ⟨site.context, i⟩) ∧
        t.expected.RunsOn env site ⟨site.context, i⟩ m (.lambda call) := by
  cases hm : env.program.resolve? target with
  | none =>
      simp only [callConstructor, hm, Service.pure_eq, Service.run_done, pure_eq_ok] at h
      obtain ⟨rfl, rfl⟩ := h
      exact ⟨.of_evolves (.refl _) hst, by simp⟩
  | some m =>
      simp only [callConstructor, hm, Service.bind_eq, Service.run_bind, bind_eq_ok,
        Service.pure_eq, Service.run_done, pure_eq_ok] at h
      obtain ⟨⟨i, table⟩, u, hmake, _, v, hassign, c, w, hselect, _, x, hthis, _, y, hadd, rfl,
        rfl⟩ := h
      obtain ⟨hsu, hkind, htable, hi⟩ := MockTable.getOrCreate_ok hmake hst.constructed
      rw [hst.kind] at hi
      have hu := hsu.extends.settled
      have hmade : u.settled.HasObj ⟨site.context, i⟩ := ⟨(hsite.mono hu).context, _, hi⟩
      obtain ⟨huv, hresult⟩ := Service.forM_addResult_ok hassign (hsite.mono hu) hmade
      have hv := hu.trans huv.extends.settled
      obtain ⟨hvy, hruns⟩ := Service.runsOn_ok hselect hthis hadd (hempty.of_grows hv.contexts)
        (hsite.mono hv) (hmade.mono huv.extends.settled) (by
          rintro _ ⟨⟩
          exact hcall.imp_left fun hc => hc.of_grows hv.contexts)
      have huy := (huv.trans hvy).extends.settled
      have hst' := hst.mono (hu.trans huy)
      refine ⟨⟨(hsu.trans huv).trans hvy,
        ⟨hst'.created, hkind.trans hst.kind, htable.mono huy, hst'.pending⟩,
        fun _ _ hmem => hmem, fun _ _ hmem => .inl hmem⟩, ?_⟩
      rintro _ ⟨⟩
      exact ⟨i, huy.heap _ _ hi, fun r hr => hvy.extends.expected.points (hresult r hr), hruns⟩

/-- A call on a lambda object runs what the handle says. -/
theorem callHandle_ok (h : (callHandle env st maker site handle call).run env s = .ok q t)
    (hg : s.Grounded) (hst : st.Sound env.program s.settled)
    (hsite : s.settled.Acting env.program site)
    (hcall : s.contexts.Has call.lambdaContext ∧
      call.result = (env.program.invoke site.item).result) :
    Progress env s t st q ∧
      Performs env t.expected q.Waits site maker handle call := by
  have hwait : handle.kind = .invokeVirtual ∨ handle.kind = .invokeInterface ∨
      handle.kind = .invokeSpecial → Progress env s t st q ∧ ∀ receiver,
        receiverVar? call.captured (env.program.invoke site.item).args call.lambdaContext
            site.context = some receiver →
          q.Waits receiver ⟨site, handle.kind, handle.target, call⟩ := by
    intro hkind
    cases hreceiver : receiverVar? call.captured (env.program.invoke site.item).args
        call.lambdaContext site.context with
    | none =>
        have hnothing : (pure st : Service State).run env s = .ok q t := by
          rcases hkind with hk | hk | hk <;> simpa only [callHandle, hk, hreceiver] using h
        obtain ⟨rfl, rfl⟩ := pure_eq_ok.1 hnothing
        exact ⟨.of_evolves (.refl _) hst, by simp⟩
    | some receiver =>
        have hinstance : (callInstance env st receiver
            ⟨site, handle.kind, handle.target, call⟩).run env s = .ok q t := by
          rcases hkind with hk | hk | hk <;> simpa only [callHandle, hk, hreceiver] using h
        obtain ⟨hprogress, hmem⟩ := callInstance_ok hinstance hg hst ⟨hsite, hcall.1, hcall.2⟩
        refine ⟨hprogress, ?_⟩
        rintro _ ⟨⟩
        exact hmem
  cases hkind : handle.kind with
  | invokeStatic =>
      simp only [callHandle, hkind, Service.bind_eq, Service.run_bind, bind_eq_ok,
        Service.pure_eq, Service.run_done, pure_eq_ok] at h
      obtain ⟨_, _, hstatic, rfl, rfl⟩ := h
      obtain ⟨hevolves, hruns⟩ := callStatic_ok hstatic hg.empty hsite hcall
      exact ⟨.of_evolves hevolves hst, by simpa only [Performs, hkind] using hruns⟩
  | newInvokeSpecial =>
      simp only [callHandle, hkind] at h
      obtain ⟨hprogress, hmade⟩ := callConstructor_ok h hg.empty hst hsite hcall
      refine ⟨hprogress, ?_⟩
      unfold Performs
      rw [hkind]
      exact hmade
  | invokeVirtual =>
      obtain ⟨hprogress, hmem⟩ := hwait (.inl hkind)
      exact ⟨hprogress, by simpa only [Performs, hkind] using hmem⟩
  | invokeInterface =>
      obtain ⟨hprogress, hmem⟩ := hwait (.inr (.inl hkind))
      exact ⟨hprogress, by simpa only [Performs, hkind] using hmem⟩
  | invokeSpecial =>
      obtain ⟨hprogress, hmem⟩ := hwait (.inr (.inr hkind))
      exact ⟨hprogress, by simpa only [Performs, hkind] using hmem⟩
  | getField | getStatic | putField | putStatic =>
      simp only [callHandle, hkind, Service.run_fail] at h
      exact (throw_eq_ok.1 h).elim

/-- A call on an object runs the handle that fits; if there is none, it is passed over. -/
theorem callOn_cases {o : QObj} (h : (callOn env st o site).run env s = .ok q t) :
    (∃ maker handle, Fits env.program (s.heap.get o.item) site.item maker handle ∧
      (callHandle env st maker site handle
        { captured := (env.program.invoke maker).args, lambdaContext := o.context
          result := (env.program.invoke site.item).result }).run env s = .ok q t) ∨
    (∀ maker handle, ¬ Fits env.program (s.heap.get o.item) site.item maker handle) ∧
      q = st ∧ t = s := by
  simp only [callOn, Service.bind_eq, Service.run_bind, bind_eq_ok, Service.obj_eq_ok] at h
  obtain ⟨_, _, ⟨rfl, rfl⟩, h⟩ := h
  generalize s.heap.get o.item = obj at h ⊢
  split at h
  · rename_i maker hmock hsite
    have hkind : obj.kind = .mock .lambda (.invoke maker) := Obj.kind_of_isMock hmock hsite
    split at h
    · rename_i hdynamic
      obtain ⟨rfl, rfl⟩ := pure_eq_ok.1 h
      refine .inr ⟨?_, rfl, rfl⟩
      rintro maker' handle ⟨hmock', d, hd, _⟩
      cases hkind.symm.trans hmock'
      exact absurd (hdynamic.symm.trans hd) (by simp)
    · rename_i d hdynamic
      split at h
      · rename_i handle hname hhandle
        exact .inl ⟨maker, handle, ⟨hkind, d, hdynamic, of_decide_eq_true hname, hhandle⟩, h⟩
      · rename_i hnone
        obtain ⟨rfl, rfl⟩ := pure_eq_ok.1 h
        refine .inr ⟨?_, rfl, rfl⟩
        rintro maker' handle ⟨hmock', d', hd', hname, hhandle⟩
        cases hkind.symm.trans hmock'
        cases hdynamic.symm.trans hd'
        exact hnone handle (decide_eq_true hname) hhandle
  · rename_i hnone
    obtain ⟨rfl, rfl⟩ := pure_eq_ok.1 h
    refine .inr ⟨?_, rfl, rfl⟩
    rintro maker handle ⟨hmock, _⟩
    exact hnone maker (by simp [Obj.isMock, Obj.mockKind?, hmock])
      (by simp [Obj.mockSite?, hmock])

/-- A call on an object is answered. -/
theorem callOn_ok {o : QObj} (h : (callOn env st o site).run env s = .ok q t)
    (hg : s.Grounded) (hst : st.Sound env.program s.settled)
    (hsite : s.settled.Acting env.program site) (ho : s.settled.HasObj o) :
    Progress env s t st q ∧
      Answered env t.expected q.Waits site o := by
  rcases callOn_cases h with ⟨maker, handle, hfits, hrun⟩ | ⟨hnone, rfl, rfl⟩
  · obtain ⟨hprogress, hperforms⟩ := callHandle_ok hrun hg hst hsite ⟨ho.1, rfl⟩
    refine ⟨hprogress, ?_⟩
    intro maker' handle' hfits'
    rw [Heap.get_of_grows ho.2 hprogress.evolves.extends.expected.heap] at hfits'
    obtain ⟨rfl, rfl⟩ := hfits.unique hfits'
    exact hperforms
  · exact ⟨.of_evolves (.refl _) hst, fun maker handle hfits => (hnone maker handle hfits).elim⟩

/-- What waits on a variable is resolved on all that the variable refers to. -/
theorem wake_ok {v : QVar} {x : Unit} (h : (wake env st v).run env s = .ok x t)
    (hg : s.Grounded) (hst : st.Sound env.program s.settled) :
    s.Evolves env.program (PluginRule env) t ∧ ∀ r, st.Waits v r →
      ∀ o ∈ s.pointsTo.get (.var v), Resolved env t.expected r o := by
  have hwaiting : ∀ r, r ∈ st.pending.get v ↔ st.Waits v r :=
    fun r => Waitlist.mem_get
  unfold wake at h
  split at h
  · rename_i hnil
    obtain ⟨_, rfl⟩ := pure_eq_ok.1 h
    refine ⟨.refl _, ?_⟩
    intro r hr
    rw [← hwaiting, hnil] at hr
    exact absurd hr List.not_mem_nil
  · simp only [Service.bind_eq, Service.run_bind, bind_eq_ok, Service.varPointsTo_eq_ok,
      Service.run_forM] at h
    obtain ⟨_, _, ⟨rfl, rfl⟩, h⟩ := h
    have hresolved : ∀ {r} {u w : Solver}, r ∈ st.pending.get v →
        s.Evolves env.program (PluginRule env) u →
        (resolvePending env r (s.pointsTo.get (.var v))).run env u = .ok ⟨⟩ w →
        u.Evolves env.program (PluginRule env) w ∧
          ∀ o ∈ s.pointsTo.get (.var v), Resolved env w.expected r o := by
      intro r u w hr hsu huw
      have hle := hsu.extends.settled
      exact resolvePending_ok huw (hg.empty.of_grows hle.contexts)
        ((hst.pending v r ((hwaiting r).1 hr)).mono hle)
        (fun o ho => (hg.points _ o ho).mono hle)
    obtain ⟨hevolves, hall⟩ := forM_rel (R := Solver.Evolves env.program (PluginRule env)) .refl
      .trans h fun r hr _ _ hsu huw => (hresolved hr hsu huw).1
    refine ⟨hevolves, ?_⟩
    intro r hr o ho
    obtain ⟨u, w, hsu, huw, hwt⟩ := hall r ((hwaiting r).2 hr)
    obtain ⟨huw, hdone⟩ := hresolved ((hwaiting r).2 hr) hsu huw
    have hle := (Solver.settled_le_expected s).trans (hsu.trans huw).extends.expected
    exact (hdone o ho).mono ((hst.pending v r hr).mono hle) ((hg.points _ o ho).mono hle)
      hwt.extends.expected

/-! ## The other reactions -/

/-- The lambda objects of a method exist once they are made. -/
theorem createAll_ok {m : MethodId} {made : List (MethodId × InvokeId × ObjId)}
    (h : (createAll env m).run env s = .ok made t) (hp : env.program.Numbered) :
    s.Evolves env.program (PluginRule env) t ∧ ∀ e ∈ made,
      t.heap.Has e.2.2 ∧ .invoke e.2.1 ∈ (env.program.method e.1).stmts := by
  refine Service.filterMapM_rel (R := Solver.Evolves env.program (PluginRule env))
    (Q := fun u (e : MethodId × InvokeId × ObjId) =>
      u.heap.Has e.2.2 ∧ .invoke e.2.1 ∈ (env.program.method e.1).stmts) .refl .trans
    (fun hb hst => hb.imp_left fun ho => ho.of_grows hst.accretes.heap) h ?_
  intro call hcall b u v _ huv
  obtain ⟨site, hsite, rfl⟩ := Program.mem_invokesIn.1 hcall
  cases hd : (env.program.invoke site).dynamic with
  | none =>
      simp only [hd, Service.pure_eq, Service.run_done, pure_eq_ok] at huv
      obtain ⟨rfl, rfl⟩ := huv
      exact ⟨.refl _, by simp⟩
  | some d =>
      by_cases hf : isFactory d.bootstrap = true
      · simp only [hd, hf, if_true, Service.bind_eq, Service.run_bind, bind_eq_ok,
          Service.pure_eq, Service.run_done, pure_eq_ok] at huv
        obtain ⟨i, w, hmock, rfl, rfl⟩ := huv
        obtain ⟨hevolves, hi⟩ := Service.mock_ok hmock
        refine ⟨hevolves, ?_⟩
        rintro _ ⟨⟩
        refine ⟨⟨_, hi⟩, ?_⟩
        rcases hp.invoke_cases site with hid | hdefault
        · rwa [hid]
        · rw [hdefault] at hd
          cases hd
      · simp only [hd, hf, Bool.false_eq_true, if_false, Service.pure_eq, Service.run_done,
          pure_eq_ok] at huv
        obtain ⟨rfl, rfl⟩ := huv
        exact ⟨.refl _, by simp⟩

/-- The lambda objects of a method reach the results of its calls. -/
theorem assignCreated_ok {m : QMethod} {x : Unit}
    (h : (assignCreated env st m).run env s = .ok x t) (hst : st.Sound env.program s.settled)
    (hm : m ∈ s.calls.reachableIn) (hc : s.contexts.Has m.context) :
    s.Evolves env.program (PluginRule env) t := by
  simp only [assignCreated, Service.run_forM] at h
  refine (forM_rel (R := Solver.Evolves env.program (PluginRule env)) .refl .trans h ?_).1
  rintro ⟨owner, site, o⟩ hmem u v hsu huv
  have hle := hsu.extends.settled
  cases hresult : (env.program.invoke site).result with
  | none =>
      simp only [hresult, Service.pure_eq, Service.run_done, pure_eq_ok] at huv
      exact huv.2 ▸ .refl _
  | some result =>
      by_cases howner : owner = m.item
      · simp only [hresult, howner, if_true] at huv
        obtain ⟨hobj, hstmt⟩ := hst.created _ _ _ hmem
        have hsite : s.settled.Acting env.program ⟨m.context, site⟩ :=
          ⟨hc, .inl ⟨m.item, hm, .inr (howner ▸ hstmt)⟩⟩
        exact (Service.addResult_ok ⟨m.context, site⟩ huv (hsite.mono hle) hresult
          ⟨hc.of_grows hle.contexts, hobj.of_grows hle.heap⟩).1
      · simp only [hresult, howner, if_false, Service.pure_eq, Service.run_done,
          pure_eq_ok] at huv
        exact huv.2 ▸ .refl _

/-- The flow along a lambda edge joins variables under contexts that the edge mentions. -/
theorem exists_of_wiring {e : CallEdge} (he : e.Exists s.settled) (hk : e.kind = .lambda call)
    {f : FlowEdge} (hf : f ∈ wiring env.program e call) : f.Exists s.settled := by
  have hlambda : s.contexts.Has call.lambdaContext := he.payload call hk
  have hsources : ∀ source ∈ sources env.program e call, source.Exists s.settled := by
    intro source hsource
    rcases mem_sources.1 hsource with ⟨_, _, rfl⟩ | ⟨_, _, rfl⟩
    · exact hlambda
    · exact he.site
  cases mem_wiring.1 hf with
  | receiver _ hsource => exact ⟨hsources _ (List.mem_of_getElem? hsource), he.callee⟩
  | param hsource => exact ⟨hsources _ (List.mem_of_getElem? hsource), he.callee⟩
  | result => exact ⟨he.callee, he.site⟩

/-- The flow along a lambda edge is flow along a call edge. -/
theorem feeds_of_wiring {p : Program} {e : CallEdge} (hk : e.kind = .lambda call)
    {f : FlowEdge} (hf : f ∈ wiring p e call) : e.Feeds p f.target := by
  cases mem_wiring.1 hf with
  | receiver _ _ hthis => exact .receiver hthis
  | param _ hparam => exact .param (List.mem_of_getElem? hparam)
  | result hr => exact .lambdaResult hk hr

/-- Of an edge the plugin remembers nothing. -/
theorem react_edge {e : CallEdge} (h : (react env (.edge e) st).run env s = .ok q t) :
    q = st := by
  cases hk : e.kind with
  | lambda call =>
      simp only [react, hk, Service.bind_eq, Service.run_bind, bind_eq_ok, Service.pure_eq,
        Service.run_done, pure_eq_ok] at h
      obtain ⟨_, _, _, rfl, _⟩ := h
      rfl
  | static | virtual | interface | special | reflective =>
      simp only [react, hk, Service.pure_eq, Service.run_done, pure_eq_ok] at h
      exact h.1.symm

/-- Every reaction keeps to the rules, and forgets no waiting call. -/
theorem react_ok {e : Event} (h : (react env e st).run env s = .ok q t)
    (hb : env.program.Built) (hg : s.Grounded) (hst : st.Sound env.program s.settled)
    (he : e.Holds env s) (hedge : ∀ e', e = .edge e' → e'.Exists s.settled) :
    Progress env s t st q := by
  cases e with
  | start | finish =>
      obtain ⟨rfl, rfl⟩ := pure_eq_ok.1 h
      exact .of_evolves (.refl _) hst
  | method m =>
      simp only [react, Service.bind_eq, Service.run_bind, bind_eq_ok, Service.pure_eq,
        Service.run_done, pure_eq_ok] at h
      obtain ⟨made, _, hmake, rfl, rfl⟩ := h
      obtain ⟨hevolves, hmade⟩ := createAll_ok hmake hb.numbered
      have hst' := hst.mono hevolves.extends.settled
      refine ⟨hevolves, ⟨?_, hst'.kind, hst'.constructed, hst'.pending⟩, fun _ _ hmem => hmem,
        fun _ _ hmem => .inl hmem⟩
      intro m' i o hmem
      rcases List.mem_append.1 hmem with hmem | hmem
      · exact hst'.created m' i o hmem
      · exact hmade _ hmem
  | methodIn m =>
      simp only [react, Service.bind_eq, Service.run_bind, bind_eq_ok, Service.pure_eq,
        Service.run_done, pure_eq_ok] at h
      obtain ⟨_, _, hassign, rfl, rfl⟩ := h
      exact .of_evolves (assignCreated_ok hassign hst he.1 he.2) hst
  | unresolved o context site =>
      exact (callOn_ok h hg hst (View.acting_of_unresolved hb he) he.2.2.1).1
  | grown v delta =>
      simp only [react, Service.bind_eq, Service.run_bind, bind_eq_ok, Service.pure_eq,
        Service.run_done, pure_eq_ok] at h
      obtain ⟨_, _, hwake, rfl, rfl⟩ := h
      exact .of_evolves (wake_ok hwake hg hst).1 hst
  | edge e =>
      cases hk : e.kind with
      | lambda call =>
          simp only [react, hk, Service.bind_eq, Service.run_bind, bind_eq_ok, Service.pure_eq,
            Service.run_done, pure_eq_ok] at h
          obtain ⟨_, _, hflow, rfl, rfl⟩ := h
          exact .of_evolves (Service.addFlows_ok hflow he (fun f hf => feeds_of_wiring hk hf)
            fun f hf => exists_of_wiring (hedge e rfl) hk hf).1 hst
      | static | virtual | interface | special | reflective =>
          simp only [react, hk, Service.pure_eq, Service.run_done, pure_eq_ok] at h
          obtain ⟨rfl, rfl⟩ := h
          exact .of_evolves (.refl _) hst

/-- The plugin for lambdas keeps to the rules. -/
theorem honest (hb : env.program.Built) :
    plugin.Honest env (PluginRule env) (State.Sound env.program) where
  rule_exists := fun _ h => h.exists
  mono := fun h hle => h.mono hle
  react := by
    intro s t e p q hs hp he h
    have hprogress := react_ok h hb hs.grounded hp he (by
      rintro e' rfl
      exact hs.call (.inl he))
    exact ⟨hprogress.evolves, hprogress.sound⟩

end PointsTo.Lambda
