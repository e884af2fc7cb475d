import PointsTo.Proofs.LambdaFacts
import PointsTo.Proofs.Members

/-!
# What the plugin for lambdas adds, and why

The plugin for lambdas adds nothing without a reason that the state of the run gives: a lambda
object reaches a result because a reachable method makes it, and a lambda edge is added because
a variable refers to a lambda object and a call on that variable has no other target.

Main results:

- {lit}`Lambda.Applies`: a call on a lambda object.
- {lit}`Lambda.LambdaRule`: the additions of the plugin with their premises; they mention only
  what exists ({lit}`LambdaRule.exists`).
- {lit}`Lambda.State.Justified`: there still are such reasons for all that the plugin remembers.
- Theorem {lit}`Lambda.follows_react`: the plugin keeps to these rules.
-/

namespace PointsTo.Lambda

variable {env : Setting} {s t u : Solver} {k l : View}

/-! ## Calls on lambda objects -/

/-- The handle of an instance method, which is run on what a variable refers to. -/
def takesReceiver : HandleKind → Bool
  | .invokeVirtual | .invokeInterface | .invokeSpecial => true
  | .invokeStatic | .newInvokeSpecial | .getField | .getStatic | .putField | .putStatic => false

/-- What a handle says is run: a constructor, a static method, or an instance method, which waits
on its receiver; an instance method that nothing provides a receiver for is passed over. -/
theorem callHandle_cases {st q : State} {maker : InvokeId} {site : QSite} {handle : MethodHandle}
    {call : LambdaCall} (h : (callHandle env st maker site handle call).run env s = .ok q t) :
    (handle.kind = .newInvokeSpecial ∧
      (callConstructor env st maker site handle.target call).run env s = .ok q t) ∨
    (handle.kind = .invokeStatic ∧
      (callStatic env site handle.target call).run env s = .ok ⟨⟩ t ∧ q = st) ∨
    (takesReceiver handle.kind = true ∧ ∃ receiver,
      receiverVar? call.captured (env.program.invoke site.item).args call.lambdaContext
        site.context = some receiver ∧
      (callInstance env st receiver ⟨site, handle.kind, handle.target, call⟩).run env s =
        .ok q t) ∨
    (q = st ∧ t = s) := by
  cases hk : handle.kind with
  | newInvokeSpecial =>
      simp only [callHandle, hk] at h
      exact .inl ⟨rfl, h⟩
  | invokeStatic =>
      simp only [callHandle, hk, Service.bind_eq, Service.run_bind, bind_eq_ok, Service.pure_eq,
        Service.run_done, pure_eq_ok] at h
      obtain ⟨_, _, hstatic, rfl, rfl⟩ := h
      exact .inr (.inl ⟨rfl, hstatic, rfl⟩)
  | invokeVirtual | invokeInterface | invokeSpecial =>
      cases hreceiver : receiverVar? call.captured (env.program.invoke site.item).args
          call.lambdaContext site.context with
      | none =>
          simp only [callHandle, hk, hreceiver] at h
          obtain ⟨rfl, rfl⟩ := pure_eq_ok.1 h
          exact .inr (.inr (.inr ⟨rfl, rfl⟩))
      | some receiver =>
          simp only [callHandle, hk, hreceiver] at h
          exact .inr (.inr (.inl ⟨rfl, receiver, rfl, h⟩))
  | getField | getStatic | putField | putStatic =>
      simp only [callHandle, hk, Service.run_fail] at h
      exact (throw_eq_ok.1 h).elim

/-- A call without a target of its own on a lambda object that the variable refers to, and the
handle that says what it runs. -/
structure Applies (env : Setting) (k : View) (v : QVar) (site : InvokeId) (o : QObj)
    (maker : InvokeId) (handle : MethodHandle) : Prop where
  context : k.contexts.Has v.context
  obj : k.HasObj o
  points : k.points (.var v) o
  use : site ∈ (env.program.var v.item).uses.invokes
  unresolved : Unresolved env.program k.heap site o
  fits : Fits env.program (k.heap.get o.item) site maker handle

/-- What a lambda edge at a call site carries for an object that was made at {lit}`maker`. -/
def payload (p : Program) (site maker : InvokeId) (o : QObj) : LambdaCall where
  captured := (p.invoke maker).args
  lambdaContext := o.context
  result := (p.invoke site).result

variable {v : QVar} {site maker : InvokeId} {o : QObj} {handle : MethodHandle}

/-- A call that applies goes on applying while a view grows. -/
theorem Applies.mono (h : Applies env k v site o maker handle) (hle : k.Le l) :
    Applies env l v site o maker handle where
  context := h.context.of_grows hle.contexts
  obj := h.obj.mono hle
  points := hle.points h.points
  use := h.use
  unresolved := by
    intro callee kind hcallee
    rw [View.receiverTarget?_of_grows _ h.obj.2 hle.heap] at hcallee
    exact h.unresolved callee kind hcallee
  fits := by
    rw [Heap.get_of_grows h.obj.2 hle.heap]
    exact h.fits

/-! ## The rules -/

/-- The additions of the plugin for lambdas. -/
inductive LambdaRule (env : Setting) (s : Solver) : Addition → Prop
  | object {x} : LambdaRule env s (.object x)
  | context {site receiver w} (hreceiver : ∀ o ∈ receiver, s.settled.HasObj o)
      (hw : env.selector.wanted? env.program s.heap s.contexts site receiver = some w) :
      LambdaRule env s (.context w)
  /-- A lambda object reaches the result of the call site that makes it. -/
  | assign {m site d o result} (hm : m ∈ s.calls.reachableIn)
      (hmakes : Makes env.program m.item site d)
      (ho : s.heap.get? o = some (madeObj m.item site d))
      (hr : result ∈ (env.program.invoke site).result) :
      LambdaRule env s (.points (varPointer m.context result) (.singleton ⟨m.context, o⟩))
  /-- The object that a reference to a constructor makes reaches the result of the call. -/
  | yield {v site o maker handle m i result} (h : Applies env s.settled v site o maker handle)
      (hk : handle.kind = .newInvokeSpecial) (hm : env.program.resolve? handle.target = some m)
      (hi : s.heap.get? i = some (MockTable.standIn env.program .lambdaConstructed maker
        (.cls handle.target.className)))
      (hr : result ∈ (env.program.invoke site).result) :
      LambdaRule env s (.points (varPointer v.context result) (.singleton ⟨v.context, i⟩))
  /-- A constructor is run on the object. -/
  | construct {v site o maker handle m i c} (h : Applies env s.settled v site o maker handle)
      (hk : handle.kind = .newInvokeSpecial) (hm : env.program.resolve? handle.target = some m)
      (hi : s.heap.get? i = some (MockTable.standIn env.program .lambdaConstructed maker
        (.cls handle.target.className)))
      (hc : s.settled.Selects env ⟨v.context, site⟩ (some ⟨v.context, i⟩) c) :
      LambdaRule env s (.enter (env.program.method m).receiver ⟨v.context, i⟩
        ⟨⟨v.context, site⟩, ⟨c, m⟩, .lambda (payload env.program site maker o)⟩)
  | static {v site o maker handle m c} (h : Applies env s.settled v site o maker handle)
      (hk : handle.kind = .invokeStatic) (hm : env.program.resolve? handle.target = some m)
      (hc : s.settled.Selects env ⟨v.context, site⟩ none c) :
      LambdaRule env s
        (.call ⟨⟨v.context, site⟩, ⟨c, m⟩, .lambda (payload env.program site maker o)⟩)
  /-- An instance method is run on what the variable refers to that provides its receiver. -/
  | receive {v site o maker handle receiver x m c}
      (h : Applies env s.settled v site o maker handle) (hk : takesReceiver handle.kind = true)
      (hv : receiverVar? (env.program.invoke maker).args (env.program.invoke site).args o.context
        v.context = some receiver)
      (hx : x ∈ s.pointsTo.get (.var receiver))
      (hm : handleTarget? env.program handle (s.heap.typeOf x.item) = some m)
      (hc : s.settled.Selects env ⟨v.context, site⟩ (some x) c) :
      LambdaRule env s
        (.call ⟨⟨v.context, site⟩, ⟨c, m⟩, .lambda (payload env.program site maker o)⟩)
  | wiring {e call f} (he : e ∈ s.calls.edges) (hk : e.kind = .lambda call)
      (hf : f ∈ wiring env.program e call) : LambdaRule env s (.flow f)

/-- An edge for a call on a lambda object mentions contexts that exist. -/
private theorem edge_exists (hs : s.Scoped) (h : Applies env s.settled v site o maker handle)
    {c : ContextId} {m : MethodId} (hc : s.contexts.Has c) :
    CallEdge.Exists s.settled
      ⟨⟨v.context, site⟩, ⟨c, m⟩, .lambda (payload env.program site maker o)⟩ := by
  refine ⟨hs.var h.points, hc, ?_⟩
  rintro _ ⟨⟩
  exact h.obj.1

/-- The rules of the plugin mention only what exists. -/
theorem LambdaRule.exists {a : Addition} (h : LambdaRule env s a) (hs : s.Scoped) :
    a.Exists s.settled := by
  cases h with
  | object | context => trivial
  | assign hm _ ho _ =>
      intro x hx
      obtain rfl := OrderedSet.mem_singleton.1 hx
      exact ⟨hs.reached hm, hs.reached hm, _, ho⟩
  | yield h _ _ hi _ =>
      intro x hx
      obtain rfl := OrderedSet.mem_singleton.1 hx
      exact ⟨h.context, h.context, _, hi⟩
  | construct h _ _ hi hc =>
      exact ⟨⟨h.context, _, hi⟩,
        edge_exists hs h (Selector.has_of_callContext hc h.context hs.empty)⟩
  | static h _ _ hc =>
      exact edge_exists hs h (Selector.has_of_callContext hc h.context hs.empty)
  | receive h _ _ _ _ hc =>
      exact edge_exists hs h (Selector.has_of_callContext hc h.context hs.empty)
  | wiring he hk hf => exact exists_of_wiring (hs.call (.inl he)) hk hf

/-! ## The memory of the plugin -/

/-- The call waits on the variable because a call on a lambda object takes its receiver from
it. -/
def Justifies (env : Setting) (k : View) (receiver : QVar) (r : PendingCall) : Prop :=
  ∃ v site o maker handle, Applies env k v site o maker handle ∧
    takesReceiver handle.kind = true ∧
    receiverVar? (env.program.invoke maker).args (env.program.invoke site).args o.context
      v.context = some receiver ∧
    r = ⟨⟨v.context, site⟩, handle.kind, handle.target, payload env.program site maker o⟩

/-- There are reasons for all that the plugin remembers. -/
structure State.Justified (env : Setting) (k : View) (st : State) : Prop where
  created : ∀ m site o, (m, site, o) ∈ st.created →
    ∃ d, Makes env.program m site d ∧ k.heap.get? o = some (madeObj m site d)
  kind : st.constructed.kind = .lambdaConstructed
  constructed : st.constructed.Denotes env.program k
  pending : ∀ v r, st.Waits v r → Justifies env k v r

variable {receiver : QVar} {r : PendingCall} {st q : State}

/-- A reason for a call that waits stays one. -/
theorem Justifies.mono (h : Justifies env k receiver r) (hle : k.Le l) :
    Justifies env l receiver r := by
  obtain ⟨v, site, o, maker, handle, happlies, hrest⟩ := h
  exact ⟨v, site, o, maker, handle, happlies.mono hle, hrest⟩

/-- What is remembered stays justified. -/
theorem State.Justified.mono (h : st.Justified env k) (hle : k.Le l) : st.Justified env l where
  created := by
    intro m site o hmem
    obtain ⟨d, hmakes, ho⟩ := h.created m site o hmem
    exact ⟨d, hmakes, hle.heap _ _ ho⟩
  kind := h.kind
  constructed := h.constructed.mono hle
  pending := fun v r hmem => (h.pending v r hmem).mono hle

/-- The plugin begins with nothing to justify. -/
theorem State.justified_new : State.Justified env k {} where
  created := fun _ _ _ h => absurd h List.not_mem_nil
  kind := rfl
  constructed := MockTable.denotes_new _
  pending := fun _ _ h => absurd h (OrderedSet.not_mem_empty _)

/-! ## Requests -/

/-- The state has come about by additions of the plugin. -/
abbrev Follows (env : Setting) : Solver → Solver → Prop :=
  Solver.Evolves env.program (LambdaRule env)

/-- To ask for a stand-in follows the rules, as the heap is no concern of theirs. -/
theorem follows_mock {m : MockObj} {i : ObjId} (h : (Service.mock m).run env s = .ok i t) :
    Follows env s t ∧ t.heap.get? i = some m.obj := by
  rw [Service.run_mock] at h
  obtain ⟨hadd, hget⟩ := SolverM.internObj_ok env h
  exact ⟨hadd.evolves .object, hget⟩

/-- To ask for a context follows the rules, and gives the selected one. -/
theorem follows_callContext {site : QSite} {receiver : Option QObj} {c : ContextId}
    (h : (Service.callContext site receiver).run env s = .ok c t)
    (hsite : s.contexts.Has site.context) (hreceiver : ∀ o ∈ receiver, s.settled.HasObj o) :
    Follows env s t ∧ t.settled.Selects env site receiver c := by
  rw [Service.run_callContext] at h
  exact ⟨SolverM.evolves_callContext h fun w hw => .context hreceiver hw,
    SolverM.selects_of_callContext h hsite hreceiver⟩

/-- A stand-in that is made or found is one addition at most. -/
theorem follows_getOrCreate {table table' : MockTable} {site : MockSite} {type : JavaType}
    {container : Option MethodId} {i : ObjId}
    (h : (table.getOrCreate site type container).run env s = .ok (i, table') t) :
    Follows env s t := by
  cases hfind : table.find? site type with
  | some j =>
      rw [MockTable.getOrCreate_of_find? hfind] at h
      exact (pure_eq_ok.1 h).2 ▸ .refl _
  | none =>
      simp only [MockTable.getOrCreate, hfind, Service.bind_eq, Service.run_bind, bind_eq_ok] at h
      obtain ⟨j, u, hmock, h⟩ := h
      obtain ⟨_, rfl⟩ := pure_eq_ok.1 h
      exact (follows_mock hmock).1

/-- A call is added under the context that was selected, if the rules allow that from then
on. -/
theorem follows_call {site : QSite} {receiver : Option QObj} {m : MethodId} {kind : CallKind}
    {c : ContextId} {x : Unit}
    (hselect : (Service.callContext site receiver).run env s = .ok c u)
    (hcall : (Service.addCall ⟨site, ⟨c, m⟩, kind⟩).run env u = .ok x t)
    (hsite : s.contexts.Has site.context) (hreceiver : ∀ o ∈ receiver, s.settled.HasObj o)
    (hrule : s.Accretes u → u.settled.Selects env site receiver c →
      LambdaRule env u (.call ⟨site, ⟨c, m⟩, kind⟩)) : Follows env s t := by
  obtain ⟨hsu, hc⟩ := follows_callContext hselect hsite hreceiver
  rw [Service.run_addCall, modify_eq_ok] at hcall
  exact hsu.trans (Solver.Adds.evolves (a := .call _) hcall (hrule hsu.accretes hc))

/-! ## Reactions -/

/-- A waiting call is resolved on objects that its receiver refers to. -/
theorem follows_resolvePending {os : ObjSet} {x : Unit}
    (h : (resolvePending env r os).run env s = .ok x t) (hr : Justifies env s.settled receiver r)
    (hos : ∀ o ∈ os, o ∈ s.pointsTo.get (.var receiver) ∧ s.settled.HasObj o) :
    Follows env s t := by
  simp only [resolvePending, Service.run_forM] at h
  refine (forM_rel (R := Follows env) .refl .trans h ?_).1
  intro x hx u w hsu huw
  obtain ⟨hpoints, hobj⟩ := hos x hx
  have hle := hsu.extends.settled
  obtain ⟨v, site, o, maker, handle, happlies, hk, hv, rfl⟩ := hr.mono hle
  simp only [Service.bind_eq, Service.run_bind, bind_eq_ok, Service.obj_eq_ok] at huw
  obtain ⟨_, _, ⟨rfl, rfl⟩, huw⟩ := huw
  split at huw
  · rename_i m hm
    simp only [Service.run_bind, bind_eq_ok] at huw
    obtain ⟨c, y, hselect, hcall⟩ := huw
    have hobj' : ∀ x' ∈ some x, u.settled.HasObj x' := by
      rintro _ ⟨⟩
      exact hobj.mono hle
    refine follows_call hselect hcall happlies.context hobj' fun huy hc => ?_
    have huy' := huy.extends.settled
    refine .receive (happlies.mono huy') hk hv (x := x) ?_ ?_ hc
    · rw [huy.pointsTo, hsu.accretes.pointsTo]
      exact hpoints
    · rw [Heap.typeOf_of_grows (hobj' x rfl).2 huy.heap]
      exact hm
  · exact (pure_eq_ok.1 huw).2 ▸ .refl _

/-- A call of a static method follows the rules. -/
theorem follows_callStatic {x : Unit}
    (h : (callStatic env ⟨v.context, site⟩ handle.target
      (payload env.program site maker o)).run env s = .ok x t)
    (happlies : Applies env s.settled v site o maker handle)
    (hk : handle.kind = .invokeStatic) : Follows env s t := by
  unfold callStatic at h
  split at h
  · exact (pure_eq_ok.1 h).2 ▸ .refl _
  · rename_i m hm
    simp only [Service.bind_eq, Service.run_bind, bind_eq_ok] at h
    obtain ⟨c, u, hselect, hcall⟩ := h
    exact follows_call hselect hcall happlies.context (by simp) fun hsu hc =>
      .static (happlies.mono hsu.extends.settled) hk hm hc

/-- A call that has to wait follows the rules, and waits with a reason. -/
theorem follows_callInstance
    (h : (callInstance env st receiver r).run env s = .ok q t) (hg : s.Grounded)
    (hst : st.Justified env s.settled) (hr : Justifies env s.settled receiver r) :
    Follows env s t ∧ q.Justified env t.settled := by
  unfold callInstance at h
  split at h
  · obtain ⟨rfl, rfl⟩ := pure_eq_ok.1 h
    exact ⟨.refl _, hst⟩
  · simp only [Service.bind_eq, Service.run_bind, bind_eq_ok, Service.varPointsTo_eq_ok,
      Service.pure_eq, Service.run_done, pure_eq_ok] at h
    obtain ⟨_, _, ⟨rfl, rfl⟩, _, _, hresolve, rfl, rfl⟩ := h
    have hfollows := follows_resolvePending hresolve hr fun o ho => ⟨ho, hg.points _ o ho⟩
    have hst' := hst.mono hfollows.extends.settled
    refine ⟨hfollows, hst'.created, hst.kind, hst'.constructed, ?_⟩
    intro v' r' hmem
    rcases OrderedSet.mem_insert.1 hmem with heq | hmem
    · cases heq
      exact hr.mono hfollows.extends.settled
    · exact hst'.pending v' r' hmem

/-- A call of a constructor follows the rules, and so does the object that it makes. -/
theorem follows_callConstructor
    (h : (callConstructor env st maker ⟨v.context, site⟩ handle.target
      (payload env.program site maker o)).run env s = .ok q t)
    (hst : st.Justified env s.settled) (happlies : Applies env s.settled v site o maker handle)
    (hk : handle.kind = .newInvokeSpecial) : Follows env s t ∧ q.Justified env t.settled := by
  unfold callConstructor at h
  split at h
  · obtain ⟨rfl, rfl⟩ := pure_eq_ok.1 h
    exact ⟨.refl _, hst⟩
  · rename_i m hm
    simp only [Service.bind_eq, Service.run_bind, bind_eq_ok, Service.pure_eq, Service.run_done,
      pure_eq_ok] at h
    obtain ⟨⟨i, table⟩, u, hmake, _, w, hassign, c, y, hselect, _, z, hthis, _, z', hadd, rfl,
      rfl⟩ := h
    obtain ⟨_, hkind, htable, hi⟩ := MockTable.getOrCreate_ok hmake hst.constructed
    rw [hst.kind] at hi
    have hsu := follows_getOrCreate hmake
    have hu := happlies.mono hsu.extends.settled
    -- the object reaches the result of the call, if that has one
    have huw : Follows env u w := by
      rcases Service.option_forM_cases hassign with ⟨_, rfl⟩ | ⟨result, hresult, hassign⟩
      · exact .refl _
      · simp only [Service.addVarObj, Service.run_addPointsTo, modify_eq_ok] at hassign
        exact Solver.Adds.evolves (a := .points _ _) hassign (.yield hu hk hm hi hresult)
    have hw := hu.mono huw.extends.settled
    have hmade : ∀ x ∈ some (⟨v.context, i⟩ : QObj), w.settled.HasObj x := by
      rintro _ ⟨⟩
      exact ⟨hw.context, _, huw.accretes.heap _ _ hi⟩
    obtain ⟨hwy, hc⟩ := follows_callContext hselect hw.context hmade
    have hy := hw.mono hwy.extends.settled
    -- and then the constructor is entered on it
    obtain rfl := Service.eq_enterOn hthis hadd
    have hentered : Follows env y (y.enterOn (env.program.method m).receiver ⟨v.context, i⟩ _) :=
      Solver.Adds.evolves (a := .enter _ _ _) rfl
        (.construct hy hk hm (hwy.accretes.heap _ _ (huw.accretes.heap _ _ hi)) hc)
    have hall := hsu.trans (huw.trans (hwy.trans hentered))
    have hst' := hst.mono hall.extends.settled
    refine ⟨hall, hst'.created, hkind.trans hst.kind, htable.mono ?_, hst'.pending⟩
    exact (huw.trans (hwy.trans hentered)).extends.settled

/-- A call of any method follows the rules. -/
theorem follows_callHandle
    (h : (callHandle env st maker ⟨v.context, site⟩ handle
      (payload env.program site maker o)).run env s = .ok q t) (hg : s.Grounded)
    (hst : st.Justified env s.settled) (happlies : Applies env s.settled v site o maker handle) :
    Follows env s t ∧ q.Justified env t.settled := by
  rcases callHandle_cases h with ⟨hk, hrun⟩ | ⟨hk, hrun, rfl⟩ | ⟨hk, receiver, hv, hrun⟩ |
    ⟨rfl, rfl⟩
  · exact follows_callConstructor hrun hst happlies hk
  · have hfollows := follows_callStatic hrun happlies hk
    exact ⟨hfollows, hst.mono hfollows.extends.settled⟩
  · exact follows_callInstance hrun hg hst ⟨v, site, o, maker, handle, happlies, hk, hv, rfl⟩
  · exact ⟨.refl _, hst⟩

/-- Calls that waited follow the rules when they are resolved. -/
theorem follows_wake {x : Unit} (h : (wake env st v).run env s = .ok x t) (hg : s.Grounded)
    (hst : st.Justified env s.settled) : Follows env s t := by
  unfold wake at h
  split at h
  · exact (pure_eq_ok.1 h).2 ▸ .refl _
  · simp only [Service.bind_eq, Service.run_bind, bind_eq_ok, Service.varPointsTo_eq_ok,
      Service.run_forM] at h
    obtain ⟨_, _, ⟨rfl, rfl⟩, h⟩ := h
    refine (forM_rel (R := Follows env) .refl .trans h ?_).1
    intro r hr u w hsu huw
    have hle := hsu.extends.settled
    refine follows_resolvePending huw ((hst.pending v r (Waitlist.mem_get.1 hr)).mono hle) ?_
    intro o ho
    rw [hsu.accretes.pointsTo]
    exact ⟨ho, (hg.points _ o ho).mono hle⟩

/-- The lambda objects of a method are those that its call sites make. -/
theorem follows_createAll {m : MethodId} {made : List (MethodId × InvokeId × ObjId)}
    (h : (createAll env m).run env s = .ok made t) (hp : env.program.Numbered) :
    Follows env s t ∧ ∀ e ∈ made, ∃ d, Makes env.program e.1 e.2.1 d ∧
      t.heap.get? e.2.2 = some (madeObj e.1 e.2.1 d) := by
  refine Service.filterMapM_rel (R := Follows env)
    (Q := fun u (e : MethodId × InvokeId × ObjId) => ∃ d, Makes env.program e.1 e.2.1 d ∧
      u.heap.get? e.2.2 = some (madeObj e.1 e.2.1 d)) .refl .trans ?_ h ?_
  · rintro u w e ⟨d, hmakes, ho⟩ huw
    exact ⟨d, hmakes, huw.accretes.heap _ _ ho⟩
  · intro call hcall b u w _ huw
    obtain ⟨site, hsite, rfl⟩ := Program.mem_invokesIn.1 hcall
    split at huw
    · obtain ⟨rfl, rfl⟩ := pure_eq_ok.1 huw
      exact ⟨.refl _, by simp⟩
    · rename_i d hd
      have hid : (env.program.invoke site).id = site := by
        refine (hp.invoke_cases site).resolve_right fun hdefault => ?_
        rw [hdefault] at hd
        cases hd
      split at huw
      · rename_i hfactory
        simp only [Service.bind_eq, Service.run_bind, bind_eq_ok, Service.pure_eq,
          Service.run_done, pure_eq_ok] at huw
        obtain ⟨i, y, hmock, rfl, rfl⟩ := huw
        obtain ⟨hfollows, hi⟩ := follows_mock hmock
        refine ⟨hfollows, ?_⟩
        rintro _ ⟨⟩
        rw [hid] at hi ⊢
        exact ⟨d, ⟨hsite, hd, hfactory⟩, hi⟩
      · obtain ⟨rfl, rfl⟩ := pure_eq_ok.1 huw
        exact ⟨.refl _, by simp⟩

/-- Lambda objects are assigned as the rules say. -/
theorem follows_assignCreated {m : QMethod} {x : Unit}
    (h : (assignCreated env st m).run env s = .ok x t) (hst : st.Justified env s.settled)
    (hm : m ∈ s.calls.reachableIn) : Follows env s t := by
  simp only [assignCreated, Service.run_forM] at h
  refine (forM_rel (R := Follows env) .refl .trans h ?_).1
  rintro ⟨owner, site, o⟩ hmem u w hsu huw
  dsimp only at huw
  split at huw
  · rename_i result hresult
    split at huw
    · rename_i howner
      subst howner
      obtain ⟨d, hmakes, ho⟩ := hst.created _ _ _ hmem
      simp only [Service.addVarObj, Service.run_addPointsTo, modify_eq_ok] at huw
      exact Solver.Adds.evolves (a := .points _ _) huw (.assign
        (hsu.extends.reachableIn hm) hmakes (hsu.accretes.heap _ _ ho) hresult)
    · exact (pure_eq_ok.1 huw).2 ▸ .refl _
  · exact (pure_eq_ok.1 huw).2 ▸ .refl _

/-- The flow along a lambda edge is as the rules say. -/
theorem follows_addFlows {e : CallEdge} {call : LambdaCall} {x : Unit}
    (h : (Service.addFlows (wiring env.program e call)).run env s = .ok x t)
    (he : e ∈ s.calls.edges) (hk : e.kind = .lambda call) : Follows env s t := by
  simp only [Service.addFlows, Service.run_forM, Service.run_addFlow] at h
  refine (forM_rel (R := Follows env) .refl .trans h ?_).1
  intro f hf u w hsu huw
  exact Solver.Adds.evolves (a := .flow f) (modify_eq_ok.1 huw)
    (.wiring (hsu.extends.settled.call he) hk hf)

/-- Every reaction keeps to the rules of the plugin, and there stay reasons for all that is
remembered. -/
theorem follows_react {e : Event} (h : (react env e st).run env s = .ok q t)
    (hp : env.program.Numbered) (hg : s.Grounded) (hst : st.Justified env s.settled)
    (he : e.Holds env s) : Follows env s t ∧ q.Justified env t.settled := by
  cases e with
  | start | finish =>
      obtain ⟨rfl, rfl⟩ := pure_eq_ok.1 h
      exact ⟨.refl _, hst⟩
  | method m =>
      simp only [react, Service.bind_eq, Service.run_bind, bind_eq_ok, Service.pure_eq,
        Service.run_done, pure_eq_ok] at h
      obtain ⟨made, _, hmake, rfl, rfl⟩ := h
      obtain ⟨hfollows, hmade⟩ := follows_createAll hmake hp
      have hst' := hst.mono hfollows.extends.settled
      refine ⟨hfollows, ?_, hst'.kind, hst'.constructed, hst'.pending⟩
      intro m' i o hmem
      rcases List.mem_append.1 hmem with hmem | hmem
      · exact hst'.created m' i o hmem
      · exact hmade _ hmem
  | methodIn m =>
      simp only [react, Service.bind_eq, Service.run_bind, bind_eq_ok, Service.pure_eq,
        Service.run_done, pure_eq_ok] at h
      obtain ⟨_, _, hassign, rfl, rfl⟩ := h
      have hfollows := follows_assignCreated hassign hst he.1
      exact ⟨hfollows, hst.mono hfollows.extends.settled⟩
  | unresolved o context site =>
      rcases callOn_cases h with ⟨maker, handle, hfits, hrun⟩ | ⟨_, rfl, rfl⟩
      · obtain ⟨⟨v, rfl, hpoints, huse⟩, hcontext, hobj, hnone⟩ := he
        exact follows_callHandle hrun hg hst ⟨hcontext, hobj, hpoints, huse, hnone, hfits⟩
      · exact ⟨.refl _, hst⟩
  | grown v delta =>
      simp only [react, Service.bind_eq, Service.run_bind, bind_eq_ok, Service.pure_eq,
        Service.run_done, pure_eq_ok] at h
      obtain ⟨_, _, hwake, rfl, rfl⟩ := h
      have hfollows := follows_wake hwake hg hst
      exact ⟨hfollows, hst.mono hfollows.extends.settled⟩
  | edge e =>
      cases hk : e.kind with
      | lambda call =>
          simp only [react, hk, Service.bind_eq, Service.run_bind, bind_eq_ok, Service.pure_eq,
            Service.run_done, pure_eq_ok] at h
          obtain ⟨_, _, hflow, rfl, rfl⟩ := h
          have hfollows := follows_addFlows hflow he hk
          exact ⟨hfollows, hst.mono hfollows.extends.settled⟩
      | static | virtual | interface | special | reflective =>
          simp only [react, hk, Service.pure_eq, Service.run_done, pure_eq_ok] at h
          obtain ⟨rfl, rfl⟩ := h
          exact ⟨.refl _, hst⟩

/-! ## Members -/

/-- A member is the plugin for lambdas, and there are reasons for all that it remembers. -/
def JustifiedMember (env : Setting) (k : View) (m : Member) : Prop :=
  ∃ st, m = .lambda st ∧ st.Justified env k

/-- Where the plugin for lambdas is the only kind of plugin, and takes part only if it is
{lit}`on`, its rules are the only ones besides those of the analysis. -/
theorem honest_justified (hp : env.program.Numbered) (on : Bool) :
    Member.plugin.Honest env (fun s a => on = true ∧ LambdaRule env s a)
      (fun k m => on = true ∧ JustifiedMember env k m) where
  rule_exists := fun hs h => h.2.exists hs
  mono := by
    rintro k l _ ⟨hon, st, rfl, hst⟩ hle
    exact ⟨hon, st, rfl, hst.mono hle⟩
  react := by
    rintro s t e _ q hs ⟨hon, st, rfl, hst⟩ he h
    obtain ⟨st', rfl, hr⟩ := Member.react_lambda.1 h
    obtain ⟨hfollows, hst'⟩ := follows_react hr hp hs.grounded hst he
    exact ⟨hfollows.mono fun _ _ hrule => ⟨hon, hrule⟩, hon, st', rfl, hst'⟩

end PointsTo.Lambda
