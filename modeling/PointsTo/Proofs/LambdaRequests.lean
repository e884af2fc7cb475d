import PointsTo.Proofs.LambdaCalls
import PointsTo.Proofs.PluginRequests

/-!
# What the plugin for lambdas may ask for

The plugin makes lambda objects, hands them to the results of their call sites, and runs the
methods behind them: at once where no receiver is needed, else for each object that the receiver
may be.  Each function of the plugin is read once here; what it asks for, and what the plugin
remembers afterwards, is listed case by case.

Main results:

- {lit}`Lambda.Asked`, {lit}`Lambda.Became`: what the plugin may ask for at an event, and what it
  may remember afterwards.
- Theorem {lit}`Lambda.asks_react`: it asks for nothing else.
-/

namespace PointsTo.Lambda

open Service

variable {env : Setting} {R : Request → Prop} {A : (r : Request) → r.Answer → Prop} {st : State}
  {maker : InvokeId} {site : QSite} {handle : MethodHandle} {call : LambdaCall} {m : MethodId}

/-! ## Lambda objects -/

/-- The stand-in that a dynamic call site in a method makes. -/
def made (m : MethodId) (site : Invoke) (d : DynamicCall) : MockObj where
  kind := .lambda
  site := .invoke site.id
  type := d.methodType.ret
  container := some m

/-- The entry for a lambda object of a method, with the answer to the request for the object. -/
def Created (p : Program) (A : (r : Request) → r.Answer → Prop) (m : MethodId)
    (x : MethodId × InvokeId × ObjId) : Prop :=
  ∃ call ∈ p.invokesIn m, ∃ d, call.dynamic = some d ∧ isFactory d.bootstrap = true ∧
    x.1 = m ∧ x.2.1 = call.id ∧ A (.mock (made m call d)) x.2.2

/-- The lambda objects of a method are those of its dynamic call sites. -/
theorem asks_createAll (hR : ∀ call ∈ env.program.invokesIn m, ∀ d, call.dynamic = some d →
    isFactory d.bootstrap = true → R (.mock (made m call d))) :
    (createAll env m).Asks R A fun created => ∀ x ∈ created, Created env.program A m x := by
  refine asks_filterMapM_forall fun call hcall => ?_
  split
  · exact fun _ h => absurd h (by simp)
  · rename_i d hd
    split
    · rename_i hfactory
      refine Asks.bind (asks_request (hR call hcall d hd hfactory)) fun o ho => ?_
      rintro _ ⟨⟩
      exact ⟨call, hcall, d, hd, hfactory, rfl, rfl, ho⟩
    · exact fun _ h => absurd h (by simp)

/-- The lambda objects of a method go to the results of their call sites. -/
theorem asks_assignCreated {q : QMethod}
    (hR : ∀ i o result, (q.item, i, o) ∈ st.created → (env.program.invoke i).result = some result →
      R (.addPointsTo (varPointer q.context result) (.singleton ⟨q.context, o⟩))) :
    (assignCreated env st q).Asks R A Any := by
  refine asks_forM fun ⟨owner, i, o⟩ hmem => ?_
  dsimp only
  split
  · rename_i result hresult
    split
    · rename_i howner
      subst howner
      exact (asks_request (hR i o result hmem hresult)).mono fun _ _ => trivial
    · trivial
  · trivial

/-! ## Calls of instance methods -/

/-- What is asked for to resolve a call that waits on a variable: the receivers, the type of each,
and a call of the method that this type has. -/
inductive Resolving (p : Program) (A : (r : Request) → r.Answer → Prop) (v : QVar)
    (waiting : PendingCall) : Request → Prop
  | receivers : Resolving p A v waiting (.pointsTo (.var v))
  | look {os o} (hos : A (.pointsTo (.var v)) os) (ho : o ∈ os) :
      Resolving p A v waiting (.obj o.item)
  | run {os o x m r} (hos : A (.pointsTo (.var v)) os) (ho : o ∈ os) (hx : A (.obj o.item) x)
      (hm : pendingTarget? p waiting x.type = some m)
      (hr : Request.Runs A waiting.site (some o) m (.lambda waiting.call) r) :
      Resolving p A v waiting r

/-- A call that waits is run on each receiver that its type has a method for. -/
theorem asks_resolvePending {v : QVar} {waiting : PendingCall} {receivers : ObjSet}
    (hreceivers : A (.pointsTo (.var v)) receivers)
    (hR : ∀ r, Resolving env.program A v waiting r → R r) :
    (resolvePending env waiting receivers).Asks R A Any := by
  refine asks_forM fun o ho => ?_
  refine Asks.bind (asks_request (hR _ (.look hreceivers ho))) fun x hx => ?_
  split
  · rename_i m hm
    exact asks_runs fun r hr => hR r (.run hreceivers ho hx hm hr)
  · trivial

/-- A call of an instance method waits on the variable of its receiver from then on. -/
theorem asks_callInstance {v : QVar} {waiting : PendingCall}
    (hR : ∀ r, Resolving env.program A v waiting r → R r) :
    (callInstance env st v waiting).Asks R A fun st' =>
      st' = st ∨ st' = { st with pending := st.pending.register v waiting } := by
  unfold callInstance
  split
  · exact .inl rfl
  · refine Asks.bind (asks_request (hR _ .receivers)) fun receivers hreceivers => ?_
    exact Asks.bind (asks_resolvePending hreceivers hR) fun _ _ => .inr rfl

/-- Calls are resolved again when the variable that they wait on refers to more. -/
theorem asks_wake {v : QVar} (hR : ∀ waiting, (v, waiting) ∈ st.pending.pairs →
    ∀ r, Resolving env.program A v waiting r → R r) : (wake env st v).Asks R A Any := by
  unfold wake
  split
  · trivial
  · rename_i hget
    obtain ⟨first, hfirst⟩ := List.exists_mem_of_ne_nil _ hget
    refine Asks.bind (asks_request (hR first (Waitlist.mem_get.1 hfirst) _ .receivers))
      fun receivers hreceivers => asks_forM fun waiting hwaiting => ?_
    exact asks_resolvePending hreceivers (hR waiting (Waitlist.mem_get.1 hwaiting))

/-! ## Calls of other methods -/

/-- What is asked for to run a constructor: the new object, which goes to the result of the call
and is the receiver of the constructor. -/
inductive Constructing (p : Program) (A : (r : Request) → r.Answer → Prop) (table : MockTable)
    (maker : InvokeId) (site : QSite) (target : MethodRef) (call : LambdaCall) : Request → Prop
  | make : Constructing p A table maker site target call
      (.mock (table.wanted p maker (.cls target.className)))
  | result {i v} (hi : table.Hands p A maker (.cls target.className) i)
      (hv : (p.invoke site.item).result = some v) :
      Constructing p A table maker site target call
        (.addPointsTo (varPointer site.context v) (.singleton ⟨site.context, i⟩))
  | run {i m r} (hi : table.Hands p A maker (.cls target.className) i)
      (hm : p.resolve? target = some m)
      (hr : Request.RunsOn p A site ⟨site.context, i⟩ m (.lambda call) r) :
      Constructing p A table maker site target call r

/-- A constructor is run on an object that the table hands out. -/
theorem asks_callConstructor {target : MethodRef}
    (hR : ∀ r, Constructing env.program A st.constructed maker site target call r → R r) :
    (callConstructor env st maker site target call).Asks R A fun st' =>
      ∃ table, st.constructed.Fills env.program A (· = maker) table ∧
        st' = { st with constructed := table } := by
  unfold callConstructor
  split
  · exact ⟨_, .refl _, rfl⟩
  · rename_i m hm
    refine Asks.bind (MockTable.asks_getOrCreate (hR _ .make)) ?_
    rintro ⟨i, table⟩ ⟨hi, htable⟩
    refine Asks.bind (asks_option_forM fun v hv => ?_) fun _ _ => ?_
    · exact (asks_request (hR _ (.result hi hv))).mono fun _ _ => trivial
    · exact asks_runsOn (fun r hr => hR r (.run hi hm hr)) ⟨table, htable, rfl⟩

/-- A static method is run without a receiver. -/
theorem asks_callStatic {target : MethodRef}
    (hR : ∀ m, env.program.resolve? target = some m →
      ∀ r, Request.Runs A site none m (.lambda call) r → R r) :
    (callStatic env site target call).Asks R A Any := by
  unfold callStatic
  split
  · trivial
  · rename_i m hm
    exact asks_runs (hR m hm)

/-! ## Calls on lambda objects -/

/-- What is asked for to run the method of a handle. -/
inductive Handling (env : Setting) (A : (r : Request) → r.Answer → Prop) (st : State)
    (maker : InvokeId) (site : QSite) (handle : MethodHandle) (call : LambdaCall) : Request → Prop
  | construct {r} (hkind : handle.kind = .newInvokeSpecial)
      (hr : Constructing env.program A st.constructed maker site handle.target call r) :
      Handling env A st maker site handle call r
  | static {m r} (hkind : handle.kind = .invokeStatic)
      (hm : env.program.resolve? handle.target = some m)
      (hr : Request.Runs A site none m (.lambda call) r) :
      Handling env A st maker site handle call r
  | resolve {v r} (hkind : handle.kind ∈ [.invokeVirtual, .invokeInterface, .invokeSpecial])
      (hv : receiverVar? call.captured (env.program.invoke site.item).args call.lambdaContext
        site.context = some v)
      (hr : Resolving env.program A v ⟨site, handle.kind, handle.target, call⟩ r) :
      Handling env A st maker site handle call r

/-- What is remembered after the method of a handle was run: perhaps a new object, or a call that
waits on its receiver. -/
inductive Handled (env : Setting) (A : (r : Request) → r.Answer → Prop) (st : State)
    (maker : InvokeId) (site : QSite) (handle : MethodHandle) (call : LambdaCall) : State → Prop
  | same : Handled env A st maker site handle call st
  | constructed {table} (htable : st.constructed.Fills env.program A (· = maker) table) :
      Handled env A st maker site handle call { st with constructed := table }
  | waiting {v} (hkind : handle.kind ∈ [.invokeVirtual, .invokeInterface, .invokeSpecial])
      (hv : receiverVar? call.captured (env.program.invoke site.item).args call.lambdaContext
        site.context = some v) :
      Handled env A st maker site handle call
        { st with pending := st.pending.register v ⟨site, handle.kind, handle.target, call⟩ }

/-- The kind of a handle decides how its method is run. -/
theorem asks_callHandle (hR : ∀ r, Handling env A st maker site handle call r → R r) :
    (callHandle env st maker site handle call).Asks R A
      (Handled env A st maker site handle call) := by
  unfold callHandle
  split
  · rename_i hkind
    refine (asks_callConstructor fun r hr => hR r (.construct hkind hr)).mono ?_
    rintro _ ⟨table, htable, rfl⟩
    exact .constructed htable
  iterate 3
    rename_i hkind
    have hmem : handle.kind ∈ [HandleKind.invokeVirtual, .invokeInterface, .invokeSpecial] := by
      simp [hkind]
    split
    · rename_i v hv
      refine (asks_callInstance fun r hr => hR r (.resolve hmem hv hr)).mono ?_
      rintro _ (rfl | rfl)
      · exact .same
      · exact .waiting hmem hv
    · exact .same
  · rename_i hkind
    refine Asks.bind (asks_callStatic fun m hm r hr => hR r (.static hkind hm hr)) fun _ _ => ?_
    exact .same
  all_goals trivial

/-- A call at a site under a context is one on a lambda object: the answer to the request for the
object fits a handle, and the call passes what the site of the object captures. -/
structure Calls (p : Program) (A : (r : Request) → r.Answer → Prop) (o : QObj) (site : InvokeId)
    (maker : InvokeId) (handle : MethodHandle) (call : LambdaCall) : Prop where
  fits : ∃ x, A (.obj o.item) x ∧ Fits p x site maker handle
  call : call =
    { captured := (p.invoke maker).args, lambdaContext := o.context
      result := (p.invoke site).result }

/-- An object is looked at, and its handle performed if it fits. -/
theorem asks_callOn {o : QObj} (hlook : R (.obj o.item))
    (hR : ∀ maker handle call, Calls env.program A o site.item maker handle call →
      ∀ r, Handling env A st maker site handle call r → R r) :
    (callOn env st o site).Asks R A fun st' => st' = st ∨ ∃ maker handle call,
      Calls env.program A o site.item maker handle call ∧
        Handled env A st maker site handle call st' := by
  refine Asks.bind (asks_request hlook) fun x hx => ?_
  split
  · rename_i maker hmock hmaker
    dsimp only
    split
    · exact .inl rfl
    · rename_i d hd
      split
      · rename_i handle hname hhandle
        have hcalls : Calls env.program A o site.item maker handle
            { captured := (env.program.invoke maker).args, lambdaContext := o.context
              result := (env.program.invoke site.item).result } :=
          ⟨⟨x, hx, Obj.kind_of_isMock hmock hmaker, d, hd, of_decide_eq_true hname, hhandle⟩, rfl⟩
        exact (asks_callHandle (hR _ _ _ hcalls)).mono fun _ h => .inr ⟨_, _, _, hcalls, h⟩
      · exact .inl rfl
  · exact .inl rfl

/-! ## Reactions -/

/-- What the plugin may ask for at an event. -/
inductive Asked (env : Setting) (A : (r : Request) → r.Answer → Prop) (st : State) :
    Event → Request → Prop
  | create {m call d} (hcall : call ∈ env.program.invokesIn m) (hd : call.dynamic = some d)
      (hfactory : isFactory d.bootstrap = true) :
      Asked env A st (.method m) (.mock (made m call d))
  | assign {q : QMethod} {i o result} (hmem : (q.item, i, o) ∈ st.created)
      (hresult : (env.program.invoke i).result = some result) :
      Asked env A st (.methodIn q)
        (.addPointsTo (varPointer q.context result) (.singleton ⟨q.context, o⟩))
  | look {o c i} : Asked env A st (.unresolved o c i) (.obj o.item)
  | handle {o c i maker handle call r} (hcalls : Calls env.program A o i maker handle call)
      (hr : Handling env A st maker ⟨c, i⟩ handle call r) : Asked env A st (.unresolved o c i) r
  | wake {v delta waiting r} (hmem : (v, waiting) ∈ st.pending.pairs)
      (hr : Resolving env.program A v waiting r) : Asked env A st (.grown v delta) r
  | wire {e call f} (hk : e.kind = .lambda call) (hf : f ∈ wiring env.program e call) :
      Asked env A st (.edge e) (.addFlow f)

/-- What the plugin may remember after an event. -/
inductive Became (env : Setting) (A : (r : Request) → r.Answer → Prop) (st : State) :
    Event → State → Prop
  | same {e} : Became env A st e st
  | created {m created} (hcreated : ∀ x ∈ created, Created env.program A m x) :
      Became env A st (.method m) { st with created := st.created ++ created }
  | handled {o c i maker handle call st'} (hcalls : Calls env.program A o i maker handle call)
      (hst : Handled env A st maker ⟨c, i⟩ handle call st') :
      Became env A st (.unresolved o c i) st'

/-- The plugin asks for what is listed and for nothing else, and so it is with what it
remembers. -/
theorem asks_react (e : Event) :
    (react env e st).Asks (Asked env A st e) A (Became env A st e) := by
  cases e with
  | start | finish => exact .same
  | method m =>
      refine Asks.bind (asks_createAll fun call hcall d hd hfactory => ?_)
        fun created hcreated => ?_
      · exact .create hcall hd hfactory
      · exact .created hcreated
  | methodIn q =>
      exact Asks.bind (asks_assignCreated fun i o result hmem hresult => .assign hmem hresult)
        fun _ _ => .same
  | unresolved o c i =>
      refine (asks_callOn .look fun maker handle call hcalls r hr => .handle hcalls hr).mono ?_
      rintro _ (rfl | ⟨maker, handle, call, hcalls, hst⟩)
      · exact .same
      · exact .handled hcalls hst
  | grown v delta =>
      exact Asks.bind (asks_wake fun waiting hmem r hr => .wake hmem hr) fun _ _ => .same
  | edge e =>
      unfold react
      dsimp only
      split
      · rename_i call hk
        refine Asks.bind (asks_forM fun f hf => ?_) fun _ _ => .same
        exact (asks_request (.wire hk hf)).mono fun _ _ => trivial
      · exact .same

end PointsTo.Lambda
