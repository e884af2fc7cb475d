import PointsTo.Proofs.LambdaClosure
import PointsTo.Proofs.LambdaDerivations

/-!
# Runs with lambdas find the least fixpoint

A run with no plugin but the one for lambdas finds all that the rules of the analysis and of
that plugin derive from the entry methods, and nothing else.  That it finds nothing else is
shown where the rules are; this file shows that it finds everything: lambda objects are made
and assigned, calls on them run what their handles say, and values flow along lambda edges.

Main results:

- {lit}`Lambda.Furnished`: the lambda objects of all reachable methods are where they belong;
  theorem {lit}`Lambda.furnished_of_visits`.
- {lit}`Lambda.Connected`: the flow along all lambda edges is there; theorem
  {lit}`Lambda.connected_of_visits`.
- Theorem {lit}`Analysis.least_with_lambdas`: an analysis without reflection and added plugins
  yields the least family of facts that is closed under the rules.
-/

namespace PointsTo

namespace Lambda

variable {env : Setting} {s t : Solver} {k l : View} {st q : State}

/-! ## Lambda objects -/

/-- The lambda objects of a method under a context reach the results of the call sites that
make them. -/
def Made (env : Setting) (k : View) (m : QMethod) : Prop :=
  ∀ site d, Makes env.program m.item site d → ∀ result ∈ (env.program.invoke site).result,
    ∃ o, k.heap.get? o = some (madeObj m.item site d) ∧
      k.points (varPointer m.context result) ⟨m.context, o⟩

/-- The plugin has the lambda objects of a method at hand. -/
def Prepared (p : Program) (k : View) (m : MethodId) (st : State) : Prop :=
  ∀ site d, Makes p m site d →
    ∃ o, (m, site, o) ∈ st.created ∧ k.heap.get? o = some (madeObj m site d)

/-- Lambda objects that were made stay made. -/
theorem Made.mono {m : QMethod} (h : Made env k m) (hle : k.Le l) : Made env l m := by
  intro site d hmakes result hresult
  obtain ⟨o, ho, hpoints⟩ := h site d hmakes result hresult
  exact ⟨o, hle.heap _ _ ho, hle.points hpoints⟩

/-- A method that was prepared stays prepared while the plugin remembers its objects. -/
theorem Prepared.mono {p : Program} {m : MethodId} (h : Prepared p k m st) (hle : k.Le l)
    (hcreated : ∀ e ∈ st.created, e ∈ q.created) : Prepared p l m q := by
  intro site d hmakes
  obtain ⟨o, hmem, ho⟩ := h site d hmakes
  exact ⟨o, hcreated _ hmem, hle.heap _ _ ho⟩

/-- All lambda objects of a method are made. -/
theorem prepared_of_createAll {m : MethodId} {made : List (MethodId × InvokeId × ObjId)}
    (h : (createAll env m).run env s = .ok made t) (hp : env.program.Numbered) {site : InvokeId}
    {d : DynamicCall} (hmakes : Makes env.program m site d) :
    ∃ o, (m, site, o) ∈ made ∧ t.heap.get? o = some (madeObj m site d) := by
  obtain ⟨_, hall⟩ := Service.mem_of_filterMapM (R := Solver.Accretes) .refl .trans h
    fun _ _ _ _ _ hstep => (Service.evolves hstep).accretes
  obtain ⟨b, u, v, hstep, hvt, hmem⟩ :=
    hall (env.program.invoke site) (Program.mem_invokesIn.2 ⟨site, hmakes.stmt, rfl⟩)
  have hid : (env.program.invoke site).id = site := by
    refine (hp.invoke_cases site).resolve_right fun hdefault => ?_
    have hdynamic := hmakes.dynamic
    rw [hdefault] at hdynamic
    cases hdynamic
  simp only [hmakes.dynamic, hmakes.factory, if_true, Service.bind_eq, Service.run_bind,
    bind_eq_ok, Service.pure_eq, Service.run_done, pure_eq_ok] at hstep
  obtain ⟨o, _, hmock, rfl, rfl⟩ := hstep
  obtain ⟨_, ho⟩ := follows_mock hmock
  rw [hid] at ho hmem
  exact ⟨o, hmem _ rfl, hvt.heap _ _ ho⟩

/-- The lambda objects that are at hand are assigned. -/
theorem made_of_assignCreated {m : QMethod} {x : Unit}
    (h : (assignCreated env st m).run env s = .ok x t)
    (hprepared : Prepared env.program s.settled m.item st) : Made env t.expected m := by
  simp only [assignCreated, Service.run_forM] at h
  obtain ⟨hst, hall⟩ := forM_rel (R := Solver.Accretes) .refl .trans h
    fun _ _ _ _ _ hstep => (Service.evolves hstep).accretes
  intro site d hmakes result hresult
  obtain ⟨o, hmem, ho⟩ := hprepared site d hmakes
  obtain ⟨u, v, _, huv, hvt⟩ := hall _ hmem
  have hsome : (env.program.invoke site).result = some result := hresult
  simp only [hsome, if_true, Service.addVarObj, Service.run_addPointsTo, modify_eq_ok] at huv
  refine ⟨o, hst.heap _ _ ho, hvt.extends.expected.points ?_⟩
  rw [huv]
  exact Solver.owes_addObj u _ _

/-- The plugin forgets no lambda object in a call. -/
theorem created_of_callHandle {maker : InvokeId} {site : QSite} {handle : MethodHandle}
    {call : LambdaCall}
    (h : (callHandle env st maker site handle call).run env s = .ok q t) :
    q.created = st.created := by
  rcases callHandle_cases h with ⟨_, h⟩ | ⟨_, _, rfl⟩ | ⟨_, receiver, _, h⟩ | ⟨rfl, _⟩
  · unfold callConstructor at h
    split at h
    · exact (pure_eq_ok.1 h).1 ▸ rfl
    · simp only [Service.bind_eq, Service.run_bind, bind_eq_ok, Service.pure_eq,
        Service.run_done, pure_eq_ok] at h
      obtain ⟨_, _, _, _, _, _, _, _, _, _, _, _, _, _, _, rfl, _⟩ := h
      rfl
  · rfl
  · unfold callInstance at h
    split at h
    · exact (pure_eq_ok.1 h).1 ▸ rfl
    · simp only [Service.bind_eq, Service.run_bind, bind_eq_ok, Service.pure_eq,
        Service.run_done, pure_eq_ok] at h
      obtain ⟨_, _, _, _, _, _, rfl, _⟩ := h
      rfl
  · rfl

/-- The plugin forgets no lambda object. -/
theorem created_of_react {e : Event} (h : (react env e st).run env s = .ok q t) :
    ∀ x ∈ st.created, x ∈ q.created := by
  cases e with
  | start | finish =>
      obtain ⟨rfl, _⟩ := pure_eq_ok.1 h
      exact fun _ hx => hx
  | method m =>
      simp only [react, Service.bind_eq, Service.run_bind, bind_eq_ok, Service.pure_eq,
        Service.run_done, pure_eq_ok] at h
      obtain ⟨_, _, _, rfl, _⟩ := h
      exact fun _ hx => List.mem_append_left _ hx
  | methodIn | grown =>
      simp only [react, Service.bind_eq, Service.run_bind, bind_eq_ok, Service.pure_eq,
        Service.run_done, pure_eq_ok] at h
      obtain ⟨_, _, _, rfl, _⟩ := h
      exact fun _ hx => hx
  | unresolved o context site =>
      rcases callOn_cases h with ⟨maker, handle, _, hrun⟩ | ⟨_, rfl, _⟩
      · rw [created_of_callHandle hrun]
        exact fun _ hx => hx
      · exact fun _ hx => hx
  | edge e =>
      obtain rfl := react_edge h
      exact fun _ hx => hx

/-! ## The plugin among others -/

/-- Plugin number {lit}`k` is one for lambdas and has the lambda objects of some methods at
hand. -/
def Prepares (env : Setting) (k : Nat) (known : MethodId → Prop) (m : Machine Member) : Prop :=
  ∃ st, m.plugins[k]? = some (.lambda st) ∧
    ∀ i, known i → Prepared env.program m.solver.settled i st

namespace Prepares

variable {k : Nat} {known : MethodId → Prop} {m n : Machine Member}

/-- What is prepared stays so if plugins stay as they are and tables grow. -/
theorem of_le (h : Prepares env k known m) (hle : m.solver.settled.Le n.solver.settled)
    (hplugins : n.plugins = m.plugins) : Prepares env k known n := by
  obtain ⟨st, hk, hst⟩ := h
  exact ⟨st, hplugins ▸ hk, fun i hi => (hst i hi).mono hle fun _ hx => hx⟩

/-- What is prepared stays so while a machine acts. -/
theorem of_acts (h : Prepares env k known m) (ha : Machine.Acts Member.plugin env m n) :
    Prepares env k known n := by
  obtain ⟨st, hk, hst⟩ := h
  obtain ⟨p, hp, q, rfl, hq⟩ := ha.keeps_at
    (J := fun s p => ∃ st, p = .lambda st ∧ ∀ i, known i → Prepared env.program s.settled i st) (by
      rintro s t _ ⟨st, rfl, hst⟩ hacc
      exact ⟨st, rfl, fun i hi => (hst i hi).mono hacc.extends.settled fun _ hx => hx⟩) (by
      rintro s t _ q e ⟨st, rfl, hst⟩ _ hr
      obtain ⟨q, rfl, hq⟩ := Member.react_lambda.1 hr
      exact ⟨q, rfl, fun i hi => (hst i hi).mono (Service.evolves hr).extends.settled
        (created_of_react hq)⟩) hk ⟨st, rfl, hst⟩
  exact ⟨q, hp, hq⟩

/-- An event that is told reaches the plugin. -/
theorem reaction {e : Event} (h : Prepares env k known m)
    (htell : Machine.tell Member.plugin env e m = .ok ⟨⟩ n) :
    ∃ s st q t, m.solver.Accretes s ∧ (∀ i, known i → Prepared env.program s.settled i st) ∧
      (react env e st).run env s = .ok q t ∧ n.plugins[k]? = some (.lambda q) ∧
      t.Accretes n.solver := by
  obtain ⟨st, hk, hst⟩ := h
  obtain ⟨s, p, t, hms, hr, hp, htn⟩ := Machine.reaction_of_tell htell hk
  obtain ⟨q, rfl, hq⟩ := Member.react_lambda.1 hr
  exact ⟨s, st, q, t, hms,
    fun i hi => (hst i hi).mono hms.extends.settled fun _ hx => hx, hq, hp, htn⟩

/-- Once the plugin was told of a method, it has the lambda objects of the method at hand. -/
theorem of_tell_method {i : MethodId} (h : Prepares env k known m) (hp : env.program.Numbered)
    (htell : Machine.tell Member.plugin env (.method i) m = .ok ⟨⟩ n) :
    Prepares env k (fun j => j = i ∨ known j) n := by
  obtain ⟨s, st, q, t, _, hst, hr, hk, htn⟩ := h.reaction htell
  have hcreated := created_of_react hr
  have hst' := (Service.evolves hr).extends.settled
  simp only [react, Service.bind_eq, Service.run_bind, bind_eq_ok, Service.pure_eq,
    Service.run_done, pure_eq_ok] at hr
  obtain ⟨made, _, hmake, rfl, rfl⟩ := hr
  refine ⟨_, hk, ?_⟩
  rintro j (rfl | hj)
  · intro site d hmakes
    obtain ⟨o, hmem, ho⟩ := prepared_of_createAll hmake hp hmakes
    exact ⟨o, List.mem_append_right _ hmem, htn.heap _ _ ho⟩
  · exact (hst j hj).mono (hst'.trans htn.extends.settled) hcreated

/-- Once the plugin was told of a method under a context, the lambda objects of the method are
assigned under that context. -/
theorem made_of_tell_methodIn {i : QMethod} (h : Prepares env k known m) (hi : known i.item)
    (htell : Machine.tell Member.plugin env (.methodIn i) m = .ok ⟨⟩ n) :
    Made env n.solver.expected i := by
  obtain ⟨s, st, q, t, _, hst, hr, _, htn⟩ := h.reaction htell
  simp only [react, Service.bind_eq, Service.run_bind, bind_eq_ok, Service.pure_eq,
    Service.run_done, pure_eq_ok] at hr
  obtain ⟨_, _, hassign, rfl, rfl⟩ := hr
  exact (made_of_assignCreated hassign (hst _ hi)).mono htn.extends.expected

/-- Once the plugin was told of a lambda edge, the flow along it is there. -/
theorem wiring_of_tell_edge {e : CallEdge} {call : LambdaCall} (h : Prepares env k known m)
    (hk : e.kind = .lambda call)
    (htell : Machine.tell Member.plugin env (.edge e) m = .ok ⟨⟩ n) :
    ∀ f ∈ wiring env.program e call, f ∈ n.solver.flow.edges := by
  obtain ⟨s, st, q, t, _, _, hr, _, htn⟩ := h.reaction htell
  simp only [react, hk, Service.bind_eq, Service.run_bind, bind_eq_ok, Service.pure_eq,
    Service.run_done, pure_eq_ok, Service.addFlows, Service.run_forM, Service.run_addFlow] at hr
  obtain ⟨_, _, hflow, rfl, rfl⟩ := hr
  obtain ⟨_, hall⟩ := forM_rel (R := Solver.Accretes) .refl .trans hflow
    fun f _ u v _ hstep => by
      rw [modify_eq_ok.1 hstep]
      exact Solver.accretes_addFlow u env.program f
  intro f hf
  obtain ⟨u, v, _, huv, hvt⟩ := hall f hf
  refine htn.flow (hvt.flow ?_)
  rw [modify_eq_ok.1 huv]
  exact Solver.mem_flow_addFlow u env.program f

end Prepares

/-! ## Lambda objects are where they belong -/

/-- The plugin has the lambda objects of all reachable methods at hand, and under each context
they are assigned or on their way. -/
structure Furnished (env : Setting) (k : Nat) (m : Machine Member) : Prop where
  prepares : Prepares env k (· ∈ m.solver.calls.reachable) m
  made : ∀ i ∈ m.solver.calls.reachableIn, Made env m.solver.expected i

namespace Furnished

variable {k : Nat} {m n : Machine Member}

/-- Where the same methods are reachable and more is expected, nothing is missing. -/
theorem of_extends (h : Furnished env k m) (hmn : m.solver.Extends n.solver)
    (hreachable : n.solver.calls.reachable = m.solver.calls.reachable)
    (hreachableIn : n.solver.calls.reachableIn = m.solver.calls.reachableIn)
    (hprepares : Prepares env k (· ∈ m.solver.calls.reachable) n) : Furnished env k n := by
  refine ⟨hreachable ▸ hprepares, ?_⟩
  rw [hreachableIn]
  exact fun i hi => (h.made i hi).mono hmn.expected

/-- What is furnished stays so while a machine acts. -/
theorem of_acts (h : Furnished env k m) (ha : Machine.Acts Member.plugin env m n) :
    Furnished env k n :=
  h.of_extends ha.accretes.extends (by rw [ha.accretes.calls]) (by rw [ha.accretes.calls])
    (h.prepares.of_acts ha)

/-- Once a new method has been entered, its lambda objects are assigned too. -/
theorem of_entered {i : QMethod} (h : Furnished env k m) (hp : env.program.Numbered)
    (he : Machine.Entered Member.plugin env i m n) : Furnished env k n := by
  have hcalls : n.solver.calls = m.solver.calls.discover i := he.acts.accretes.calls
  have hdiscover := Solver.extends_discover m.solver i
  have hfound : Prepares env k (· ∈ m.solver.calls.reachable) (m.discover i) :=
    h.prepares.of_le hdiscover.settled rfl
  have hafter : Prepares env k (· ∈ n.solver.calls.reachable) n ∧ Made env n.solver.expected i := by
    have hcases : ∀ j ∈ n.solver.calls.reachable, j = i.item ∨ j ∈ m.solver.calls.reachable := by
      intro j hj
      rw [hcalls] at hj
      exact CallGraph.mem_reachable_discover hj
    by_cases hknown : i.item ∈ m.solver.calls.reachable
    · obtain ⟨u, hu, htell⟩ := he.methodIn
      obtain ⟨st, hk, hst⟩ := hfound.of_acts he.acts
      refine ⟨⟨st, hk, fun j hj => ?_⟩, (hfound.of_acts hu).made_of_tell_methodIn hknown htell⟩
      rcases hcases j hj with rfl | hj
      · exact hst _ hknown
      · exact hst j hj
    · -- the objects are made before they are assigned
      obtain ⟨u, hmethod, hun⟩ := he.method hknown
      obtain ⟨u', v, hmethod', huv, hin⟩ := he.order hknown
      cases hmethod.symm.trans hmethod'
      have hu := hfound.of_tell_method hp hmethod
      obtain ⟨st, hk, hst⟩ := hu.of_acts hun
      exact ⟨⟨st, hk, fun j hj => hst j (hcases j hj)⟩,
        (hu.of_acts huv).made_of_tell_methodIn (.inl rfl) hin⟩
  refine ⟨hafter.1, ?_⟩
  intro j hj
  rw [hcalls] at hj
  rcases CallGraph.mem_reachableIn_discover.1 hj with rfl | hj
  · exact hafter.2
  · exact ((h.made j hj).mono hdiscover.expected).mono he.acts.accretes.extends.expected

/-- Every step of a run leaves the lambda objects where they belong. -/
theorem invariant (hp : env.program.Numbered) :
    Machine.Invariant Member.plugin env (Furnished env k) where
  acts := of_acts
  entered := fun h _ hentered => h.of_entered hp hentered
  pointsTo := by
    intro m n ptr os rest h hq _ hacts _
    have htake := Solver.extends_take env.program hq
    have htaken : Furnished env k (m.taken env (.pointsTo ptr os) rest) :=
      h.of_extends htake (by simp only [Machine.taken, Solver.calls_take_pointsTo])
        (by simp only [Machine.taken, Solver.calls_take_pointsTo])
        (h.prepares.of_le htake.settled rfl)
    exact htaken.of_acts hacts
  known := by
    intro m e rest h hq _ hknown
    have htake := Solver.extends_take env.program hq
    exact h.of_extends htake (by simp only [Machine.taken, Solver.take, if_pos hknown])
      (by simp only [Machine.taken, Solver.take, if_pos hknown])
      (h.prepares.of_le htake.settled rfl)
  linked := by
    intro m n e rest h hq _ _ hlinked
    have hle := Machine.expected_le_addEdge hq
    have hedge : Furnished env k ((m.counted rest).addEdge e) :=
      ⟨h.prepares, fun i hi => (h.made i hi).mono hle⟩
    exact hlinked.keeps hedge of_acts fun hentered => hedge.of_entered hp hentered

end Furnished

/-- At every stage of a grounded run the lambda objects of all reachable methods are where they
belong. -/
theorem furnished_of_visits (hb : env.program.Built) {k : Nat} {members : List Member}
    {entries : List MethodId} {stage : Machine.Stage Member}
    (hk : members[k]? = some Member.newLambda)
    (h : Machine.Visits Member.plugin env entries (.new members) stage)
    (hg : Machine.Grounded Member.plugin env entries (.new members)) :
    Furnished env k stage.machine := by
  have hstart : Furnished env k (.new members) :=
    ⟨⟨{}, hk, fun _ hi => absurd hi (OrderedSet.not_mem_empty _)⟩,
      fun _ hi => absurd hi (OrderedSet.not_mem_empty _)⟩
  exact (Furnished.invariant hb.numbered).visits hstart h hg

/-! ## Values flow along lambda edges -/

/-- There is a plugin for lambdas, and the flow along all lambda edges is there. -/
structure Connected (env : Setting) (k : Nat) (m : Machine Member) : Prop where
  prepares : Prepares env k (fun _ => False) m
  wiring : ∀ e ∈ m.solver.calls.edges, ∀ call, e.kind = .lambda call →
    ∀ f ∈ wiring env.program e call, f ∈ m.solver.flow.edges

namespace Connected

variable {k : Nat} {m n : Machine Member}

/-- What is connected stays so while a machine acts. -/
theorem of_acts (h : Connected env k m) (ha : Machine.Acts Member.plugin env m n) :
    Connected env k n := by
  refine ⟨h.prepares.of_acts ha, ?_⟩
  intro e he call hk f hf
  rw [ha.accretes.calls] at he
  exact ha.accretes.flow (h.wiring e he call hk f hf)

/-- Every step of a run brings about the flow along lambda edges. -/
theorem invariant : Machine.Invariant Member.plugin env (Connected env k) where
  acts := of_acts
  entered := by
    intro m n i h _ hentered
    have hfound : Connected env k (m.discover i) :=
      ⟨h.prepares, fun e he => h.wiring e (by simpa [Machine.discover] using he)⟩
    exact hfound.of_acts hentered.acts
  pointsTo := by
    intro m n ptr os rest h hq _ hacts _
    refine of_acts (m := m.taken env (.pointsTo ptr os) rest)
      ⟨h.prepares.of_le (Solver.extends_take env.program hq).settled rfl, ?_⟩ hacts
    simpa only [Machine.taken, Solver.calls_take_pointsTo, Solver.flow_take] using h.wiring
  known := by
    intro m e rest h hq _ hknown
    refine ⟨h.prepares.of_le (Solver.extends_take env.program hq).settled rfl, ?_⟩
    simp only [Machine.taken, Solver.take, if_pos hknown]
    exact h.wiring
  linked := by
    intro m n e rest h hq _ hnew hlinked
    have htaken : m.taken env (.call e) rest = _ := Machine.taken_call hnew
    have hprepares : Prepares env k (fun _ => False)
        (((m.counted rest).addEdge e).discover e.callee) :=
      htaken ▸ h.prepares.of_le (Solver.extends_take env.program hq).settled rfl
    refine ⟨hprepares.of_acts hlinked.acts, ?_⟩
    intro e' he' call hk f hf
    rw [hlinked.acts.accretes.calls] at he'
    simp only [Machine.discover, CallGraph.edges_discover] at he'
    rcases OrderedSet.mem_insert.1 he' with rfl | he'
    · obtain ⟨u, hu, htell⟩ := hlinked.told
      exact (hprepares.of_acts hu).wiring_of_tell_edge hk htell f hf
    · exact hlinked.acts.accretes.flow (h.wiring e' he' call hk f hf)

end Connected

/-- At every stage of a grounded run values flow along all lambda edges. -/
theorem connected_of_visits {k : Nat} {members : List Member} {entries : List MethodId}
    {stage : Machine.Stage Member} (hk : members[k]? = some Member.newLambda)
    (h : Machine.Visits Member.plugin env entries (.new members) stage)
    (hg : Machine.Grounded Member.plugin env entries (.new members)) :
    Connected env k stage.machine := by
  have hstart : Connected env k (.new members) :=
    ⟨⟨{}, hk, fun _ hi => hi.elim⟩, fun _ he => absurd he (OrderedSet.not_mem_empty _)⟩
  exact Connected.invariant.visits hstart h hg

end Lambda

open Lambda

/-! ## Facts of a state -/

/-- The same facts, except that nothing is said about lambda edges. -/
def Facts.withoutLambdas (F : Facts) : Facts :=
  { F with call := fun e => (∀ call, e.kind ≠ .lambda call) ∧ F.call e }

/-- No rule of the analysis asks for lambda edges. -/
theorem Facts.Closed.withoutLambdas {p : Program} {sel : Selector} {F : Facts}
    {entries : List MethodId} (h : F.Closed p sel entries) :
    F.withoutLambdas.Closed p sel entries where
  entry := h.entry
  body := by
    intro m hm index stmt hstmt
    have heffect := h.body m hm index stmt hstmt
    cases stmt with
    | invoke site => exact fun callee hcallee => ⟨nofun, heffect callee hcallee⟩
    | literal lhs value => cases value <;> exact heffect
    | new | copy | cast | loadStatic | storeStatic | loadField | storeField | loadArray
    | storeArray | ret => exact heffect
  flow := h.flow
  access := by
    intro v o ho m stmt hstmt
    have haccess := h.access v o ho m stmt hstmt
    cases stmt with
    | invoke site =>
        intro hbase hinstance callee kind hcallee hkind
        obtain ⟨hcall, hthis⟩ := haccess hbase hinstance callee kind hcallee hkind
        refine ⟨⟨?_, hcall⟩, hthis⟩
        rintro call rfl
        cases CallKind.isOrdinary_of_ofInvoke? hkind
    | new | copy | cast | literal | loadStatic | storeStatic | loadField | storeField | loadArray
    | storeArray | ret => exact haccess
  callee := fun e he => h.callee e he.2
  wiring := fun e he hk => ⟨(h.wiring e he.2 hk).argument, (h.wiring e he.2 hk).result⟩

namespace Reading

variable {env : Setting} {s : Solver} {r : Reading}

/-- What has been worked in, without ids; lambda edges are read with what they carry. -/
def lambdaFacts (r : Reading) (s : Solver) : LambdaFacts where
  toFacts := (r.facts s).withoutLambdas
  lambda := fun e => ∃ c ∈ s.calls.edges, ∃ call, c.kind = .lambda call ∧ r.lambdaEdge c call = e

/-- A lambda edge is one of the facts about lambdas. -/
theorem lambda_lambdaFacts {e : CallEdge} {call : LambdaCall} (h : e ∈ s.calls.edges)
    (hk : e.kind = .lambda call) : (r.lambdaFacts s).lambda (r.lambdaEdge e call) :=
  ⟨e, h, call, hk, rfl⟩

/-- A method that is run through a lambda edge in a state is run in the facts of the state. -/
theorem lambda_of_runs (hr : r.Reads env s) {site : QSite} {receiver : Option QObj} {m : MethodId}
    {call : LambdaCall} (h : s.settled.Runs env site receiver m (.lambda call))
    (hsite : s.contexts.Has site.context) (hreceiver : ∀ o ∈ receiver, s.settled.HasObj o) :
    (r.lambdaFacts s).lambda ⟨r.under site, ⟨env.selector.callMarks env.program (r.under site)
      (receiver.map r.obj), m⟩, r.capture call⟩ := by
  obtain ⟨c, hc, hcall⟩ := h
  rw [← lambdaEdge_of_selects hr hc hsite hreceiver]
  exact lambda_lambdaFacts hcall rfl

/-- What a state refers to from a variable is all that its facts know of that variable. -/
theorem points_of_lambdaFacts (hs : s.Scoped) (hmarked : s.Marked env) {v : QVar}
    (hv : s.contexts.Has v.context) {o : Under Obj}
    (h : ((s.reading env.selector.strategy).lambdaFacts s).points
      (.var ((s.reading env.selector.strategy).under v)) o) :
    ∃ q ∈ s.pointsTo.get (.var v), (s.reading env.selector.strategy).obj q = o := by
  obtain ⟨ptr, q, hq, hplace, rfl⟩ := h
  have hexists : (Pointer.var v).Exists s.settled := hv
  obtain rfl := place_injective hmarked (hs.owes (.inl hq)).1 hexists hplace
  exact ⟨q, hq, rfl⟩

/-- A call on a lambda object that waits for its receiver in a state, and has been answered on
what it waits for, runs in the facts of the state the method that its handle finds there. -/
theorem lambda_of_waits (hs : s.Scoped) (hmarked : s.Marked env)
    (hr : (s.reading env.selector.strategy).Reads env s) {waits : QVar → PendingCall → Prop}
    {site : QSite} {handle : MethodHandle} {call : LambdaCall}
    (hsite : s.contexts.Has site.context) (hlambda : s.contexts.Has call.lambdaContext)
    (hwaits : ∀ v r, waits v r → ∀ o ∈ s.pointsTo.get (.var v), Resolved env s.settled r o)
    (h : ∀ receiver, receiverVar? call.captured (env.program.invoke site.item).args
      call.lambdaContext site.context = some receiver →
        waits receiver ⟨site, handle.kind, handle.target, call⟩)
    {receiver : Under VarId} (hreceiver : receiver? ((s.reading env.selector.strategy).capture call)
      (env.program.invoke site.item).args
      ((s.reading env.selector.strategy).marks site.context) = some receiver) {o : Under Obj}
    (ho : ((s.reading env.selector.strategy).lambdaFacts s).points (.var receiver) o)
    {m : MethodId} (hm : handleTarget? env.program handle o.item.type = some m) :
    ((s.reading env.selector.strategy).lambdaFacts s).lambda
      ⟨(s.reading env.selector.strategy).under site,
        ⟨env.selector.callMarks env.program
          ((s.reading env.selector.strategy).under site) (some o), m⟩,
        (s.reading env.selector.strategy).capture call⟩ := by
  rw [receiver?_capture, Option.map_eq_some_iff] at hreceiver
  obtain ⟨v, hv, rfl⟩ := hreceiver
  have hcontext : s.contexts.Has v.context := by
    unfold receiverVar? at hv
    split at hv
    · cases hv
      exact hlambda
    · cases hv
      exact hsite
    · cases hv
  obtain ⟨q, hq, rfl⟩ := points_of_lambdaFacts hs hmarked hcontext ho
  have hobj := hs.obj hq
  rw [hr.type_of_has hobj.2] at hm
  refine lambda_of_runs hr (hwaits v _ (h v hv) q hq m hm) hsite ?_
  rintro _ ⟨⟩
  exact hobj

/-- A call on a lambda object that runs what its handle says in a state does so in the facts of
the state. -/
theorem performs_facts (hs : s.Scoped) (hmarked : s.Marked env)
    (hr : (s.reading env.selector.strategy).Reads env s) {waits : QVar → PendingCall → Prop}
    {site : QSite} {maker : InvokeId} {handle : MethodHandle} {call : LambdaCall}
    (hsite : s.contexts.Has site.context) (hlambda : s.contexts.Has call.lambdaContext)
    (hwaits : ∀ v r, waits v r → ∀ o ∈ s.pointsTo.get (.var v), Resolved env s.settled r o)
    (h : Lambda.Performs env s.settled waits site maker handle call) :
    ((s.reading env.selector.strategy).lambdaFacts s).Performs env.program env.selector
      ((s.reading env.selector.strategy).under site) maker handle
      ((s.reading env.selector.strategy).capture call) := by
  unfold Lambda.Performs at h
  unfold LambdaFacts.Performs
  cases hk : handle.kind with
  | invokeStatic =>
      simp only [hk] at h ⊢
      exact fun m hm => lambda_of_runs hr (h m hm) hsite (by simp)
  | newInvokeSpecial =>
      simp only [hk] at h ⊢
      intro m hm
      obtain ⟨i, hi, hresult, c, hc, hcall, hthis⟩ := h m hm
      have hobj : s.settled.HasObj ⟨site.context, i⟩ := ⟨hsite, _, hi⟩
      have hmade : constructed env.program ((s.reading env.selector.strategy).under site) maker
          handle = (s.reading env.selector.strategy).obj ⟨site.context, i⟩ :=
        (hr.obj_of_get? hi _).symm
      have hmarks := hr.marks_of_selects hc hsite (by
        rintro _ ⟨⟩
        exact hobj)
      rw [hmade]
      refine ⟨fun result hmem => points_facts (hresult result hmem), ?_, ?_⟩
      · refine lambda_of_runs hr ⟨c, hc, hcall⟩ hsite ?_
        rintro _ ⟨⟩
        exact hobj
      · intro this hmem
        have hpoints := points_facts (r := s.reading env.selector.strategy) (hthis this hmem)
        simp only [place, varPointer, under, hmarks] at hpoints
        exact hpoints
  | invokeVirtual | invokeInterface | invokeSpecial =>
      simp only [hk] at h ⊢
      intro receiver hreceiver o ho m hm
      refine lambda_of_waits hs hmarked hr hsite hlambda hwaits ?_ hreceiver ho hm
      rwa [hk]
  | getField | getStatic | putField | putStatic => trivial

/-- The facts of a state where a plugin for lambdas has done its work are closed under the rules
of that plugin. -/
theorem handled_facts (hs : s.Scoped) (hmarked : s.Marked env)
    (hstart : ContextTable.new.Grows s.contexts) (hb : env.program.Built)
    (hmade : ∀ i ∈ s.calls.reachableIn, Made env s.settled i)
    (hwiring : ∀ e ∈ s.calls.edges, ∀ call, e.kind = .lambda call →
      ∀ f ∈ Lambda.wiring env.program e call, f ∈ s.flow.edges)
    (waits : QVar → PendingCall → Prop)
    (hwaits : ∀ v r, waits v r → ∀ o ∈ s.pointsTo.get (.var v), Resolved env s.settled r o)
    (hanswered : ∀ site o, Stuck env s site o → Answered env s.settled waits site o) :
    ((s.reading env.selector.strategy).lambdaFacts s).Handled env.program env.selector := by
  have hr : (s.reading env.selector.strategy).Reads env s :=
    ⟨rfl, .refl _, .refl _, hstart _ _ rfl⟩
  refine ⟨?_, ?_, ?_⟩
  · rintro _ ⟨i, hi, rfl⟩ site d hmakes result hresult
    obtain ⟨o, ho, hpoints⟩ := hmade i hi site d hmakes result hresult
    have hfact := points_facts (r := s.reading env.selector.strategy) hpoints
    rw [hr.obj_of_get? ho] at hfact
    exact hfact
  · rintro _ _ ⟨ptr, o, ho, hplace, rfl⟩ site hstmt hbase hinstance hnone maker handle hfits
    cases ptr with
    | var v =>
        cases hplace
        have hobj := hs.obj ho
        have hunresolved : Unresolved env.program s.heap site o := by
          intro callee kind hcallee
          rw [← hr.targetOn?_eq site hobj.2] at hcallee
          exact hnone callee kind hcallee
        have hperforms := hanswered ⟨v.context, site⟩ o
          ⟨v, rfl, ho, hb.mem_invokes.2 ⟨hstmt, hbase, hinstance⟩, hunresolved⟩ maker handle hfits
        have hlambda : s.contexts.Has (payload env.program site maker o).lambdaContext := hobj.1
        exact performs_facts hs hmarked hr (hs.var ho) hlambda hwaits hperforms
    | field | static | array => cases hplace
  · rintro _ ⟨e, he, call, hk, rfl⟩ w hw
    rw [← flow_edge]
    refine flow_facts (hwiring e he call hk _ ?_)
    rw [wiring_eq]
    exact List.mem_map_of_mem hw

end Reading

/-! ## The fixpoint -/

/-- A finished run with the plugin for lambdas, if that is {lit}`on`, and no other plugin yields
the least family of facts that is closed under the rules. -/
theorem Machine.least_with_lambdas (env : Setting) (ds : List Declaration)
    (hbuild : (Builder.ofList ds).build = .ok env.program) {steps : Nat} {on : Bool}
    {entries : List MethodId} {n : Machine Member}
    (hsolve : Machine.solve Member.plugin env steps entries
      (.new (if on then [.newLambda] else [])) = (.finished, n)) :
    ((n.solver.reading env.selector.strategy).lambdaFacts n.solver).Closed env.program
        env.selector on entries ∧
      ∀ F : LambdaFacts, F.Closed env.program env.selector on entries →
        ((n.solver.reading env.selector.strategy).lambdaFacts n.solver).Le F := by
  obtain ⟨hvisit, hq⟩ := Machine.visits_of_solve hsolve
  have hb := Program.built_of_build (Builder.numbered_ofList ds) hbuild
  have hmembers : ∀ p ∈ (if on then [Member.newLambda] else []), on = true ∧ p = .newLambda := by
    intro p hp
    cases on with
    | true => exact ⟨rfl, List.mem_singleton.1 hp⟩
    | false => exact absurd hp List.not_mem_nil
  have hreasoned := reasoned_of_visits hb hmembers hvisit
  have hground :
      Grounded Member.plugin env entries (.new (if on then [Member.newLambda] else [])) :=
    fun _ hstage _ _ hq => (reasoned_of_visits hb hmembers hstage).ids.1.exists_of_queue hq
  have hclosed : Closed env entries n.solver := closed_of_visits hb hvisit hground hq
  have hs := hreasoned.ids.1
  refine ⟨⟨(Reading.closed_facts hclosed hs hreasoned.marked hreasoned.start).withoutLambdas,
    ?_, ?_⟩, ?_⟩
  · rintro _ ⟨e, he, call, _, rfl⟩
    exact Reading.reached_facts (hclosed.callee e he)
  · rintro rfl
    obtain ⟨st, _, hst⟩ := attentive_of_visits hb (k := 0) rfl hvisit hground
    have hsettled := Solver.expected_eq_settled hq
    refine Reading.handled_facts hs hreasoned.marked hreasoned.start hb ?_ ?_ st.Waits
      ?_ ?_
    · rw [← hsettled]
      exact (furnished_of_visits hb (k := 0) rfl hvisit hground).made
    · exact (connected_of_visits (k := 0) rfl hvisit hground).wiring
    · rw [← hsettled]
      exact hst.resolved
    · rw [← hsettled]
      exact hst.answered
  · intro F hF
    have hreads : (n.solver.reading env.selector.strategy).Reads env n.solver :=
      ⟨rfl, .refl _, .refl _, hreasoned.start _ _ rfl⟩
    have hderived := hreasoned.derived hreads hF
    refine ⟨⟨?_, ?_, ?_, ?_⟩, ?_⟩
    · rintro _ ⟨m, hm, rfl⟩
      exact hderived.reached hm
    · rintro _ _ ⟨ptr, o, ho, rfl, rfl⟩
      exact hderived.points (.inl ho)
    · rintro _ ⟨e, he, rfl⟩
      exact hderived.flow he
    · rintro _ ⟨hordinary, ⟨site, callee, kind⟩, he, rfl⟩
      have hcall := hderived.call (.inl he)
      cases kind with
      | lambda call => exact absurd rfl (hordinary call)
      | static | virtual | interface | special | reflective => exact hcall
    · rintro _ ⟨e, he, call, hk, rfl⟩
      exact LambdaFacts.lambda_of_readBy (hderived.call (.inl he)) hk

/-- The facts of a result, without ids; lambda edges are read with what they carry. -/
def Result.lambdaFacts (r : Result) : LambdaFacts :=
  (r.solver.reading r.strategy).lambdaFacts r.solver

/-- The only plugin of an analysis without reflection and added plugins is the one for
lambdas. -/
theorem Analysis.members_eq_newLambda {a : Analysis} (hreflection : a.options.reflection = false)
    (hextra : a.extra = []) (p : Program) (files : Reflection.Files) :
    a.members p files = .ok (if a.options.lambda then [.newLambda] else []) := by
  simp only [Analysis.members, hreflection, hextra]
  show Except.ok (_ ++ [] ++ []) = _
  rw [List.append_nil, List.append_nil]

/-- An analysis without reflection and added plugins, on any built program and from any entry
methods: if it finishes, its facts contain the entry methods and are closed under the rules,
and they are contained in every family of facts of which that is true. -/
theorem Analysis.least_with_lambdas (a : Analysis) (hreflection : a.options.reflection = false)
    (hextra : a.extra = []) (ds : List Declaration) {p : Program}
    (hbuild : (Builder.ofList ds).build = .ok p) {steps : Nat} {files : Reflection.Files}
    {entries : List MethodId} {result : Result}
    (hrun : a.runFrom steps p files entries = .finished result) :
    result.lambdaFacts.Closed p a.options.selector a.options.lambda entries ∧
      ∀ F : LambdaFacts, F.Closed p a.options.selector a.options.lambda entries →
        result.lambdaFacts.Le F := by
  obtain ⟨members, m, hmembers, hsolve, rfl⟩ := Analysis.solve_of_runFrom hrun
  rw [Analysis.members_eq_newLambda hreflection hextra] at hmembers
  cases hmembers
  exact Machine.least_with_lambdas (a.setting p) ds hbuild hsolve

end PointsTo
