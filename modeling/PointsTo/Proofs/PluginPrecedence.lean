import PointsTo.Proofs.LambdaRequests
import PointsTo.Proofs.Precedence

/-!
# The plugins defer to the log

A call that the log speaks of is left to the log: no other model is offered it, so none ever
looks at it.  The plugin for reflection therefore asks at such calls only for what the log
allows, and the other plugins that the library provides add nothing by reflection at all.

Main results:

- {lit}`Reflection.State.Heeds`: the other models look only at calls that the log does not speak
  of; theorem {lit}`Reflection.State.Heeds.offer`: offered calls do not change that.
- Theorem {lit}`Member.obeyed_react`: a reaction asks only for what the log allows.
- Theorem {lit}`Machine.governs_of_visits`: at every stage the log governs what it speaks of.
-/

namespace PointsTo

namespace Reflection

open Service

variable {env : Setting} {p : Program} {log m : LogModel} {s t : Solver} {call : Invoke}
  {site : QSite}

/-! ## What is remembered -/

/-- A log remembers calls and receivers only for what is asked. -/
structure LogModel.Heeds (p : Program) (log m : LogModel) : Prop where
  entries : m.entries = log.entries
  claims : ∀ claim ∈ m.claims, claim ∈ log.asked (p.invoke claim.site)
  receivers : ∀ {v site target}, (v, (site, target)) ∈ m.receivers.pairs →
    v ∈ (p.invoke site).args.head? ∧ ∃ claim ∈ log.asked (p.invoke site),
      claim.api = .methodInvoke ∧ claim.target = .method target

/-- The plugin has the log, and its other models look only at calls that the log does not speak
of. -/
structure State.Heeds (p : Program) (log : LogModel) (st : State) : Prop where
  present : ∃ m, st.log = some m ∧ log.Heeds p m
  classes : ∀ {v site api}, (v, (site, api)) ∈ st.classes.relevant.pairs →
    log.asked (p.invoke site) = []
  strings : ∀ m ∈ st.strings, ∀ {v site api}, (v, (site, api)) ∈ m.relevant.pairs →
    log.asked (p.invoke site) = []
  actions : ∀ {v site api}, (v, (site, api)) ∈ st.actions.relevant.pairs →
    log.asked (p.invoke site) = []

/-- A log keeps in mind what it asks of an offered call. -/
theorem LogModel.Heeds.offer (h : log.Heeds p m) (hcall : p.invoke call.id = call) :
    log.Heeds p { m with claims := m.claims ++ m.asked call } := by
  refine ⟨h.entries, ?_, h.receivers⟩
  intro claim hclaim
  rcases List.mem_append.1 hclaim with hclaim | hclaim
  · exact h.claims claim hclaim
  · have hasked := hclaim
    rw [asked_congr h.entries] at hasked
    obtain ⟨e, _, _, rfl⟩ := mem_asked.1 hasked
    rwa [ResolvedEntry.claim, hcall]

/-- Offering a call keeps the other models away from those that the log speaks of. -/
theorem State.Heeds.offer {st : State} (h : st.Heeds p log) (hcall : p.invoke call.id = call) :
    (st.offer call).Heeds p log := by
  obtain ⟨m, hm, hheeds⟩ := h.present
  have hoffered := st.offered call
  -- the log asks nothing of what the models are offered
  have hfree : ∀ {v site api}, st.covers call = false → Watch call (v, (site, api)) →
      log.asked (p.invoke site) = [] := by
    intro v site api hnot hwatch
    obtain rfl : site = call.id := hwatch.site
    rw [hcall]
    rw [covers, hm, Option.any_some, LogModel.offer_eq, LogModel.asked_congr hheeds.entries] at hnot
    simpa using hnot
  have hlog := hoffered.log
  rw [hm, Option.map_some] at hlog
  refine ⟨⟨_, hlog, hheeds.offer hcall⟩, ?_, ?_, ?_⟩
  · intro v site api hmem
    exact (hoffered.classes _ hmem).elim h.classes fun hnew => hfree hnew.1 hnew.2
  · intro m' hm' v site api hmem
    obtain ⟨m, hm, hstrings⟩ := hoffered.strings m' hm'
    exact (hstrings _ hmem).elim (h.strings m hm) fun hnew => hfree hnew.1 hnew.2
  · intro v site api hmem
    exact (hoffered.actions _ hmem).elim h.actions fun hnew => hfree hnew.1 hnew.2.1

/-- So does offering the calls of a method. -/
theorem State.Heeds.offerAll {st : State} (hp : p.Numbered) (h : st.Heeds p log) (i : MethodId) :
    ((p.invokesIn i).foldl State.offer st).Heeds p log :=
  State.offerAll_rec hp h (fun _ _ hcall hst => hst.offer hcall) i

/-- A log that has acted remembers calls and receivers for what is asked, too. -/
theorem LogModel.Heeds.of_becomes {A : (r : Request) → r.Answer → Prop} {q : QMethod}
    {m' : LogModel} (h : log.Heeds p m) (hm' : m.Becomes p A (m.Covers q) m') :
    log.Heeds p m' where
  entries := hm'.entries.trans h.entries
  claims := by
    rw [hm'.claims]
    exact h.claims
  receivers := by
    intro v i target hmem
    rcases hm'.receivers v i target hmem with hmem | ⟨claim, ⟨hclaim, _⟩, rfl, hapi, htarget, hv⟩
    · exact h.receivers hmem
    · exact ⟨hv, claim, h.claims claim hclaim, hapi, htarget⟩

/-! ## Models -/

section Models

variable {A : (r : Request) → r.Answer → Prop} {r : Request} {v : QVar} {delta : ObjSet}
  {st : State}

/-- A meta object stands for no reflective call. -/
theorem Presenting.permits {c : ContextId} {result : VarId} {x : MockObj}
    (hr : Presenting A c result x r) (hx : x.kind ≠ .reflective) : log.Permits p s r := by
  cases hr with
  | make => exact LogModel.permits_mock hx
  | result => trivial

/-- What the model of classes yields is no reflective object. -/
theorem ClassModel.kind_of_yields {api : Api} {receiver : Obj} {x : MockObj}
    (hx : x ∈ yields p api receiver) : x.kind ≠ .reflective := by
  rcases of_mem_yields hx with rfl | ⟨_, _, _, rfl⟩
  · simp [classMeta]
  · simp [constructorMeta]

/-- The models of classes and of strings make nothing but meta objects. -/
theorem ClassModel.Asked.permits {m : ClassModel} (hr : m.Asked p A v delta r) :
    log.Permits p s r := by
  cases hr with
  | look => trivial
  | yield _ _ _ _ hmade hr => exact hr.permits (kind_of_yields hmade)

/-- The model of strings asks for nothing that the log could forbid. -/
theorem StringModel.Asked.permits {m : StringModel} (hr : m.Asked p A v delta r) :
    log.Permits p s r := by
  cases hr with
  | lookNew | read | look => trivial
  | cls _ _ _ _ _ hr => exact hr.permits (by simp [classMeta])
  | method _ _ _ hr => exact hr.permits (by simp [methodMeta])

/-- The model of actions may do what it does, as it looks only at calls that the log does not
speak of. -/
theorem ActionModel.Asked.permits {m : ActionModel}
    (hr : m.Asked p (Request.Recalls s) v delta r) (hp : p.Numbered) (hs : s.Scoped)
    (hm : ∀ {v site api}, (v, (site, api)) ∈ m.relevant.pairs →
      log.asked (p.invoke site) = []) : log.Permits p s r := by
  cases hr with
  | lookNew | readAll | read | look => trivial
  | make hmem _ _ _ hr => exact hr.permits fun hasked => absurd (hm hmem) hasked
  | @invoke i _ base _ _ _ _ hmem _ hbase _ _ _ hr =>
      have hid : (p.invoke i).id = i :=
        hp.invoke_id (v := base) (by simp [Program.mentioned, hbase])
      rw [hid] at hr
      exact hr.permits hs fun hasked => absurd (hm hmem) hasked

/-- A covered call does what the log asks of it. -/
theorem LogModel.Acting.permits {table : MockTable} {c : ContextId} {claim : Claim}
    (hr : LogModel.Acting p (Request.Recalls s) table c claim r) (hs : s.Scoped)
    (hclaim : claim ∈ log.asked (p.invoke claim.site)) : log.Permits p s r := by
  cases hr with
  | present _ _ _ hr => exact hr.permits (by simp [classMeta])
  | ofClass hapi htarget hr =>
      refine hr.permits fun _ => ⟨claim, hclaim, ?_, fun n hn c => ?_⟩
      · simp only [Claim.Makes, hapi, htarget]
      · simp only [Claim.Leads, hapi, htarget, and_true]
        exact hn
  | byConstructor hapi htarget hr =>
      refine hr.permits fun _ => ⟨claim, hclaim, ?_, ?_⟩
      · simp only [Claim.Makes, hapi, htarget]
      · rintro _ ⟨⟩ c
        simp only [Claim.Leads, hapi, htarget, and_self]
  | receivers => trivial
  | invoke hapi htarget hr =>
      refine hr.permits hs fun _ => ⟨⟨claim, hclaim, hapi, htarget⟩, rfl, ?_⟩
      rintro o ⟨receiver, hreceiver, os, rfl, ho⟩
      exact ⟨receiver, hreceiver, ho⟩

/-- And so it does for what is new to a receiver. -/
theorem LogModel.Asked.permits (hr : m.Asked p (Request.Recalls s) v delta r) (hs : s.Scoped)
    (hm : log.Heeds p m) (hdelta : ∀ o ∈ delta, o ∈ s.pointsTo.get (.var v)) :
    log.Permits p s r := by
  obtain ⟨i, target, hmem, hr⟩ := hr
  obtain ⟨hv, hclaim⟩ := hm.receivers hmem
  exact hr.permits hs fun _ => ⟨hclaim, rfl, fun o ho => ⟨v.item, hv, hdelta o ho⟩⟩

/-! ## The plugin -/

/-- Forwarding asks for no objects and no edges. -/
theorem Forwarding.permits {callee : QMethod} (hr : Forwarding p A v callee r) :
    log.Permits p s r := by
  cases hr <;> trivial

/-- A request of a reaction is for what the log allows. -/
theorem Asked.permits {e : Event} (hr : Asked p (Request.Recalls s) st e r) (hp : p.Numbered)
    (hs : s.Scoped) (hst : st.Heeds p log) (he : ∀ v delta, e = .grown v delta →
      ∀ o ∈ delta, o ∈ s.pointsTo.get (.var v)) : log.Permits p s r := by
  obtain ⟨m, hm, hheeds⟩ := hst.present
  cases hr with
  | act hm' hclaim hr =>
      cases hm.symm.trans hm'
      exact hr.permits hs (hheeds.claims _ hclaim.1)
  | pass _ _ hr => exact hr.permits
  | result => trivial
  | wake _ hr => exact hr.permits
  | grown hr =>
      cases hr with
      | log hm' hr =>
          cases hm.symm.trans hm'
          exact hr.permits hs hheeds (he _ _ rfl)
      | classes hr => exact hr.permits
      | strings _ hr => exact hr.permits
      | actions hr => exact hr.permits hp hs hst.actions

/-- What is remembered after a reaction heeds the log, too. -/
theorem State.Heeds.of_became {e : Event} {st' : State} (hst : st.Heeds p log)
    (hp : p.Numbered) (hst' : Became p A st e st') : st'.Heeds p log := by
  obtain ⟨m, hm, hheeds⟩ := hst.present
  cases hst' with
  | same => exact hst
  | offered => exact hst.offerAll hp _
  | acted hm' hbecomes =>
      cases hm.symm.trans hm'
      exact ⟨⟨_, rfl, hheeds.of_becomes hbecomes⟩, hst.classes, hst.strings, hst.actions⟩
  | passed | grown => exact ⟨hst.present, hst.classes, hst.strings, hst.actions⟩

/-- A reaction asks only for what the log allows, and the other models stay away from the calls
that the log speaks of. -/
theorem obeyed_react {e : Event} (hp : env.program.Numbered) (hs : s.Scoped)
    (hst : st.Heeds env.program log) (he : e.Holds env s) :
    log.Obeyed env.program s (State.Heeds env.program log) (react env e st) := by
  refine (asks_react e).imp (fun r hr => hr.permits hp hs hst ?_) fun st' hst' => ?_
  · rintro v delta rfl
    exact he.2.1
  · exact hst.of_became hp hst'

end Models

end Reflection

/-! ## Other plugins -/

open Service Reflection

variable {env : Setting} {log : LogModel} {s : Solver}

namespace Lambda

variable {A : (r : Request) → r.Answer → Prop} {r : Request} {st : Lambda.State}

/-- The plugin for lambdas makes lambda objects, and objects for references to constructors. -/
def State.Heeds (st : Lambda.State) : Prop := st.constructed.kind = .lambdaConstructed

/-- Edges that are not added by reflection are allowed. -/
theorem allowsEdge {heap : Heap} {points : PointsToMap} {site : QSite} {callee : QMethod}
    {call : LambdaCall} : log.AllowsEdge env.program heap points ⟨site, callee, .lambda call⟩ :=
  fun _ hkind => by cases hkind

/-- Nor does a call of a lambda that waited. -/
theorem Resolving.permits {v : QVar} {waiting : PendingCall}
    (hr : Resolving env.program A v waiting r) : log.Permits env.program s r := by
  cases hr with
  | receivers | look => trivial
  | run _ _ _ _ hr => exact permits_of_runs hr fun _ => allowsEdge

/-- The method of a handle adds no edges by reflection. -/
theorem Handling.permits {maker : InvokeId} {site : QSite} {handle : MethodHandle}
    {call : LambdaCall} (hr : Handling env A st maker site handle call r) (hst : st.Heeds) :
    log.Permits env.program s r := by
  cases hr with
  | construct _ hr =>
      cases hr with
      | make =>
          refine LogModel.permits_mock ?_
          rw [MockTable.wanted, show st.constructed.kind = _ from hst]
          simp
      | result => trivial
      | run _ _ hr => exact permits_of_runsOn hr fun _ => allowsEdge
  | static _ _ hr => exact permits_of_runs hr fun _ => allowsEdge
  | resolve _ _ hr => exact hr.permits

/-- What is remembered after a reaction is of the right kind. -/
theorem State.Heeds.of_became {e : Event} {st' : Lambda.State} (hst : st.Heeds)
    (hst' : Became env A st e st') : st'.Heeds := by
  cases hst' with
  | same | created => exact hst
  | handled _ hst' =>
      cases hst' with
      | same | waiting => exact hst
      | constructed htable => exact htable.kind.trans hst

/-- The plugin for lambdas obeys any log. -/
theorem obeyed_react (hst : st.Heeds) (e : Event) :
    log.Obeyed env.program s State.Heeds (react env e st) := by
  refine (asks_react e).imp (fun r hr => ?_) fun st' hst' => hst.of_became hst'
  cases hr with
  | create => exact LogModel.permits_mock (by simp [made])
  | assign | look | wire => trivial
  | handle _ hr => exact hr.permits hst
  | wake _ hr => exact hr.permits

end Lambda

namespace Script

/-- So does a report. -/
theorem obeyed_report (script : Script) (line : String) :
    log.Obeyed env.program s Any (script.report line) :=
  ⟨trivial, fun _ _ => trivial⟩

/-- A quiet script asks for no edges, so it is enough that the log allows the objects that it
asks for. -/
theorem obeyed_react {script : Script} (hquiet : script.Quiet)
    (hmock : ∀ r ∈ script.rules, ∀ x, .mock x ∈ r.actions → log.AllowsObj env.program x.obj)
    (e : Event) : log.Obeyed env.program s (· = script) (react env e script) := by
  refine Asks.bind (obeyed_report _ _) fun _ _ => Asks.bind (asks_forM fun r hr => ?_)
    fun _ _ => rfl
  have hmem := (List.mem_filter.1 hr).1
  refine asks_forM fun a ha => ?_
  have hquiet' := hquiet r hmem a ha
  cases a with
  | mock x =>
      exact Asks.bind (asks_request (hmock r hmem x ha)) fun _ _ => obeyed_report _ _
  | addPointsTo | addVarObj | addFlow | addCall => exact hquiet'.elim
  | callContext | heapContext | read | obj =>
      exact Asks.bind (asks_request trivial) fun _ _ => obeyed_report _ _
  | options => exact obeyed_report _ _
  | fail => trivial

end Script

namespace Member

/-- A member that leaves to the log what that speaks of. -/
def Heeds (p : Program) (log : LogModel) : Member → Prop
  | lambda st => st.Heeds
  | reflection st => st.Heeds p log
  | script s => ∀ r ∈ s.rules, ∀ x, .mock x ∈ r.actions → log.AllowsObj p x.obj

/-- A reaction asks only for what the log allows. -/
theorem obeyed_react {m : Member} {e : Event} (hp : env.program.Numbered) (hs : s.Scoped)
    (hsound : m.Sound env.program s.settled) (hm : m.Heeds env.program log)
    (he : e.Holds env s) :
    log.Obeyed env.program s (Heeds env.program log) (plugin.react env e m) := by
  cases m with
  | lambda st => exact Asks.bind (Lambda.obeyed_react hm e) fun _ h => h
  | reflection st => exact Asks.bind (Reflection.obeyed_react hp hs hm he) fun _ h => h
  | script script =>
      refine Asks.bind (Script.obeyed_react hsound hm e) ?_
      rintro _ rfl
      exact hm

end Member

/-! ## Runs -/

/-- At every stage of a run with such members, the log governs what it speaks of. -/
theorem Machine.governs_of_visits {members : List Member} {entries : List MethodId}
    {stage : Machine.Stage Member} (hb : env.program.Built)
    (hsound : ∀ m ∈ members, m.Sound env.program ({} : Solver).settled)
    (hmembers : ∀ m ∈ members, m.Heeds env.program log)
    (h : Machine.Visits Member.plugin env entries (.new members) stage) :
    log.Governs env.program stage.machine.solver ∧
      ∀ m ∈ stage.machine.plugins, m.Heeds env.program log := by
  refine Machine.keeps_of_visits (I := log.Governs env.program) (J := Member.Heeds env.program log)
    (Member.honest hb) hsound hmembers .new ?_ ?_ ?_ ?_ h
  · exact fun hs hgoverns hr hadd =>
      hgoverns.of_adds hs (.refl _) (LogModel.allows_of_coreRule hr) hadd
  · exact fun hs hK hgoverns hheeds he hr =>
      hgoverns.of_obeyed (Member.obeyed_react hb.numbered hs hK hheeds he) hs hr
  · exact fun _ hs hgoverns => ⟨hgoverns.objects, fun he => hgoverns.edges (he.imp_left (by simp))⟩
  · exact fun hs hgoverns hq => hgoverns.of_take hs hq

end PointsTo
