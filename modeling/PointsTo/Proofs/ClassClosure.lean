import PointsTo.Proofs.Closure

/-!
# When calls for classes and constructors are answered

The model of classes and constructors looks only at objects that are new to a variable,
and only if a call on the variable has been offered to it.  Calls are offered when their
method becomes reachable.  This file shows that from then on nothing is missed; what a
variable referred to before that is never looked at.

Main results:

- {lit}`Reflection.Offered`: the calls of a method have been offered to the model.
- Theorem {lit}`Reflection.informed_of_visits`: between the rounds of the main loop the calls of
  all reachable methods have been.
- Theorem {lit}`Reflection.yielded_of_visits`: in the end a call has yielded what it asks for of
  every object that was not there when its method became reachable.
-/

namespace PointsTo

namespace Reflection

variable {env : Setting} {s t : Solver} {st q : State} {e : Event}

/-! ## The memory of the model -/

/-- The call asks the model for classes or constructors of what its base refers to. -/
structure Asks (call : Invoke) (base : VarId) (api : Api) : Prop where
  classified : Api.classify call.target = some api
  asked : api ∈ [Api.getClass, .getConstructor, .getDeclaredConstructor]
  receiver : call.base = some base
  result : call.result.isSome = true

/-- The model looks at a call whenever the base refers to more. -/
def Watches (st : State) (base : VarId) (site : InvokeId) (api : Api) : Prop :=
  (base, (site, api)) ∈ st.classes.relevant.pairs

/-- The model looks at all calls of a method that ask it. -/
def Offered (p : Program) (m : MethodId) (st : State) : Prop :=
  ∀ call ∈ p.invokesIn m, ∀ base api, Asks call base api → Watches st base call.id api

/-- No memory is lost: there still is no log, and all calls that were looked at are. -/
structure Keeps (st q : State) : Prop where
  log : st.log = none → q.log = none
  relevant : ∀ {x}, x ∈ st.classes.relevant.pairs → x ∈ q.classes.relevant.pairs

theorem Keeps.refl (st : State) : Keeps st st := ⟨id, id⟩

theorem Keeps.trans {u : State} (h : Keeps st q) (k : Keeps q u) : Keeps st u :=
  ⟨fun a => k.log (h.log a), fun a => k.relevant (h.relevant a)⟩

/-- A state with the same models keeps all of them. -/
theorem Keeps.of_same (h : st.SameModels q) : Keeps st q :=
  ⟨fun hlog => h.log.trans hlog, fun hx => by rwa [h.classes]⟩

/-- A method that was offered stays offered. -/
theorem Offered.of_keeps {p : Program} {m : MethodId} (h : Offered p m st) (hk : Keeps st q) :
    Offered p m q :=
  fun call hcall base api hasks => hk.relevant (h call hcall base api hasks)

/-- Offering a call site loses no memory, and without a log the model looks at the call
from then on. -/
theorem keeps_offer (hlog : st.log = none) (call : Invoke) :
    Keeps st (st.offer call) ∧ ∀ base api, Asks call base api →
      Watches (st.offer call) base call.id api := by
  have hoffer : st.offer call = st.offerModels call := by
    simp only [State.offer, hlog]
  have hnone : (st.offerModels call).log = none := hlog
  have hrelevant : ∀ {x}, x ∈ st.classes.relevant.pairs →
      x ∈ (st.offerModels call).classes.relevant.pairs :=
    fun hx => ClassModel.mem_offer.2 (.inl hx)
  rw [hoffer]
  refine ⟨⟨fun _ => hnone, hrelevant⟩, ?_⟩
  intro base api hasks
  show (base, (call.id, api)) ∈ (st.classes.offer call).2.relevant.pairs
  obtain ⟨result, hresult⟩ := Option.isSome_iff_exists.1 hasks.result
  simp only [ClassModel.offer, hasks.classified, hasks.receiver, hresult, if_pos hasks.asked]
  exact OrderedSet.mem_insert.2 (.inl rfl)

/-- Offering several call sites loses no memory, and the model looks at each. -/
theorem keeps_offerAll (hlog : st.log = none) (calls : List Invoke) :
    Keeps st (calls.foldl State.offer st) ∧ ∀ call ∈ calls, ∀ base api, Asks call base api →
      Watches (calls.foldl State.offer st) base call.id api := by
  induction calls generalizing st with
  | nil => exact ⟨.refl st, by simp⟩
  | cons call calls ih =>
      obtain ⟨hfirst, hwatches⟩ := keeps_offer hlog call
      obtain ⟨hrest, hall⟩ := ih (hfirst.log hlog)
      refine ⟨hfirst.trans hrest, ?_⟩
      intro call' hcall base api hasks
      rcases List.mem_cons.1 hcall with rfl | hcall
      · exact hrest.relevant (hwatches base api hasks)
      · exact hall call' hcall base api hasks

/-- Without a log no reaction loses memory. -/
theorem keeps_of_react (h : (react env e st).run env s = .ok q t) (hlog : st.log = none) :
    Keeps st q := by
  cases e with
  | start | finish | unresolved =>
      obtain ⟨rfl, _⟩ := pure_eq_ok.1 h
      exact .refl _
  | method m =>
      obtain ⟨rfl, _⟩ := pure_eq_ok.1 h
      exact (keeps_offerAll hlog _).1
  | methodIn m =>
      simp only [react, hlog] at h
      obtain ⟨rfl, _⟩ := pure_eq_ok.1 h
      exact .refl _
  | grown v delta =>
      simp only [react, Service.bind_eq, Service.run_bind, bind_eq_ok] at h
      obtain ⟨st', u, hwake, hgrown⟩ := h
      exact .of_same ((wakeArguments_kept hwake).trans (grown_kept hgrown))
  | edge e =>
      cases hk : e.kind with
      | reflective call =>
          simp only [react, hk, Service.bind_eq, Service.run_bind, bind_eq_ok] at h
          obtain ⟨st', u, hpass, _, w, _, h⟩ := h
          obtain ⟨rfl, _⟩ := pure_eq_ok.1 h
          exact .of_same (passArguments_kept hpass)
      | static | virtual | interface | special | lambda =>
          simp only [react, hk] at h
          obtain ⟨rfl, _⟩ := pure_eq_ok.1 h
          exact .refl _

/-- Once it is told of a method, the plugin has been offered its calls. -/
theorem offered_of_react {m : MethodId} (h : (react env (.method m) st).run env s = .ok q t)
    (hlog : st.log = none) : Offered env.program m q := by
  obtain ⟨rfl, _⟩ := pure_eq_ok.1 h
  exact (keeps_offerAll hlog (env.program.invokesIn m)).2

/-- Once it is told that a variable refers to more, the plugin has answered the calls that it
looks at. -/
theorem yielded_of_react {v : QVar} {delta : ObjSet} {site : InvokeId} {api : Api}
    (h : (react env (.grown v delta) st).run env s = .ok q t) (hg : s.Grounded)
    (he : (Event.grown v delta).Holds env s) (hwatches : Watches st v.item site api) :
    ∀ o ∈ delta, ClassModel.Yielded env t.expected ⟨v.context, site⟩ api o := by
  simp only [react, Service.bind_eq, Service.run_bind, bind_eq_ok] at h
  obtain ⟨st', u, hwake, hgrown⟩ := h
  have hu := (Service.evolves hwake).extends.settled
  refine yielded_of_grown hgrown (fun o ho => (hg.points _ o (he.2.1 o ho)).mono hu) site api ?_
  rw [(wakeArguments_kept hwake).classes]
  exact hwatches

/-! ## The plugin among others -/

/-- Plugin number {lit}`k` is one for reflection without a log, whose memory is as told. -/
def Listens (k : Nat) (J : State → Prop) (m : Machine Member) : Prop :=
  ∃ st, m.plugins[k]? = some (.reflection st) ∧ st.log = none ∧ J st

namespace Listens

variable {k : Nat} {m n : Machine Member} {J : State → Prop}

/-- What holds as long as no memory is lost is kept by acts. -/
theorem of_acts (h : Listens k J m) (hJ : ∀ {st q}, Keeps st q → J st → J q)
    (ha : Machine.Acts Member.plugin env m n) : Listens k J n := by
  obtain ⟨st, hk, hst⟩ := h
  obtain ⟨p, hp, q, rfl, hq⟩ := ha.keeps_at
    (J := fun _ p => ∃ st, p = .reflection st ∧ st.log = none ∧ J st) (by
      intro _ _ _ h _
      exact h) (by
      rintro s t _ q e ⟨st, rfl, hlog, hst⟩ _ hr
      obtain ⟨q, rfl, hq⟩ := Member.react_reflection.1 hr
      have hkeeps := keeps_of_react hq hlog
      exact ⟨q, rfl, hkeeps.log hlog, hJ hkeeps hst⟩) hk ⟨st, rfl, hst⟩
  exact ⟨q, hp, hq⟩

/-- An event that is told reaches the plugin, which loses no memory. -/
theorem reaction {e : Event} (h : Listens k J m) (hJ : ∀ {st q}, Keeps st q → J st → J q)
    (htell : Machine.tell Member.plugin env e m = .ok ⟨⟩ n) :
    ∃ s st q t, m.solver.Accretes s ∧ st.log = none ∧ J st ∧
      (react env e st).run env s = .ok q t ∧ n.plugins[k]? = some (.reflection q) ∧
      q.log = none ∧ J q ∧ t.Accretes n.solver := by
  obtain ⟨st, hk, hlog, hst⟩ := h
  obtain ⟨s, p, t, hms, hr, hp, htn⟩ := Machine.reaction_of_tell htell hk
  obtain ⟨q, rfl, hq⟩ := Member.react_reflection.1 hr
  have hkeeps := keeps_of_react hq hlog
  exact ⟨s, st, q, t, hms, hlog, hst, hq, hp, hkeeps.log hlog, hJ hkeeps hst, htn⟩

end Listens

/-! ## Calls are offered -/

/-- The plugin has been offered the calls of all reachable methods. -/
def Informed (p : Program) (k : Nat) (m : Machine Member) : Prop :=
  Listens k (fun st => ∀ i ∈ m.solver.calls.reachable, Offered p i st) m

namespace Informed

variable {k : Nat} {m n : Machine Member}

private theorem stable {p : Program} {known : MethodId → Prop} (hk : Keeps st q)
    (h : ∀ i, known i → Offered p i st) : ∀ i, known i → Offered p i q :=
  fun i hi => (h i hi).of_keeps hk

/-- The plugin stays informed while a machine acts. -/
theorem of_acts (h : Informed env.program k m) (ha : Machine.Acts Member.plugin env m n) :
    Informed env.program k n := by
  unfold Informed
  rw [ha.accretes.calls]
  exact Listens.of_acts h stable ha

/-- Once a new method has been entered, its calls have been offered too. -/
theorem of_entered {i : QMethod} (h : Informed env.program k m)
    (he : Machine.Entered Member.plugin env i m n) : Informed env.program k n := by
  have hcalls : n.solver.calls = m.solver.calls.discover i := he.acts.accretes.calls
  by_cases hknown : i.item ∈ m.solver.calls.reachable
  · obtain ⟨st, hk, hlog, hst⟩ := Listens.of_acts (m := m.discover i) h stable he.acts
    refine ⟨st, hk, hlog, ?_⟩
    intro j hj
    rw [hcalls] at hj
    rcases CallGraph.mem_reachable_discover hj with rfl | hj
    · exact hst _ hknown
    · exact hst j hj
  · obtain ⟨u, htell, hun⟩ := he.method hknown
    obtain ⟨s, st, q, t, _, hlog, _, hr, hk, hlog', hst, _⟩ :=
      Listens.reaction (m := m.discover i) h stable htell
    have hu : Listens k (fun st => ∀ j ∈ n.solver.calls.reachable, Offered env.program j st) u := by
      refine ⟨q, hk, hlog', ?_⟩
      intro j hj
      rw [hcalls] at hj
      rcases CallGraph.mem_reachable_discover hj with rfl | hj
      · exact offered_of_react hr hlog
      · exact hst j hj
    exact hu.of_acts stable hun

/-- Every step of a run leaves the plugin informed. -/
theorem invariant : Machine.Invariant Member.plugin env (Informed env.program k) := by
  refine .of_reachable of_acts of_entered ?_
  intro m n hplugins hreachable _ h
  unfold Informed Listens
  rw [hplugins, hreachable]
  exact h

end Informed

/-- At every stage of a grounded run the plugin has been offered the calls of all methods
that are reachable. -/
theorem informed_of_visits {k : Nat} {members : List Member} {entries : List MethodId}
    {stage : Machine.Stage Member} (hk : members[k]? = some (.reflection st))
    (hlog : st.log = none)
    (h : Machine.Visits Member.plugin env entries (.new members) stage)
    (hg : Machine.Grounded Member.plugin env entries (.new members)) :
    Informed env.program k stage.machine := by
  have hstart : Informed env.program k (.new members) :=
    ⟨st, hk, hlog, fun _ hi => absurd hi (OrderedSet.not_mem_empty _)⟩
  exact Informed.invariant.visits hstart h hg

/-! ## Calls are answered -/

/-- The plugin looks at a call on a variable, and the call has yielded what it asks for of
all that the variable refers to, except for objects that were there {lit}`early`. -/
structure Answers (env : Setting) (k : Nat) (v : QVar) (site : InvokeId) (api : Api)
    (early : QObj → Prop) (m : Machine Member) : Prop where
  listens : Listens k (fun st => Watches st v.item site api) m
  yielded : ∀ o ∈ m.solver.pointsTo.get (.var v),
    early o ∨ ClassModel.Yielded env m.solver.expected ⟨v.context, site⟩ api o

namespace Answers

variable {k : Nat} {v : QVar} {site : InvokeId} {api : Api} {early : QObj → Prop}
  {m n : Machine Member}

/-- No call is forgotten by acts. -/
theorem listens_of_acts (h : Answers env k v site api early m)
    (ha : Machine.Acts Member.plugin env m n) :
    Listens k (fun st => Watches st v.item site api) n :=
  h.listens.of_acts (fun hk hst => hk.relevant hst) ha

/-- What was yielded stays so where more is expected. -/
theorem yielded_of_extends (h : Answers env k v site api early m) (hm : m.solver.Grounded)
    (hmn : m.solver.Extends n.solver) {o : QObj} (ho : o ∈ m.solver.pointsTo.get (.var v)) :
    early o ∨ ClassModel.Yielded env n.solver.expected ⟨v.context, site⟩ api o :=
  (h.yielded o ho).imp_right fun hy =>
    hy.mono ((hm.points _ o ho).mono (Solver.settled_le_expected _)) hmn.expected

/-- The answers stay right while a machine acts. -/
theorem of_acts (h : Answers env k v site api early m) (hm : m.solver.Grounded)
    (ha : Machine.Acts Member.plugin env m n) : Answers env k v site api early n := by
  refine ⟨h.listens_of_acts ha, ?_⟩
  intro o ho
  rw [ha.accretes.pointsTo] at ho
  exact h.yielded_of_extends hm ha.accretes.extends ho

/-- Where plugins and sets are the same, what was yielded stays so. -/
theorem of_same (h : Answers env k v site api early m) (hm : m.solver.Grounded)
    (hmn : m.solver.Extends n.solver) (hplugins : n.plugins = m.plugins)
    (hpoints : n.solver.pointsTo = m.solver.pointsTo) : Answers env k v site api early n := by
  refine ⟨?_, fun o ho => h.yielded_of_extends hm hmn (hpoints ▸ ho)⟩
  obtain ⟨st, hk, hlog, hst⟩ := h.listens
  exact ⟨st, hplugins ▸ hk, hlog, hst⟩

/-- Objects on their way to a pointer are worked in: if some are new to the variable, the call
yields what it asks for of them. -/
theorem of_grew {ptr : Pointer} {os : ObjSet} {rest : List WorkItem}
    (h : Answers env k v site api early m) (hm : m.solver.Grounded)
    (hq : m.solver.queue = .pointsTo ptr os :: rest)
    (hw : (WorkItem.pointsTo ptr os).Exists m.solver.settled)
    (hacts : Machine.Acts Member.plugin env (m.taken env (.pointsTo ptr os) rest) n)
    (hgrew : ∀ v, ptr = .var v → ∀ o ∈ m.solver.delta ptr os,
      Machine.Grew Member.plugin env v (m.solver.delta ptr os)
        (m.taken env (.pointsTo ptr os) rest) n) :
    Answers env k v site api early n := by
  have htaken : (m.taken env (.pointsTo ptr os) rest).solver.Grounded := hm.of_take hq hw
  have hlistens : Listens k (fun st => Watches st v.item site api)
      (m.taken env (.pointsTo ptr os) rest) := h.listens
  refine ⟨hlistens.of_acts (fun hk hst => hk.relevant hst) hacts, ?_⟩
  intro o ho
  rcases (Machine.mem_pointsTo_of_taken hacts).1 ho with hold | ⟨hptr, hnew⟩
  · exact h.yielded_of_extends hm
      ((Solver.extends_take env.program hq).trans hacts.accretes.extends) hold
  · obtain ⟨u, hu, htell⟩ := (hgrew v hptr o hnew).told
    obtain ⟨s, st, q, t, hus, _, hwatches, hr, _, _, _, htn⟩ :=
      (hlistens.of_acts (fun hk hst => hk.relevant hst) hu).reaction
        (fun hk hst => hk.relevant hst) htell
    have hsg := (htaken.of_accretes hu.accretes).of_accretes hus
    have hholds : (Event.grown v (m.solver.delta ptr os)).Holds env s := by
      have hdelta : ∀ o' ∈ m.solver.delta ptr os, o' ∈ s.pointsTo.get (.var v) := by
        intro o' ho'
        rw [hus.pointsTo]
        exact (Machine.mem_pointsTo_of_taken hu).2 (.inr ⟨hptr, ho'⟩)
      exact ⟨hsg.var v o (hdelta o hnew), hdelta, o, hnew⟩
    have hobj := hsg.points _ o (hholds.2.1 o hnew)
    refine .inr ((yielded_of_react hr hsg hholds hwatches o hnew).mono ?_
      htn.extends.expected)
    exact (hobj.mono (Service.evolves hr).extends.settled).mono (Solver.settled_le_expected t)

/-- Where nothing is missing for the analysis, every step of a run leaves the call answered. -/
theorem invariant : Machine.Invariant Member.plugin env
    (fun m => Saturated env m.solver ∧ Answers env k v site api early m) where
  acts := fun ⟨hs, h⟩ ha => ⟨hs.of_acts ha, h.of_acts hs.grounded ha⟩
  entered := by
    rintro m n q ⟨hs, h⟩ hq hentered
    have hfound : Answers env k v site api early (m.discover q) :=
      h.of_same hs.grounded (Solver.extends_discover m.solver q) rfl rfl
    exact ⟨hs.of_entered hentered hq,
      hfound.of_acts (hs.grounded.of_discover hq) hentered.acts⟩
  pointsTo := fun ⟨hs, h⟩ hq hw hacts hgrew =>
    ⟨hs.of_grew hq hw hacts hgrew, h.of_grew hs.grounded hq hw hacts hgrew⟩
  known := fun ⟨hs, h⟩ hq hw hknown =>
    ⟨(Saturated.invariant (P := Member.plugin)).known hs hq hw hknown,
      h.of_same hs.grounded (Solver.extends_take env.program hq) rfl
        (Solver.pointsTo_take _ _ _ _)⟩
  linked := by
    rintro m n e rest ⟨hs, h⟩ hq hw hnew hlinked
    have htaken : Answers env k v site api early (m.taken env (.call e) rest) :=
      h.of_same hs.grounded (Solver.extends_take env.program hq) rfl
        (Solver.pointsTo_take _ _ _ _)
    refine ⟨Saturated.invariant.linked hs hq hw hnew hlinked, ?_⟩
    refine htaken.of_acts (hs.grounded.of_take (p := env.program) hq hw) ?_
    rw [Machine.taken_call hnew]
    exact hlinked.acts

end Answers

/-- From the stage on at which its method is reachable, the call is answered on whatever is new
to its variable. -/
theorem answers_of_precedes {k : Nat} {members : List Member} {entries : List MethodId}
    {a b : Machine.Stage Member} {v : QVar} {site : InvokeId} {api : Api} {early : QObj → Prop}
    (hg : Machine.Grounded Member.plugin env entries (.new members))
    (ha : Machine.Visits Member.plugin env entries (.new members) a)
    (hanswers : Answers env k v site api early a.machine)
    (hab : Machine.Precedes Member.plugin env a b) : Answers env k v site api early b.machine :=
  (Answers.invariant.precedes ⟨(saturated_of_visits ha hg).1, hanswers⟩ hg ha hab).2

/-! ## The fixpoint -/

/-- The call sites of a method with a base are listed under their own ids. -/
theorem mem_invokesIn {p : Program} (hp : p.Numbered) {m : MethodId} {site : InvokeId}
    (hstmt : .invoke site ∈ (p.method m).stmts) {base : VarId}
    (hbase : (p.invoke site).base = some base) :
    p.invoke site ∈ p.invokesIn m ∧ (p.invoke site).id = site := by
  refine ⟨List.mem_filterMap.2 ⟨_, hstmt, rfl⟩, ?_⟩
  unfold Program.invoke at hbase ⊢
  rw [Array.getD_eq_getD_getElem?] at hbase ⊢
  cases hget : p.invokes[site.index]? with
  | none =>
      rw [hget] at hbase
      cases hbase
  | some call => exact hp.invokes _ _ hget

/-- In the end a call has yielded what it asks for of every object that its base refers to,
except for those that were there at the last stage before which its method was reachable. -/
theorem yielded_of_visits (env : Setting) (ds : List Declaration)
    (hbuild : (Builder.ofList ds).build = .ok env.program) {steps : Nat}
    {entries : List MethodId} {members : List Member} {n : Machine Member} {k : Nat}
    (hk : members[k]? = some (.reflection st)) (hlog : st.log = none)
    (hsolve : Machine.solve Member.plugin env steps entries (.new members) = (.finished, n))
    (hg : Machine.Grounded Member.plugin env entries (.new members))
    {stage : Machine.Stage Member}
    (hstage : Machine.Visits Member.plugin env entries (.new members) stage)
    {m : MethodId} (hm : m ∈ stage.machine.solver.calls.reachable) {site : InvokeId}
    (hstmt : .invoke site ∈ (env.program.method m).stmts) {base : VarId} {api : Api}
    (hasks : Asks (env.program.invoke site) base api) {c : ContextId} {o : QObj}
    (ho : o ∈ n.solver.pointsTo.get (varPointer c base)) :
    o ∈ stage.machine.solver.pointsTo.get (varPointer c base) ∨
      ClassModel.Yielded env n.solver.settled ⟨c, site⟩ api o := by
  obtain ⟨hvisit, hq⟩ := Machine.visits_of_solve hsolve
  have hb := Program.built_of_build (Builder.numbered_ofList ds) hbuild
  obtain ⟨hcall, hid⟩ := mem_invokesIn hb.numbered hstmt hasks.receiver
  obtain ⟨q, hk', hlog', hoffered⟩ := informed_of_visits hk hlog hstage hg
  have hstart : Answers env k ⟨c, base⟩ site api
      (· ∈ stage.machine.solver.pointsTo.get (varPointer c base)) stage.machine := by
    refine ⟨⟨q, hk', hlog', ?_⟩, fun o ho => .inl ho⟩
    have hwatches := hoffered m hm _ hcall base api hasks
    rwa [hid] at hwatches
  have hend := answers_of_precedes hg hstage hstart (hstage.precedes_last hvisit hq)
  rw [← Solver.expected_eq_settled hq]
  exact hend.yielded o ho

/-- A method that makes an object, calls a method on it and asks for its class, and the other
method asks for the class of its receiver. -/
def askingProgram : List Declaration :=
  [.cls (.plain "A"), .method ⟨"A", "m", [], .void, false, false, true⟩,
    .var ⟨0⟩ "c" .classClass,
    .call ⟨0⟩ ⟨.virtual, Api.getClassRef, some ⟨0⟩, [], some ⟨1⟩⟩,
    .method ⟨"A", "main", [], .void, true, false, true⟩, .var ⟨1⟩ "a" (.cls "A"),
    .var ⟨1⟩ "d" .classClass, .stmt ⟨1⟩ (.new ⟨2⟩ (.cls "A")),
    .call ⟨1⟩ ⟨.virtual, ⟨"A", "m", [], .void⟩, some ⟨2⟩, [], none⟩,
    .call ⟨1⟩ ⟨.virtual, Api.getClassRef, some ⟨2⟩, [], some ⟨3⟩⟩]

/-- The method that makes the object is told its class. -/
theorem yielded_of_visits_asking :
    let env := settingOf askingProgram (oneCallSite false true)
    let run := Machine.solve Member.plugin env 10 [⟨1⟩] (.new [.reflection {}])
    run.1 = .finished ∧
      ⟨emptyContext, ⟨0⟩⟩ ∈ run.2.solver.pointsTo.get (varPointer emptyContext ⟨2⟩) ∧
      ClassModel.Yielded env run.2.solver.settled ⟨emptyContext, ⟨2⟩⟩ .getClass
        ⟨emptyContext, ⟨0⟩⟩ := by
  intro env run
  have hfinished : run.1 = .finished := by decide +kernel
  have hpoints : (⟨emptyContext, ⟨0⟩⟩ : QObj) ∈
      run.2.solver.pointsTo.get (varPointer emptyContext ⟨2⟩) := by decide +kernel
  refine ⟨hfinished, hpoints, ?_⟩
  have hsolve : Machine.solve Member.plugin env 10 [⟨1⟩] (.new [.reflection {}]) =
      (.finished, run.2) := Prod.ext hfinished rfl
  let start : Machine Member :=
    match Machine.enter Member.plugin env [⟨1⟩] (.new [.reflection {}]) with
    | .ok _ m => m
    | .error _ m => m
  have henter : Machine.enter Member.plugin env [⟨1⟩] (.new [.reflection {}]) = .ok ⟨⟩ start := by
    have hok : (match Machine.enter Member.plugin env [⟨1⟩] (.new [.reflection {}]) with
        | .ok _ _ => true
        | .error _ _ => false) = true := by decide +kernel
    dsimp only [start]
    split
    · assumption
    · rename_i herror
      rw [herror] at hok
      cases hok
  have hnew : State.new (oneCallSite false true) env.program (fun _ => none) = .ok {} := rfl
  have hsound : ∀ m ∈ [Member.reflection {}], m.Sound env.program ({} : Solver).settled := by
    intro m hm
    obtain rfl := List.mem_singleton.1 hm
    exact Reflection.State.sound_of_new hnew
  have hasks : Asks (env.program.invoke ⟨2⟩) ⟨2⟩ .getClass :=
    ⟨by decide +kernel, by decide +kernel, by decide +kernel, by decide +kernel⟩
  have hstage : Machine.Visits Member.plugin env [⟨1⟩] (.new [.reflection {}]) ⟨false, start⟩ :=
    ⟨start, henter, .refl⟩
  have hbuild : (Builder.ofList askingProgram).build = .ok env.program :=
    Program.build_of_checks (by decide +kernel) (by decide +kernel)
  have hyielded := yielded_of_visits env askingProgram hbuild (k := 0) rfl rfl hsolve
    (Member.grounded (Program.built_of_build (Builder.numbered_ofList _) hbuild) hsound) hstage
    (m := ⟨1⟩) (by decide +kernel) (by decide +kernel) hasks
    hpoints
  refine hyielded.resolve_left ?_
  decide +kernel

/-- The method that asks for the class of its receiver is not told that of its first one, which
was there before the call was offered. -/
theorem not_yielded_of_first_receiver :
    let env := settingOf askingProgram (oneCallSite false true)
    let run := Machine.solve Member.plugin env 10 [⟨1⟩] (.new [.reflection {}])
    run.1 = .finished ∧ ⟨⟨1⟩, ⟨0⟩⟩ ∈ run.2.solver.calls.reachableIn ∧
      ⟨emptyContext, ⟨0⟩⟩ ∈ run.2.solver.pointsTo.get (varPointer ⟨1⟩ ⟨0⟩) ∧
      ¬ ClassModel.Yielded env run.2.solver.settled ⟨⟨1⟩, ⟨0⟩⟩ .getClass ⟨emptyContext, ⟨0⟩⟩ := by
  intro env run
  refine ⟨by decide +kernel, by decide +kernel, by decide +kernel, ?_⟩
  intro hyielded
  obtain ⟨i, _, hi⟩ := hyielded ⟨1⟩ (by decide +kernel) (classMeta (.cls "A")) (by decide +kernel)
  have hnone : (run.2.solver.pointsTo.get (varPointer ⟨1⟩ ⟨1⟩)).toList = [] := by decide +kernel
  have hmem : (⟨emptyContext, i⟩ : QObj) ∈
      (run.2.solver.pointsTo.get (varPointer ⟨1⟩ ⟨1⟩)).toList := hi
  rw [hnone] at hmem
  exact absurd hmem List.not_mem_nil

end Reflection

end PointsTo
