import PointsTo.Proofs.ReflectionActions
import PointsTo.Proofs.ReflectionOffers

/-!
# How the plugin for reflection reacts

The plugin for reflection offers calls to its models, and along the edges that they add it
passes arguments and results.  This file shows that all its reactions keep to the rules of the
plugins, and says what it remembers and what becomes of its memory.

Main results:

- {lit}`State.Sound`: what the memory of the plugin is about.
- {lit}`State.Attends`, and theorem {lit}`react_grown_ok`: what the models do when a variable
  refers to more.
- Theorem {lit}`State.sound_offer`: offering a call keeps the memory sound.
- Theorem {lit}`honest`: the plugin keeps to the rules.
-/

namespace PointsTo.Reflection

variable {env : Setting} {s t : Solver} {k l : View} {site : QSite}

/-! ## Arguments and results -/

/-- There is an edge for each parameter that holds references. -/
theorem mem_arrayEdges {callee : Method} {array : QObj} {target : ContextId} {f : FlowEdge} :
    f ∈ arrayEdges callee array target ↔ ∃ param type, (param, type) ∈ callee.typedParams ∧
      type.isReference = true ∧
        f = ⟨.array array, varPointer target param, .parameterPassing, some type⟩ := by
  simp only [arrayEdges, List.mem_map, List.mem_filter]
  constructor
  · rintro ⟨⟨param, type⟩, ⟨hmem, htype⟩, rfl⟩
    exact ⟨param, type, hmem, htype, rfl⟩
  · rintro ⟨param, type, hmem, htype, rfl⟩
    exact ⟨(param, type), ⟨hmem, htype⟩, rfl⟩

/-- What is returned flows to the result of a reflective call if it is a reference. -/
theorem mem_resultEdges {p : Program} {e : CallEdge} {f : FlowEdge} :
    f ∈ resultEdges p e ↔ (p.method e.callee.item).ret.isReference = true ∧
      f ∈ returnEdges (p.invoke e.site.item).result (p.method e.callee.item) e.site.context
        e.callee.context := by
  unfold resultEdges
  dsimp only
  split <;> simp [*]

/-- The elements of arrays flow to the parameters of the callee of an edge. -/
theorem forwardArrays_ok {forwarded forwarded' : OrderedSet (QObj × QMethod)} {objects : ObjSet}
    {callee : QMethod}
    (h : (forwardArrays env forwarded objects callee).run env s = .ok forwarded' t)
    (hobjects : ∀ o ∈ objects, s.settled.HasObj o) (hcallee : s.contexts.Has callee.context)
    {e : CallEdge} (he : e ∈ s.calls.edges) (hedge : e.callee = callee) :
    s.Evolves env.program (PluginRule env) t := by
  refine (Service.evolves_foldlM (J := fun _ _ => True) h trivial ?_).1
  intro o ho b c u w hsu _ huw
  refine ⟨?_, trivial⟩
  have hu := hsu.extends.settled
  simp only [Service.bind_eq, Service.run_bind, bind_eq_ok, Service.obj_eq_ok] at huw
  obtain ⟨_, _, ⟨rfl, rfl⟩, huw⟩ := huw
  split at huw
  · simp only [Service.run_bind, bind_eq_ok] at huw
    obtain ⟨_, y, hflows, huw⟩ := huw
    obtain ⟨_, rfl⟩ := pure_eq_ok.1 huw
    subst hedge
    refine (Service.addFlows_ok hflows (hu.call he) ?_ ?_).1
    · intro f hf
      obtain ⟨_, _, hmem, _, rfl⟩ := mem_arrayEdges.1 hf
      exact .param (List.of_mem_zip hmem).1
    · intro f hf
      obtain ⟨_, _, _, _, rfl⟩ := mem_arrayEdges.1 hf
      exact ⟨(hobjects o ho).mono hu, hcallee.of_grows hu.contexts⟩
  · exact (pure_eq_ok.1 huw).2 ▸ .refl _

/-- What the models remember is sound, and arguments wait for methods that an edge of the call
graph leads to. -/
structure State.Sound (p : Program) (k : View) (st : State) : Prop where
  log : ∀ m ∈ st.log, m.Sound p k
  classes : Mentioned p st.classes.relevant
  strings : ∀ m ∈ st.strings, Mentioned p m.relevant
  actions : st.actions.Sound p k
  argArrays : ∀ v callee, (v, callee) ∈ st.argArrays.pairs →
    k.contexts.Has callee.context ∧ ∃ e, k.call e ∧ e.callee = callee

/-- What is remembered stays right while a view grows. -/
theorem State.Sound.mono {p : Program} {st : State} (h : st.Sound p k) (hle : k.Le l) :
    st.Sound p l where
  log := fun m hm => (h.log m hm).mono hle
  classes := h.classes
  strings := h.strings
  actions := h.actions.mono hle
  argArrays := by
    intro v callee hmem
    obtain ⟨hcallee, e, he, hedge⟩ := h.argArrays v callee hmem
    exact ⟨hcallee.of_grows hle.contexts, e, hle.call he, hedge⟩

/-- The models look at the same calls as before. -/
structure State.SameModels (st q : State) : Prop where
  log : q.log = st.log
  classes : q.classes = st.classes
  strings : q.strings = st.strings
  relevant : q.actions.relevant = st.actions.relevant
  kind : q.actions.made.kind = st.actions.made.kind

theorem State.SameModels.refl (st : State) : st.SameModels st := ⟨rfl, rfl, rfl, rfl, rfl⟩

theorem State.SameModels.trans {st q r : State} (h : st.SameModels q) (h' : q.SameModels r) :
    st.SameModels r :=
  ⟨h'.log.trans h.log, h'.classes.trans h.classes, h'.strings.trans h.strings,
    h'.relevant.trans h.relevant, h'.kind.trans h.kind⟩

variable {st q : State}

/-- The arguments of a reflective call may reach the parameters. -/
theorem passArguments_ok {e : CallEdge} {call : ReflectiveCall}
    (h : (passArguments env st e call).run env s = .ok q t) (hg : s.Grounded)
    (hst : st.Sound env.program s.settled) (he : e ∈ s.calls.edges)
    (hcallee : s.contexts.Has e.callee.context) :
    s.Evolves env.program (PluginRule env) t ∧ q.Sound env.program t.settled := by
  unfold passArguments at h
  split at h
  · obtain ⟨rfl, rfl⟩ := pure_eq_ok.1 h
    exact ⟨.refl _, hst⟩
  · rename_i args _
    dsimp only at h
    split at h
    · obtain ⟨rfl, rfl⟩ := pure_eq_ok.1 h
      exact ⟨.refl _, hst⟩
    · simp only [Service.bind_eq, Service.run_bind, bind_eq_ok,
        Service.varPointsTo_eq_ok] at h
      obtain ⟨_, _, ⟨rfl, rfl⟩, forwarded, u, hforward, h⟩ := h
      obtain ⟨rfl, rfl⟩ := pure_eq_ok.1 h
      have hevolves := forwardArrays_ok hforward (hg.points _) hcallee he rfl
      have hle := hevolves.extends.settled
      have hst' := hst.mono hle
      refine ⟨hevolves, hst'.log, hst'.classes, hst'.strings, hst'.actions, ?_⟩
      intro v callee hmem
      rcases OrderedSet.mem_insert.1 hmem with heq | hmem
      · cases heq
        exact ⟨hcallee.of_grows hle.contexts, e, hle.call he, rfl⟩
      · exact hst'.argArrays v callee hmem

/-- The arguments of a reflective call concern no model. -/
theorem passArguments_kept {e : CallEdge} {call : ReflectiveCall}
    (h : (passArguments env st e call).run env s = .ok q t) : st.SameModels q := by
  unfold passArguments at h
  split at h
  · obtain ⟨rfl, _⟩ := pure_eq_ok.1 h
    exact .refl _
  · dsimp only at h
    split at h
    · obtain ⟨rfl, _⟩ := pure_eq_ok.1 h
      exact .refl _
    · simp only [Service.bind_eq, Service.run_bind, bind_eq_ok] at h
      obtain ⟨_, _, _, _, _, _, h⟩ := h
      obtain ⟨rfl, _⟩ := pure_eq_ok.1 h
      exact ⟨rfl, rfl, rfl, rfl, rfl⟩

/-- Further argument arrays may reach the parameters that wait on them. -/
theorem wakeArguments_ok {v : QVar} (h : (wakeArguments env st v).run env s = .ok q t)
    (hg : s.Grounded) (hst : st.Sound env.program s.settled) :
    s.Evolves env.program (PluginRule env) t ∧ q.Sound env.program t.settled := by
  unfold wakeArguments at h
  split at h
  · obtain ⟨rfl, rfl⟩ := pure_eq_ok.1 h
    exact ⟨.refl _, hst⟩
  · simp only [Service.bind_eq, Service.run_bind, bind_eq_ok, Service.varPointsTo_eq_ok] at h
    obtain ⟨_, _, ⟨rfl, rfl⟩, forwarded, u, hloop, h⟩ := h
    obtain ⟨rfl, rfl⟩ := pure_eq_ok.1 h
    have hevolves := (Service.evolves_foldlM (J := fun _ _ => True) hloop trivial (by
      intro callee hcallee b c w y hsw _ hwy
      refine ⟨?_, trivial⟩
      have hw := hsw.extends.settled
      obtain ⟨hhas, e, he, hedge⟩ := hst.argArrays v callee (Waitlist.mem_get.1 hcallee)
      exact forwardArrays_ok hwy (fun o ho => (hg.points _ o ho).mono hw)
        (hhas.of_grows hw.contexts) (hw.call he) hedge)).1
    have hst' := hst.mono hevolves.extends.settled
    exact ⟨hevolves, hst'.log, hst'.classes, hst'.strings, hst'.actions, hst'.argArrays⟩

/-- Further argument arrays concern no model. -/
theorem wakeArguments_kept {v : QVar} (h : (wakeArguments env st v).run env s = .ok q t) :
    st.SameModels q := by
  unfold wakeArguments at h
  split at h
  · obtain ⟨rfl, _⟩ := pure_eq_ok.1 h
    exact .refl _
  · simp only [Service.bind_eq, Service.run_bind, bind_eq_ok] at h
    obtain ⟨_, _, _, _, _, _, h⟩ := h
    obtain ⟨rfl, _⟩ := pure_eq_ok.1 h
    exact ⟨rfl, rfl, rfl, rfl, rfl⟩

/-! ## The plugin -/

/-- What the models do because a variable refers to more: those calls that they look at it for
find, make and invoke what they ask for. -/
structure State.Attends (env : Setting) (k : View) (points : PointsToMap) (v : QVar)
    (delta : ObjSet) (st : State) : Prop where
  log : ∀ m ∈ st.log, ∀ site target, (v.item, (site, target)) ∈ m.receivers.pairs →
    ∀ o ∈ delta, InvokedOn env k ⟨v.context, site⟩ target (env.program.invoke site).args[1]? o
  strings : ∀ m ∈ st.strings, ∀ site api, (v.item, (site, api)) ∈ m.relevant.pairs →
    StringModel.Found env k points v delta site api
  actions : st.actions.made.kind = .reflective →
    ∀ site api, (v.item, (site, api)) ∈ st.actions.relevant.pairs →
      ActionModel.Acted env k points v delta site api

/-- Attention to a variable depends on the models only. -/
theorem State.Attends.of_same {points : PointsToMap} {v : QVar} {delta : ObjSet}
    (h : q.Attends env k points v delta) (hst : st.SameModels q) :
    st.Attends env k points v delta where
  log := hst.log ▸ h.log
  strings := hst.strings ▸ h.strings
  actions := by
    rw [← hst.kind, ← hst.relevant]
    exact h.actions

/-- The models look at what is new to a variable. -/
theorem grown_ok {v : QVar} {delta : ObjSet} (h : (grown env st v delta).run env s = .ok q t)
    (hp : env.program.Numbered) (hg : s.Grounded) (hst : st.Sound env.program s.settled)
    (hv : s.settled.Refers v) (hdelta : ∀ o ∈ delta, s.settled.HasObj o) :
    s.Evolves env.program (PluginRule env) t ∧ q.Sound env.program t.settled ∧
      st.Attends env t.expected s.pointsTo v delta := by
  simp only [grown, Service.bind_eq, Service.run_bind, bind_eq_ok] at h
  obtain ⟨_, s₁, hlog, _, s₂, hclasses, _, s₃, hstrings, actions, s₄, hactions, h⟩ := h
  obtain ⟨rfl, rfl⟩ := pure_eq_ok.1 h
  have h₁ : s.Evolves env.program (PluginRule env) s₁ :=
    Service.evolves_option_forM hlog fun m hm hlog =>
      (LogModel.grown_ok hlog hg.empty hv hdelta (hst.log m hm).receivers).1
  have hle₁ := h₁.extends.settled
  have h₂ := h₁.trans (ClassModel.grown_ok hclasses (hg.empty.of_grows hle₁.contexts)
    (hv.mono hle₁) hst.classes)
  have hle₂ := h₂.extends.settled
  have hg₂ := hg.of_accretes h₂.accretes
  have hdelta₂ : ∀ o ∈ delta, s₂.settled.HasObj o := fun o ho => (hdelta o ho).mono hle₂
  have h₂₃ : s₂.Evolves env.program (PluginRule env) s₃ :=
    Service.evolves_option_forM hstrings fun m hm hstrings =>
      (StringModel.grown_ok hstrings hg₂ (hv.mono hle₂) hdelta₂ (hst.strings m hm)).1
  have h₃ := h₂.trans h₂₃
  have hle₃ := h₃.extends.settled
  obtain ⟨h₄, hsound, hacted⟩ := ActionModel.grown_ok hactions hp (hg.of_accretes h₃.accretes)
    (hv.mono hle₃) (fun o ho => (hdelta o ho).mono hle₃) (hst.actions.mono hle₃)
  have hst' := hst.mono (h₃.trans h₄).extends.settled
  refine ⟨h₃.trans h₄, ⟨hst'.log, hst'.classes, hst'.strings, hsound, hst'.argArrays⟩, ?_, ?_, ?_⟩
  · intro m hm site target hmem o ho
    obtain ⟨m', hm', hlog⟩ := (Service.option_forM_cases hlog).resolve_left
      fun hnone => absurd (hnone.1.symm.trans hm) (by simp)
    obtain rfl := Option.some.inj (hm.symm.trans hm')
    obtain ⟨h₁', hall⟩ := LogModel.grown_ok hlog hg.empty hv hdelta (hst.log m hm).receivers
    have hle := h₁'.extends.settled.trans (Solver.settled_le_expected s₁)
    have hlater := (Service.evolves hclasses).accretes.trans (h₂₃.trans h₄).accretes
    exact (hall site target hmem o ho).mono hlater.extends.expected
      (hv.context.of_grows hle.contexts) ((hdelta o ho).mono hle)
  · intro m hm site api hmem
    obtain ⟨m', hm', hstrings⟩ := (Service.option_forM_cases hstrings).resolve_left
      fun hnone => absurd (hnone.1.symm.trans hm) (by simp)
    obtain rfl := Option.some.inj (hm.symm.trans hm')
    have hfound := (StringModel.grown_ok hstrings hg₂ (hv.mono hle₂) hdelta₂
      (hst.strings m hm)).2 site api hmem
    rw [← h₂.accretes.pointsTo]
    exact hfound.mono hg₂.points hdelta₂
      (h₂₃.extends.settled.trans (Solver.settled_le_expected s₃)) h₄.extends.expected
  · rw [← h₃.accretes.pointsTo]
    exact hacted

/-- What is new to a variable changes no log, and the models look at the same calls. -/
theorem grown_kept {v : QVar} {delta : ObjSet} (h : (grown env st v delta).run env s = .ok q t) :
    st.SameModels q := by
  simp only [grown, Service.bind_eq, Service.run_bind, bind_eq_ok] at h
  obtain ⟨_, _, _, _, _, _, _, _, _, actions, _, hactions, h⟩ := h
  obtain ⟨rfl, _⟩ := pure_eq_ok.1 h
  obtain ⟨hrelevant, hkind⟩ := ActionModel.grown_kept hactions
  exact ⟨rfl, rfl, rfl, hrelevant, hkind⟩

/-- Whatever the other models do, the model of classes yields what it is asked for. -/
theorem yielded_of_grown {v : QVar} {delta : ObjSet}
    (h : (grown env st v delta).run env s = .ok q t) (hdelta : ∀ o ∈ delta, s.settled.HasObj o) :
    ∀ site api, (v.item, (site, api)) ∈ st.classes.relevant.pairs → ∀ o ∈ delta,
      ClassModel.Yielded env t.expected ⟨v.context, site⟩ api o := by
  simp only [grown, Service.bind_eq, Service.run_bind, bind_eq_ok] at h
  obtain ⟨_, s₁, hlog, _, s₂, hclasses, _, s₃, hstrings, actions, s₄, hactions, h⟩ := h
  obtain ⟨rfl, rfl⟩ := pure_eq_ok.1 h
  have hle₁ := (Service.evolves hlog).extends.settled
  have hdelta₁ : ∀ o ∈ delta, s₁.settled.HasObj o := fun o ho => (hdelta o ho).mono hle₁
  have hle₂ := (Service.evolves hclasses).extends.settled
  have hlater := (Service.evolves hstrings).trans (Service.evolves hactions)
  intro site api hmem o ho
  exact (ClassModel.yielded_of_grown hclasses hdelta₁ site api hmem o ho).mono
    (((hdelta₁ o ho).mono hle₂).mono (Solver.settled_le_expected s₂)) hlater.extends.expected

/-! ### Offering -/

section Offer

variable {p : Program} {call : Invoke}

/-- A call that is offered under its own id mentions the variables at which it is looked at. -/
theorem Watch.mentioned {x : VarId × InvokeId × Api} (h : Watch call x)
    (hcall : p.invoke call.id = call) : x.1 ∈ p.mentioned (.invoke x.2.1) := by
  rw [h.site]
  rcases h.place with hv | hv
  · simp [Program.mentioned, hcall, Option.mem_def.1 hv]
  · simp [Program.mentioned, hcall, List.mem_of_mem_head? hv]

/-- Offering a call keeps the memory sound. -/
theorem State.sound_offer (hst : st.Sound p k) (hcall : p.invoke call.id = call) :
    (st.offer call).Sound p k where
  log := by
    intro m' hm'
    obtain ⟨m, hm, rfl⟩ := (st.offered call).of_log hm'
    have hsound := hst.log m hm
    refine ⟨fun c hc => ?_, hsound.receivers, hsound.made⟩
    rcases List.mem_append.1 hc with hc | hc
    · exact hsound.claims c hc
    · obtain ⟨e, _, _, rfl⟩ := LogModel.mem_asked.1 hc
      rw [ResolvedEntry.claim, hcall]
  classes := fun v i api hmem => ((st.offered call).classes _ hmem).elim (hst.classes v i api)
    fun hnew => hnew.2.mentioned hcall
  strings := by
    intro m' hm' v i api hmem
    obtain ⟨m, hm, hstrings⟩ := (st.offered call).strings m' hm'
    exact (hstrings _ hmem).elim (hst.strings m hm v i api) fun hnew => hnew.2.mentioned hcall
  actions := by
    refine ⟨?_, fun v i api hmem => ?_⟩
    · rw [(st.offered call).made]
      exact hst.actions.made
    · exact ((st.offered call).actions _ hmem).elim (hst.actions.relevant v i api)
        fun hnew => hnew.2.1.mentioned hcall
  argArrays := by
    rw [(st.offered call).argArrays]
    exact hst.argArrays

/-- A call of no reflective method is taken by no model. -/
theorem State.offer_eq_self {call : Invoke} (h : Api.classify call.target = none) (st : State) :
    st.offer call = st := by
  have hmodels : ∀ st : State, st.offerModels call = st := by
    intro st
    simp [offerModels, ClassModel.offer, StringModel.offer, ActionModel.offer, h]
  unfold State.offer
  split
  · exact hmodels st
  · rename_i log hlog
    simp [LogModel.offer, h, hmodels, ← hlog]

/-- Nor is a call without an entry. -/
theorem State.offer_default (st : State) : st.offer default = st :=
  st.offer_eq_self (by decide +kernel)

/-- What is kept when a call of the program is offered is kept when those of a method are. -/
theorem State.offerAll_rec {motive : State → Prop} (hp : p.Numbered) {st : State} (hst : motive st)
    (hoffer : ∀ st call, p.invoke call.id = call → motive st → motive (st.offer call))
    (m : MethodId) : motive ((p.invokesIn m).foldl State.offer st) := by
  refine List.foldlRecOn (p.invokesIn m) State.offer hst ?_
  intro st hst call hcall
  obtain ⟨i, _, rfl⟩ := Program.mem_invokesIn.1 hcall
  rcases hp.invoke_cases i with hid | hdefault
  · exact hoffer st _ (by rw [hid]) hst
  · rwa [hdefault, State.offer_default]

/-- Offering the calls of a method keeps the memory sound. -/
theorem State.sound_offerAll (hp : p.Numbered) (hst : st.Sound p k) (m : MethodId) :
    ((p.invokesIn m).foldl State.offer st).Sound p k :=
  State.offerAll_rec hp hst (fun _ _ hcall hst => State.sound_offer hst hcall) m

end Offer

/-! ### Reactions -/

/-- When a variable refers to more, the arguments that wait on it are passed on, and the models
do what they look at it for. -/
theorem react_grown_ok {v : QVar} {delta : ObjSet}
    (h : (react env (.grown v delta) st).run env s = .ok q t) (hp : env.program.Numbered)
    (hg : s.Grounded) (hst : st.Sound env.program s.settled)
    (he : (Event.grown v delta).Holds env s) :
    s.Evolves env.program (PluginRule env) t ∧ q.Sound env.program t.settled ∧
      st.Attends env t.expected s.pointsTo v delta := by
  simp only [react, Service.bind_eq, Service.run_bind, bind_eq_ok] at h
  obtain ⟨st', u, hwake, hgrown⟩ := h
  obtain ⟨hsu, hst'⟩ := wakeArguments_ok hwake hg hst
  have hu := hsu.extends.settled
  obtain ⟨hv, hpoints, o, ho⟩ := he
  have hrefers : s.settled.Refers v := ⟨hv, o, hpoints o ho⟩
  obtain ⟨hut, hq, hattends⟩ := grown_ok hgrown hp (hg.of_accretes hsu.accretes) hst'
    (hrefers.mono hu) (fun o ho => (hg.points _ o (hpoints o ho)).mono hu)
  rw [hsu.accretes.pointsTo] at hattends
  exact ⟨hsu.trans hut, hq, hattends.of_same (wakeArguments_kept hwake)⟩

/-- Every reaction keeps to the rules. -/
theorem react_ok {e : Event} (h : (react env e st).run env s = .ok q t)
    (hp : env.program.Numbered) (hs : s.Scoped) (hst : st.Sound env.program s.settled)
    (he : e.Holds env s) :
    s.Evolves env.program (PluginRule env) t ∧ q.Sound env.program t.settled := by
  cases e with
  | start | finish | unresolved =>
      obtain ⟨rfl, rfl⟩ := pure_eq_ok.1 h
      exact ⟨.refl _, hst⟩
  | method m =>
      obtain ⟨rfl, rfl⟩ := pure_eq_ok.1 h
      exact ⟨.refl _, State.sound_offerAll hp hst m⟩
  | methodIn m =>
      cases hlog : st.log with
      | none =>
          simp only [react, hlog] at h
          obtain ⟨rfl, rfl⟩ := pure_eq_ok.1 h
          exact ⟨.refl _, hst⟩
      | some log =>
          simp only [react, hlog, Service.bind_eq, Service.run_bind, bind_eq_ok] at h
          obtain ⟨log', u, hreached, h⟩ := h
          obtain ⟨rfl, rfl⟩ := pure_eq_ok.1 h
          obtain ⟨hevolves, hsound, _⟩ :=
            LogModel.reached_ok hreached hs.grounded he.1 (hst.log log hlog)
          have hst' := hst.mono hevolves.extends.settled
          refine ⟨hevolves, ?_, hst'.classes, hst'.strings, hst'.actions, hst'.argArrays⟩
          rintro _ ⟨⟩
          exact hsound
  | grown v delta =>
      obtain ⟨hevolves, hsound, _⟩ := react_grown_ok h hp hs.grounded hst he
      exact ⟨hevolves, hsound⟩
  | edge e =>
      obtain ⟨hsite, hcallee, _⟩ := hs.call (.inl he)
      cases hk : e.kind with
      | reflective call =>
          simp only [react, hk, Service.bind_eq, Service.run_bind, bind_eq_ok] at h
          obtain ⟨st', u, hpass, _, w, hflows, h⟩ := h
          obtain ⟨rfl, rfl⟩ := pure_eq_ok.1 h
          obtain ⟨hsu, hst'⟩ := passArguments_ok hpass hs.grounded hst he hcallee
          have hu := hsu.extends.settled
          obtain ⟨huw, _⟩ := Service.addFlows_ok hflows (hu.call he)
            (fun f hf => CallEdge.feeds_of_returnEdges (mem_resultEdges.1 hf).2
              fun _ hv => .result hv)
            (fun f hf => (exists_of_returnEdges (mem_resultEdges.1 hf).2 hsite hcallee).mono hu)
          exact ⟨hsu.trans huw, hst'.mono huw.extends.settled⟩
      | static | virtual | interface | special | lambda =>
          simp only [react, hk] at h
          obtain ⟨rfl, rfl⟩ := pure_eq_ok.1 h
          exact ⟨.refl _, hst⟩

/-- The plugin for reflection keeps to the rules. -/
theorem honest (hp : env.program.Numbered) :
    plugin.Honest env (PluginRule env) (State.Sound env.program) where
  rule_exists := fun _ h => h.exists
  mono := fun h hle => h.mono hle
  react := fun hs hst he h => react_ok h hp hs hst he

end PointsTo.Reflection
