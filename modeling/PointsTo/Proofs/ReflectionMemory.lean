import PointsTo.Proofs.Members
import PointsTo.Proofs.Memory
import PointsTo.Proofs.Order

/-!
# What the plugin for reflection remembers

When a method becomes reachable its calls are offered to the log and, if the log does not cover
them, to the models.  From then on the models look at a call whenever one of the variables that
they were offered it for refers to more, and what the log asks of a call is done under every
context in which the method is reachable.  No reaction forgets any of this.

Main results:

- {lit}`State.Watches`: the models look at a call; theorem {lit}`State.watches_offer`: they do once
  it was offered.
- {lit}`State.Retains`, and theorem {lit}`retains_of_react`: nothing is forgotten.
- {lit}`memory`: what a member for reflection keeps in mind; theorem
  {lit}`fulfilled_of_runFrom`: in the end all is done that it has to do because of it.
-/

namespace PointsTo

namespace Reflection

variable {env : Setting} {s t : Solver} {st q r : State} {e : Event} {call : Invoke}
  {p : Program}

/-! ## Offered calls -/

/-- A log that is retained asks for the same. -/
theorem LogModel.Retains.asked_eq {m m' : LogModel} (h : m.Retains m') (call : Invoke) :
    m'.asked call = m.asked call :=
  asked_congr h.entries call

/-- An offer retains the log. -/
theorem LogModel.retains_offer (m : LogModel) (call : Invoke) :
    m.Retains (m.offer call).2 := by
  rw [offer_eq]
  exact ⟨rfl, rfl, fun _ hc => List.mem_append_left _ hc, fun _ => id⟩

namespace State

/-- The models look at a call for what it asks of them, unless the log covers it. -/
structure Watches (st : State) (call : Invoke) : Prop where
  log : ∀ m ∈ st.log, ∀ claim ∈ m.asked call, claim ∈ m.claims
  classes : st.covers call = false →
    ∀ x ∈ (({} : ClassModel).offer call).2.relevant.pairs, x ∈ st.classes.relevant.pairs
  strings : st.covers call = false → ∀ m ∈ st.strings,
    ∀ x ∈ (({} : StringModel).offer call).2.relevant.pairs, x ∈ m.relevant.pairs
  actions : st.covers call = false →
    ∀ x ∈ (({} : ActionModel).offer call).2.relevant.pairs, x ∈ st.actions.relevant.pairs

/-- Nothing is forgotten: the models are the same, and look at all that they looked at. -/
structure Retains (st q : State) : Prop where
  log : Option.Rel LogModel.Retains st.log q.log
  classes : ∀ x ∈ st.classes.relevant.pairs, x ∈ q.classes.relevant.pairs
  strings : Option.Rel (fun m m' : StringModel => ∀ x ∈ m.relevant.pairs, x ∈ m'.relevant.pairs)
    st.strings q.strings
  actions : ∀ x ∈ st.actions.relevant.pairs, x ∈ q.actions.relevant.pairs
  kind : q.actions.made.kind = st.actions.made.kind

end State

/-- Two options that are related are both empty, or their values are related. -/
private theorem rel_trans {α : Type} {R : α → α → Prop} {a b c : Option α}
    (hR : ∀ {x y z}, R x y → R y z → R x z) (h : Option.Rel R a b) (k : Option.Rel R b c) :
    Option.Rel R a c := by
  cases h with
  | none => exact k
  | some h =>
      cases k with
      | some k => exact .some (hR h k)

/-- What a function relates to its arguments, it relates to optional ones. -/
private theorem rel_map {α : Type} {R : α → α → Prop} {f : α → α} (a : Option α)
    (hR : ∀ x, R x (f x)) : Option.Rel R a (a.map f) := by
  cases a with
  | none => exact .none
  | some x => exact .some (hR x)

/-- A reflexive relation is so for optional values. -/
private theorem rel_refl {α : Type} {R : α → α → Prop} (a : Option α) (hR : ∀ x, R x x) :
    Option.Rel R a a := by
  cases a with
  | none => exact .none
  | some x => exact .some (hR x)

/-- What is related to an optional value has something that is related to it. -/
private theorem exists_of_rel {α : Type} {R : α → α → Prop} {a b : Option α} {x : α}
    (h : Option.Rel R a b) (hx : x ∈ b) : ∃ y ∈ a, R y x := by
  cases h with
  | none => cases hx
  | some h =>
      obtain rfl := Option.some.inj hx
      exact ⟨_, rfl, h⟩

namespace State

/-- A state retains what it has. -/
theorem Retains.refl (st : State) : st.Retains st :=
  ⟨rel_refl _ .refl, fun _ => id, rel_refl _ fun _ _ => id, fun _ => id, rfl⟩

/-- What is retained twice is retained. -/
theorem Retains.trans (h : st.Retains q) (k : q.Retains r) : st.Retains r where
  log := rel_trans .trans h.log k.log
  classes := fun x hx => k.classes x (h.classes x hx)
  strings := rel_trans (fun a b x hx => b x (a x hx)) h.strings k.strings
  actions := fun x hx => k.actions x (h.actions x hx)
  kind := k.kind.trans h.kind

/-- States with the same models retain these. -/
theorem SameModels.retains (h : st.SameModels q) : st.Retains q where
  log := by
    rw [h.log]
    exact rel_refl _ .refl
  classes := by
    rw [h.classes]
    exact fun _ => id
  strings := by
    rw [h.strings]
    exact rel_refl _ fun _ _ => id
  actions := by
    rw [h.relevant]
    exact fun _ => id
  kind := h.kind

/-- What a log covers does not change. -/
theorem Retains.covers_eq (h : st.Retains q) (call : Invoke) : q.covers call = st.covers call := by
  have hrel := h.log
  unfold covers
  generalize st.log = a at hrel ⊢
  generalize q.log = b at hrel ⊢
  cases hrel with
  | none => rfl
  | some hm => simp only [Option.any_some, LogModel.offer_eq, hm.asked_eq]

/-- The models look at a call as long as nothing is forgotten. -/
theorem Watches.of_retains (h : st.Watches call) (hq : st.Retains q) : q.Watches call where
  log := by
    intro m' hm' claim hclaim
    obtain ⟨m, hm, hretains⟩ := exists_of_rel hq.log hm'
    rw [hretains.asked_eq] at hclaim
    exact hretains.claims claim (h.log m hm claim hclaim)
  classes := fun hc x hx => hq.classes x (h.classes (hq.covers_eq call ▸ hc) x hx)
  strings := by
    intro hc m' hm' x hx
    obtain ⟨m, hm, hretains⟩ := exists_of_rel hq.strings hm'
    exact hretains x (h.strings (hq.covers_eq call ▸ hc) m hm x hx)
  actions := fun hc x hx => hq.actions x (h.actions (hq.covers_eq call ▸ hc) x hx)

/-! ## Offering -/

/-- The models to which a call is offered look at it, and at all that they looked at. -/
theorem retains_offerModels (st : State) (call : Invoke) : st.Retains (st.offerModels call) where
  log := rel_refl _ .refl
  classes := fun _ hx => ClassModel.mem_offer.2 (.inl hx)
  strings := rel_map _ fun _ _ hx => StringModel.mem_offer.2 (.inl hx)
  actions := fun _ hx => ActionModel.mem_offer.2 (.inl hx)
  kind := congrArg MockTable.kind (st.actions.made_offer call)

/-- Offering a call to the log forgets nothing. -/
private theorem retains_log (st : State) (call : Invoke) :
    st.Retains { st with log := st.log.map fun m => (m.offer call).2 } where
  log := rel_map _ fun m => m.retains_offer call
  classes := fun _ => id
  strings := rel_refl _ fun _ _ => id
  actions := fun _ => id
  kind := rfl

/-- An offer retains all models. -/
theorem retains_offer (st : State) (call : Invoke) : st.Retains (st.offer call) := by
  rw [offer_eq]
  dsimp only
  split
  · exact st.retains_log call
  · exact (st.retains_log call).trans (retains_offerModels _ call)

/-- Once a call was offered, the models look at it. -/
theorem watches_offer (st : State) (call : Invoke) : (st.offer call).Watches call := by
  have hlog : ∀ m ∈ st.log.map fun m => (m.offer call).2, ∀ claim ∈ m.asked call,
      claim ∈ m.claims := by
    intro m' hm' claim hclaim
    obtain ⟨m, _, rfl⟩ := Option.map_eq_some_iff.1 hm'
    rw [(m.retains_offer call).asked_eq] at hclaim
    rw [LogModel.offer_eq]
    exact List.mem_append_right _ hclaim
  have hcovers := (st.retains_offer call).covers_eq call
  rw [offer_eq] at hcovers ⊢
  dsimp only at hcovers ⊢
  split at hcovers
  · rename_i hc
    rw [if_pos hc]
    rw [hc] at hcovers
    exact ⟨hlog, by simp [hcovers], by simp [hcovers], by simp [hcovers]⟩
  · rename_i hc
    rw [if_neg hc]
    refine ⟨hlog, fun _ x hx => ClassModel.mem_offer.2 (.inr hx), fun _ m' hm' x hx => ?_,
      fun _ x hx => ActionModel.mem_offer.2 (.inr hx)⟩
    obtain ⟨m, _, rfl⟩ := Option.map_eq_some_iff.1 hm'
    exact StringModel.mem_offer.2 (.inr hx)

/-- Offering several calls forgets nothing, and the models look at each from then on. -/
theorem retains_offerAll (st : State) (calls : List Invoke) :
    st.Retains (calls.foldl State.offer st) ∧
      ∀ call ∈ calls, (calls.foldl State.offer st).Watches call := by
  induction calls generalizing st with
  | nil => exact ⟨.refl st, by simp⟩
  | cons call calls ih =>
      obtain ⟨hrest, hall⟩ := ih (st.offer call)
      refine ⟨(st.retains_offer call).trans hrest, ?_⟩
      intro call' hcall
      rcases List.mem_cons.1 hcall with rfl | hcall
      · exact (st.watches_offer _).of_retains hrest
      · exact hall call' hcall

end State

/-! ## Reactions -/

/-- No reaction forgets anything. -/
theorem retains_of_react (h : (react env e st).run env s = .ok q t) : st.Retains q := by
  cases e with
  | start | finish | unresolved =>
      obtain ⟨rfl, _⟩ := pure_eq_ok.1 h
      exact .refl _
  | method m =>
      obtain ⟨rfl, _⟩ := pure_eq_ok.1 h
      exact (st.retains_offerAll _).1
  | methodIn m =>
      cases hlog : st.log with
      | none =>
          simp only [react, hlog] at h
          obtain ⟨rfl, _⟩ := pure_eq_ok.1 h
          exact .refl _
      | some log =>
          simp only [react, hlog, Service.bind_eq, Service.run_bind, bind_eq_ok] at h
          obtain ⟨log', u, hreached, h⟩ := h
          obtain ⟨rfl, _⟩ := pure_eq_ok.1 h
          refine ⟨?_, fun _ => id, rel_refl _ fun _ _ => id, fun _ => id, rfl⟩
          rw [hlog]
          exact .some (LogModel.reached_kept hreached).1
  | grown v delta =>
      simp only [react, Service.bind_eq, Service.run_bind, bind_eq_ok] at h
      obtain ⟨st', u, hwake, hgrown⟩ := h
      exact ((wakeArguments_kept hwake).trans (grown_kept hgrown)).retains
  | edge e =>
      cases hk : e.kind with
      | reflective call =>
          simp only [react, hk, Service.bind_eq, Service.run_bind, bind_eq_ok] at h
          obtain ⟨st', u, hpass, _, w, _, h⟩ := h
          obtain ⟨rfl, _⟩ := pure_eq_ok.1 h
          exact (passArguments_kept hpass).retains
      | static | virtual | interface | special | lambda =>
          simp only [react, hk] at h
          obtain ⟨rfl, _⟩ := pure_eq_ok.1 h
          exact .refl _

/-- What the plugin knows once it was told of a method: the models look at its calls.  Once it was
told of the method under a context, it looks at the receivers of those that the log covers. -/
def State.Knows (p : Program) : Event → State → Prop
  | .method i, st => ∀ call ∈ p.invokesIn i, st.Watches call
  | .methodIn i, st => (∀ call ∈ p.invokesIn i.item, st.Watches call) ∧
      ∀ m ∈ st.log, ∀ call ∈ p.invokesIn i.item, ∀ claim ∈ m.asked call,
        claim.caller = i.item → m.Enlists p claim
  | _, _ => True

/-- The plugin knows what it knew as long as nothing is forgotten. -/
theorem State.Knows.of_retains (h : st.Knows p e) (hq : st.Retains q) : q.Knows p e := by
  cases e with
  | method i => exact fun call hcall => (h call hcall).of_retains hq
  | methodIn i =>
      refine ⟨fun call hcall => (h.1 call hcall).of_retains hq, ?_⟩
      intro m' hm' call hcall claim hclaim hcaller
      obtain ⟨m, hm, hretains⟩ := exists_of_rel hq.log hm'
      rw [hretains.asked_eq] at hclaim
      exact (h.2 m hm call hcall claim hclaim hcaller).of_retains hretains
  | start | finish | unresolved | edge | grown => trivial

/-- Once it was told of a method under a context, the plugin looks at the receivers of the calls
that the log covers. -/
theorem knows_of_methodIn {i : QMethod}
    (h : (react env (.methodIn i) st).run env s = .ok q t)
    (hst : st.Knows env.program (.method i.item)) : q.Knows env.program (.methodIn i) := by
  refine ⟨fun call hcall => (hst call hcall).of_retains (retains_of_react h), ?_⟩
  intro m' hm' call hcall claim hclaim hcaller
  cases hlog : st.log with
  | none =>
      simp only [react, hlog] at h
      obtain ⟨rfl, _⟩ := pure_eq_ok.1 h
      exact absurd (hlog.symm.trans hm') (by simp)
  | some log =>
      simp only [react, hlog, Service.bind_eq, Service.run_bind, bind_eq_ok] at h
      obtain ⟨log', u, hreached, h⟩ := h
      obtain ⟨rfl, _⟩ := pure_eq_ok.1 h
      obtain rfl := Option.some.inj hm'
      obtain ⟨hretains, _, henlists⟩ := LogModel.reached_kept hreached
      rw [hretains.asked_eq] at hclaim
      exact henlists claim ((hst call hcall).log log hlog claim hclaim) hcaller

/-- What a member for reflection keeps in mind that began with a given memory. -/
def memory (env : Setting) (st₀ : State) : Member.plugin.Memory env where
  Sane m := ∃ st, m = .reflection st ∧ st₀.Retains st
  Knows e m := ∃ st, m = .reflection st ∧ st.Knows env.program e
  sane := by
    rintro s t _ m e ⟨st, rfl, hst⟩ h
    obtain ⟨q, rfl, hq⟩ := Member.react_reflection.1 h
    exact ⟨q, rfl, hst.trans (retains_of_react hq)⟩
  keeps := by
    rintro s t _ m e e' _ ⟨st, rfl, hst⟩ h
    obtain ⟨q, rfl, hq⟩ := Member.react_reflection.1 h
    exact ⟨q, rfl, hst.of_retains (retains_of_react hq)⟩
  method := by
    rintro s t _ m i ⟨st, rfl, _⟩ h
    obtain ⟨q, rfl, hq⟩ := Member.react_reflection.1 h
    obtain ⟨rfl, _⟩ := pure_eq_ok.1 hq
    exact ⟨_, rfl, (st.retains_offerAll _).2⟩
  methodIn := by
    rintro s t _ m i ⟨st, rfl, _⟩ ⟨_, ⟨⟩, hknows⟩ h
    obtain ⟨q, rfl, hq⟩ := Member.react_reflection.1 h
    exact ⟨q, rfl, knows_of_methodIn hq hknows⟩

/-- A member that knows of some methods is one for reflection that does. -/
theorem covers_memory {st₀ : State} {A : MethodId → Prop} {B : QMethod → Prop} {m : Member}
    (h : (memory env st₀).Covers A B m) :
    ∃ st, m = .reflection st ∧ st₀.Retains st ∧
      (∀ {i}, A i → st.Knows env.program (.method i)) ∧
      ∀ {i}, B i → st.Knows env.program (.methodIn i) := by
  obtain ⟨st, rfl, hst⟩ := h.sane
  refine ⟨st, rfl, hst, fun hi => ?_, fun hi => ?_⟩
  · obtain ⟨_, ⟨⟩, hknows⟩ := h.method hi
    exact hknows
  · obtain ⟨_, ⟨⟩, hknows⟩ := h.methodIn hi
    exact hknows

/-- A member that knows of some methods and is told that a variable refers to more does what it
looks at the variable for. -/
theorem attends_of_covers {st₀ : State} {A : MethodId → Prop} {B : QMethod → Prop}
    {x x' : Member} {v : QVar} {delta : ObjSet} (h : (memory env st₀).Covers A B x)
    (hp : env.program.Numbered) (hg : s.Grounded) (hx : x.Sound env.program s.settled)
    (hholds : (Event.grown v delta).Holds env s)
    (hr : (Member.plugin.react env (.grown v delta) x).run env s = .ok x' t) :
    ∃ st, st₀.Retains st ∧ (∀ {i}, B i → st.Knows env.program (.methodIn i)) ∧
      st.Attends env t.expected s.pointsTo v delta := by
  obtain ⟨st, rfl, hretains, _, hknows⟩ := covers_memory h
  obtain ⟨q, rfl, hreact⟩ := Member.react_reflection.1 hr
  exact ⟨st, hretains, hknows, (react_grown_ok hreact hp hg hx hholds).2.2⟩

/-! ## Analyses -/

/-- Where reflection is analysed, one of the members is the plugin for it. -/
theorem mem_members {a : Analysis} {files : Files} {members : List Member}
    (hon : a.options.reflection = true) (hnew : State.new a.options p files = .ok st)
    (h : a.members p files = .ok members) : .reflection st ∈ members :=
  (Analysis.mem_members h).2 (.inr (.inl ⟨hon, st, hnew, rfl⟩))

/-- A run that analyses reflection has a plugin for it. -/
theorem exists_of_runFrom {a : Analysis} {files : Files} {steps : Nat} {entries : List MethodId}
    {result : Result} (hon : a.options.reflection = true)
    (hrun : a.runFrom steps p files entries = .finished result) :
    ∃ st, State.new a.options p files = .ok st := by
  obtain ⟨members, _, hmembers, _, _⟩ := Analysis.solve_of_runFrom hrun
  cases hnew : State.new a.options p files with
  | ok st => exact ⟨st, rfl⟩
  | error e =>
      unfold Analysis.members at hmembers
      simp only [hon, if_true, hnew] at hmembers
      cases hmembers

/-- In a fixpoint of an analysis of reflection for a tidy program, all is done that the plugin
has to do. -/
theorem fulfilled_of_runFrom {a : Analysis} {α : Type} (ds : List Declaration)
    (hbuild : (Builder.ofList ds).build = .ok p) (htidy : p.Tidy)
    (hextra : ∀ m ∈ a.extra, m.Sound p ({} : Solver).settled)
    (hon : a.options.reflection = true) {files : Files}
    (hnew : State.new a.options p files = .ok st) {steps : Nat} {entries : List MethodId}
    {result : Result} (hrun : a.runFrom steps p files entries = .finished result)
    (d : Plugin.Duty (memory (a.setting p) st) (fun k m => m.Sound p k) α)
    (hgiven : ∀ {calls points}, (∀ {v o}, o ∈ points.get (.var v) → ¬ p.IsReceiver v.item →
      p.home v ∈ calls.reachableIn) → d.Given calls points)
    (hsince : ∀ i ∈ d.since, i ∈ result.solver.calls.reachableIn) {x : α}
    (hx : d.Wants result.solver.pointsTo x) : d.Done result.solver.settled x := by
  obtain ⟨members, m, hmembers, hsolve, rfl⟩ := Analysis.solve_of_runFrom hrun
  have hb : (a.setting p).program.Built :=
    Program.built_of_build (Builder.numbered_ofList ds) hbuild
  have hhoused : (a.setting p).program.Housed :=
    Program.housed_of_build (Builder.housed_ofList ds) hbuild
  have hsound : ∀ x ∈ members, x.Sound p ({} : Solver).settled :=
    Analysis.sound_members hmembers hextra
  obtain ⟨k, hk⟩ := List.mem_iff_getElem?.1 (mem_members hon hnew hmembers)
  obtain ⟨hvisit, hq⟩ := Machine.visits_of_solve hsolve
  have hsane : (memory (a.setting p) st).Sane (.reflection st) := ⟨st, rfl, .refl st⟩
  have hfulfils : Machine.Fulfils d m :=
    Machine.fulfilled_of_visits (Member.honest hb) hsound hk hsane
      (fun hstage => hgiven (reached_of_points hb hhoused htidy (Member.honest hb) hsound hstage))
      hvisit
  rw [← Solver.expected_eq_settled hq]
  exact hfulfils hsince x hx

end Reflection

end PointsTo
