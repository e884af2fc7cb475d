import PointsTo.Proofs.ActionClosure
import PointsTo.Proofs.ArgumentArrays

/-!
# No argument array is missed

An argument array may reach its variable before or after the edge of a call that passes it, and
variables and methods are shared between calls.  The plugin for reflection therefore remembers which
methods wait on which variables, and which arrays were forwarded to which methods.  This file shows
that nothing is lost by what it passes over, and says for a finished run which flow from arrays to
parameters there is.

Main results:

- {lit}`Reflection.Forwards`: what the plugin has done for the edges and the objects that it was
  told of; theorems {lit}`Reflection.Forwards.of_react_edge`,
  {lit}`Reflection.Forwards.of_react_grown`: what it does for new ones.
- {lit}`Reflection.Served`: the invariant between the rounds of the main loop; theorem
  {lit}`Reflection.served_of_visits`.
- Theorem {lit}`Analysis.forwarded_of_runFrom`: in a finished run elements of arrays are passed to
  parameters for reflective edges, for all of them and for nothing else.
-/

namespace PointsTo

namespace Reflection

variable {env : Setting} {s t : Solver} {st q : State} {told : CallEdge → Prop}
  {seen : QVar → QObj → Prop}

/-! ## Arrays that are forwarded -/

/-- The elements of an array flow to the parameters of a method. -/
def Flowing (p : Program) (s : Solver) (x : QObj × QMethod) : Prop :=
  ∀ f ∈ arrayEdges (p.method x.2.item) x.1 x.2.context, f ∈ s.flow.edges

/-- Forwarded elements go on flowing. -/
theorem Flowing.mono {p : Program} {x : QObj × QMethod} (h : Flowing p s x)
    (hst : s.settled.Le t.settled) : Flowing p t x :=
  fun f hf => hst.flow (h f hf)

/-- One object is looked at: if it is an array, it is forwarded now or was before. -/
private theorem forward_ok {b c : OrderedSet (QObj × QMethod)} {o : QObj} {callee : QMethod}
    (h : (do
      let obj ← Service.obj o.item
      if obj.type.isArray = true ∧ ¬ (o, callee) ∈ b then
        Service.addFlows (arrayEdges (env.program.method callee.item) o callee.context)
        return b.insert (o, callee)
      else return b : Service (OrderedSet (QObj × QMethod))).run env s = .ok c t)
    (hb : ∀ x ∈ b, Flowing env.program s x) :
    (s.Accretes t ∧ ∀ x ∈ c, Flowing env.program t x) ∧
      ((s.heap.typeOf o.item).isArray = true → Flowing env.program t (o, callee)) := by
  have hacc := (Service.evolves h).accretes
  simp only [Service.bind_eq, Service.run_bind, bind_eq_ok, Service.obj_eq_ok] at h
  obtain ⟨_, _, ⟨rfl, rfl⟩, h⟩ := h
  split at h
  · simp only [Service.run_bind, bind_eq_ok] at h
    obtain ⟨_, u, hflows, h⟩ := h
    obtain ⟨rfl, rfl⟩ := pure_eq_ok.1 h
    have hnew : Flowing env.program u (o, callee) :=
      fun f hf => (Service.mem_flow_of_addFlows hflows).2 (.inr hf)
    refine ⟨⟨hacc, fun x hx => ?_⟩, fun _ => hnew⟩
    rcases OrderedSet.mem_insert.1 hx with rfl | hx
    · exact hnew
    · exact (hb x hx).mono hacc.extends.settled
  · rename_i hskip
    obtain ⟨rfl, rfl⟩ := pure_eq_ok.1 h
    exact ⟨⟨hacc, hb⟩, fun harray => hb _ (not_not.1 fun hnew => hskip ⟨harray, hnew⟩)⟩

/-- Each array among some objects is forwarded to a method, now or before. -/
theorem flowing_of_forwardArrays {forwarded forwarded' : OrderedSet (QObj × QMethod)}
    {objects : ObjSet} {callee : QMethod}
    (h : (forwardArrays env forwarded objects callee).run env s = .ok forwarded' t)
    (hforwarded : ∀ x ∈ forwarded, Flowing env.program s x)
    (hobjects : ∀ o ∈ objects, s.heap.Has o.item) :
    (∀ x ∈ forwarded', Flowing env.program t x) ∧
      ∀ o ∈ objects, (s.heap.typeOf o.item).isArray = true →
        Flowing env.program t (o, callee) := by
  unfold forwardArrays at h
  rw [Service.run_foldlM] at h
  obtain ⟨_, hall⟩ := foldlM_rel (R := Solver.Accretes) (J := fun b u => ∀ x ∈ b,
    Flowing env.program u x) .refl .trans h hforwarded fun _ _ _ _ _ _ _ hb hrun =>
      (forward_ok hrun hb).1
  refine ⟨hall, fun o ho harray => ?_⟩
  obtain ⟨b, c, u, v, hsu, hb, hrun, hvt⟩ := foldlM_steps (R := Solver.Accretes)
    (J := fun b u => ∀ x ∈ b, Flowing env.program u x) .refl .trans h hforwarded
    (fun _ _ _ _ _ _ _ hb hrun => (forward_ok hrun hb).1) o ho
  rw [← Heap.typeOf_of_grows (hobjects o ho) hsu.heap] at harray
  exact ((forward_ok hrun hb).2 harray).mono hvt.extends.settled

/-- The same for several methods. -/
theorem flowing_of_forwardAll {forwarded forwarded' : OrderedSet (QObj × QMethod)}
    {objects : ObjSet} {callees : List QMethod}
    (h : (callees.foldlM (fun forwarded callee => forwardArrays env forwarded objects callee)
      forwarded).run env s = .ok forwarded' t)
    (hforwarded : ∀ x ∈ forwarded, Flowing env.program s x)
    (hobjects : ∀ o ∈ objects, s.heap.Has o.item) :
    (∀ x ∈ forwarded', Flowing env.program t x) ∧
      ∀ callee ∈ callees, ∀ o ∈ objects, (s.heap.typeOf o.item).isArray = true →
        Flowing env.program t (o, callee) := by
  rw [Service.run_foldlM] at h
  have hobjects' : ∀ {u}, s.Accretes u → ∀ o ∈ objects, u.heap.Has o.item :=
    fun hsu o ho => (hobjects o ho).of_grows hsu.heap
  have hkept : ∀ {callee b c u v}, s.Accretes u → (∀ x ∈ b, Flowing env.program u x) →
      (forwardArrays env b objects callee).run env u = .ok c v →
      u.Accretes v ∧ ∀ x ∈ c, Flowing env.program v x := fun hsu hb hrun =>
    ⟨(Service.evolves hrun).accretes, (flowing_of_forwardArrays hrun hb (hobjects' hsu)).1⟩
  obtain ⟨_, hall⟩ := foldlM_rel (R := Solver.Accretes) (J := fun b u => ∀ x ∈ b,
    Flowing env.program u x) .refl .trans h hforwarded fun _ _ _ _ _ _ hsu hb hrun =>
      hkept hsu hb hrun
  refine ⟨hall, fun callee hcallee o ho harray => ?_⟩
  obtain ⟨b, c, u, v, hsu, hb, hrun, hvt⟩ := foldlM_steps (R := Solver.Accretes)
    (J := fun b u => ∀ x ∈ b, Flowing env.program u x) .refl .trans h hforwarded
    (fun _ _ _ _ _ _ hsu hb hrun => hkept hsu hb hrun) callee hcallee
  rw [← Heap.typeOf_of_grows (hobjects o ho) hsu.heap] at harray
  exact ((flowing_of_forwardArrays hrun hb (hobjects' hsu)).2 o ho harray).mono
    hvt.extends.settled

/-! ## What the plugin keeps up -/

/-- For the reflective edges that the plugin was {lit}`told` of it waits on the argument arrays, and
results flow; and the arrays that variables were {lit}`seen` to refer to are forwarded to all
methods that wait on them. -/
structure Forwards (env : Setting) (told : CallEdge → Prop) (seen : QVar → QObj → Prop) (s : Solver)
    (st : State) : Prop where
  grounded : s.Grounded
  points : ∀ v o, seen v o → o ∈ s.pointsTo.get (.var v)
  registered : ∀ e, told e → ∀ call args, e.kind = .reflective call → call.args = some args →
    (⟨e.site.context, args⟩, e.callee) ∈ st.argArrays.pairs
  results : ∀ e, told e → ∀ call, e.kind = .reflective call →
    ∀ f ∈ resultEdges env.program e, f ∈ s.flow.edges
  forwarded : ∀ x ∈ st.forwarded, Flowing env.program s x
  passed : ∀ v callee, (v, callee) ∈ st.argArrays.pairs → ∀ o, seen v o →
    (s.heap.typeOf o.item).isArray = true → Flowing env.program s (o, callee)

namespace Forwards

/-- What was kept up stays so while more is known. -/
theorem of_extends (h : Forwards env told seen s st) (hst : s.Extends t) (ht : t.Grounded) :
    Forwards env told seen t st where
  grounded := ht
  points := fun v o ho => hst.settled.points (h.points v o ho)
  registered := h.registered
  results := fun e he call hk f hf => hst.settled.flow (h.results e he call hk f hf)
  forwarded := fun x hx => (h.forwarded x hx).mono hst.settled
  passed := by
    intro v callee hmem o ho harray
    have hobj : s.heap.Has o.item := (h.grounded.points _ o (h.points v o ho)).2
    have hheap : s.heap.Grows t.heap := hst.settled.heap
    rw [Heap.typeOf_of_grows hobj hheap] at harray
    exact (h.passed v callee hmem o ho harray).mono hst.settled

/-- The plugin has forwarded its part also when facts accrete. -/
theorem of_accretes (h : Forwards env told seen s st) (hst : s.Accretes t) :
    Forwards env told seen t st :=
  h.of_extends hst.extends (h.grounded.of_accretes hst)

/-- What was forwarded does not depend on the models. -/
theorem of_same (h : Forwards env told seen s st) (hq : st.SameArguments q) :
    Forwards env told seen s q where
  grounded := h.grounded
  points := h.points
  registered := hq.argArrays ▸ h.registered
  results := h.results
  forwarded := hq.forwarded ▸ h.forwarded
  passed := hq.argArrays ▸ h.passed

/-- The arguments of a reflective edge are passed on, as far as they have been seen. -/
theorem of_passArguments {e : CallEdge} {call : ReflectiveCall} (h : Forwards env told seen s st)
    (hr : (passArguments env st e call).run env s = .ok q t) :
    Forwards env told seen t q ∧
      ∀ args, call.args = some args → (⟨e.site.context, args⟩, e.callee) ∈ q.argArrays.pairs := by
  have h' := h.of_accretes (Service.evolves hr).accretes
  unfold passArguments at hr
  split at hr
  · rename_i hnone
    obtain ⟨rfl, rfl⟩ := pure_eq_ok.1 hr
    exact ⟨h', fun args hargs => absurd (hnone.symm.trans hargs) (by simp)⟩
  · rename_i args hargs
    dsimp only at hr
    split at hr
    · rename_i hregistered
      obtain ⟨rfl, rfl⟩ := pure_eq_ok.1 hr
      refine ⟨h', fun args' hargs' => ?_⟩
      cases hargs.symm.trans hargs'
      exact of_decide_eq_true hregistered
    · simp only [Service.bind_eq, Service.run_bind, bind_eq_ok, Service.varPointsTo_eq_ok] at hr
      obtain ⟨_, _, ⟨rfl, rfl⟩, forwarded, u, hforward, hr⟩ := hr
      obtain ⟨rfl, rfl⟩ := pure_eq_ok.1 hr
      have hle := (Service.evolves hforward).accretes.heap
      obtain ⟨hall, hnew⟩ := flowing_of_forwardArrays hforward h.forwarded
        fun o ho => (h.grounded.points _ o ho).2
      refine ⟨⟨h'.grounded, h'.points, ?_, h'.results, hall, ?_⟩, ?_⟩
      · exact fun e' he' call' args' hk hargs' =>
          Waitlist.mem_register.2 (.inr (h.registered e' he' call' args' hk hargs'))
      · intro v callee hmem o ho harray
        rcases Waitlist.mem_register.1 hmem with heq | hmem
        · cases heq
          have hpoints := h.points _ o ho
          rw [Heap.typeOf_of_grows (h.grounded.points _ o hpoints).2 hle] at harray
          exact hnew o hpoints harray
        · exact h'.passed v callee hmem o ho harray
      · intro args' hargs'
        cases hargs.symm.trans hargs'
        exact Waitlist.mem_register.2 (.inl rfl)

/-- Arrays that a variable refers to are passed on to all that wait on it. -/
theorem of_wakeArguments {v : QVar} (h : Forwards env told seen s st)
    (hr : (wakeArguments env st v).run env s = .ok q t) :
    Forwards env told (fun v' o => seen v' o ∨ v' = v ∧ o ∈ s.pointsTo.get (.var v)) t q := by
  have hacc := (Service.evolves hr).accretes
  have h' := h.of_accretes hacc
  have hpoints : ∀ v' o, seen v' o ∨ v' = v ∧ o ∈ s.pointsTo.get (.var v) →
      o ∈ t.pointsTo.get (.var v') := by
    rintro v' o (ho | ⟨rfl, ho⟩)
    · exact h'.points v' o ho
    · rwa [hacc.pointsTo]
  unfold wakeArguments at hr
  split at hr
  · rename_i hnone
    obtain ⟨rfl, rfl⟩ := pure_eq_ok.1 hr
    refine ⟨h'.grounded, hpoints, h'.registered, h'.results, h'.forwarded, ?_⟩
    rintro v' callee hmem o (ho | ⟨rfl, ho⟩) harray
    · exact h'.passed v' callee hmem o ho harray
    · exact absurd (Waitlist.mem_get.2 hmem) (by simp [hnone])
  · simp only [Service.bind_eq, Service.run_bind, bind_eq_ok, Service.varPointsTo_eq_ok] at hr
    obtain ⟨_, _, ⟨rfl, rfl⟩, forwarded, u, hloop, hr⟩ := hr
    obtain ⟨rfl, rfl⟩ := pure_eq_ok.1 hr
    obtain ⟨hall, hnew⟩ := flowing_of_forwardAll hloop h.forwarded
      fun o ho => (h.grounded.points _ o ho).2
    refine ⟨h'.grounded, hpoints, h'.registered, h'.results, hall, ?_⟩
    rintro v' callee hmem o (ho | ⟨rfl, ho⟩) harray
    · exact h'.passed v' callee hmem o ho harray
    · rw [Heap.typeOf_of_grows (h.grounded.points _ o ho).2 hacc.heap] at harray
      exact hnew callee (Waitlist.mem_get.2 hmem) o ho harray

/-- What the models do does not concern arguments. -/
private theorem of_models {x : Service State} (h : Forwards env told seen s st)
    (hx : x.Asks (Request.Flowless CallKind.IsReflective) (fun _ _ => True) st.SameArguments)
    (hr : x.run env s = .ok q t) : Forwards env told seen t q := by
  have hsame := (hx.run_ok (I := fun _ => True) (fun _ _ _ => ⟨trivial, trivial⟩) trivial hr).2
  exact (h.of_accretes (Service.evolves hr).accretes).of_same hsame

/-- After it was told of an edge, the plugin does what is to be done for it. -/
theorem of_react_edge {e : CallEdge} (h : Forwards env told seen s st)
    (hr : (react env (.edge e) st).run env s = .ok q t) :
    Forwards env (fun e' => told e' ∨ e' = e) seen t q := by
  by_cases hreflective : ∃ call, e.kind = .reflective call
  · obtain ⟨call, hk⟩ := hreflective
    simp only [react, hk, Service.bind_eq, Service.run_bind, bind_eq_ok] at hr
    obtain ⟨st', u, hpass, _, w, hflows, hr⟩ := hr
    obtain ⟨rfl, rfl⟩ := pure_eq_ok.1 hr
    obtain ⟨hu, hargs⟩ := h.of_passArguments hpass
    have hw := hu.of_accretes (Service.evolves hflows).accretes
    refine ⟨hw.grounded, hw.points, ?_, ?_, hw.forwarded, hw.passed⟩
    · rintro e' (he' | rfl) call' args hk' hargs'
      · exact hw.registered e' he' call' args hk' hargs'
      · cases hk.symm.trans hk'
        exact hargs args hargs'
    · rintro e' (he' | rfl) call' hk' f hf
      · exact hw.results e' he' call' hk' f hf
      · exact (Service.mem_flow_of_addFlows hflows).2 (.inr hf)
  · have hnone : ∀ call, e.kind ≠ .reflective call := fun call hk => hreflective ⟨call, hk⟩
    have hsame : st = q ∧ s = t := by
      unfold react at hr
      dsimp only at hr
      split at hr
      · rename_i call hk
        exact absurd hk (hnone call)
      · exact pure_eq_ok.1 hr
    obtain ⟨rfl, rfl⟩ := hsame
    refine ⟨h.grounded, h.points, ?_, ?_, h.forwarded, h.passed⟩
    · rintro e' (he' | rfl) call args hk
      · exact h.registered e' he' call args hk
      · exact absurd hk (hnone call)
    · rintro e' (he' | rfl) call hk
      · exact h.results e' he' call hk
      · exact absurd hk (hnone call)

/-- After it was told of a variable that refers to more, the plugin has forwarded all arrays that
the variable refers to. -/
theorem of_react_grown {v : QVar} {delta : ObjSet} (h : Forwards env told seen s st)
    (hr : (react env (.grown v delta) st).run env s = .ok q t) :
    Forwards env told (fun v' o => seen v' o ∨ v' = v ∧ o ∈ s.pointsTo.get (.var v)) t q := by
  simp only [react, Service.bind_eq, Service.run_bind, bind_eq_ok] at hr
  obtain ⟨st', u, hwake, hgrown⟩ := hr
  exact (h.of_wakeArguments hwake).of_models (flowless_grown st') hgrown

/-- What was kept up for more is kept up for less. -/
theorem mono {told' : CallEdge → Prop} {seen' : QVar → QObj → Prop}
    (h : Forwards env told seen s st) (htold : ∀ e, told' e → told e)
    (hseen : ∀ v o, seen' v o → seen v o) : Forwards env told' seen' s st where
  grounded := h.grounded
  points := fun v o ho => h.points v o (hseen v o ho)
  registered := fun e he => h.registered e (htold e he)
  results := fun e he => h.results e (htold e he)
  forwarded := h.forwarded
  passed := fun v callee hmem o ho => h.passed v callee hmem o (hseen v o ho)

/-- Every reaction keeps up what was kept up. -/
theorem of_react {e : Event} (h : Forwards env told seen s st)
    (hr : (react env e st).run env s = .ok q t) : Forwards env told seen t q := by
  cases e with
  | start | finish | unresolved =>
      obtain ⟨rfl, rfl⟩ := pure_eq_ok.1 hr
      exact h
  | method i =>
      obtain ⟨rfl, rfl⟩ := pure_eq_ok.1 hr
      exact h.of_same (st.sameArguments_offerAll _)
  | methodIn i =>
      refine h.of_models ?_ hr
      unfold react
      dsimp only
      split
      · exact ⟨rfl, rfl⟩
      · exact Service.Asks.bind (flowless_reached _ i) fun _ _ => ⟨rfl, rfl⟩
  | edge e => exact (h.of_react_edge hr).mono (fun _ => .inl) fun _ _ => id
  | grown v delta => exact (h.of_react_grown hr).mono (fun _ => id) fun _ _ => .inl

end Forwards

/-! ## The plugin among others -/

/-- Plugin number {lit}`k` is one for reflection, and keeps up what it was told so far. -/
def Serves (env : Setting) (k : Nat) (told : CallEdge → Prop) (seen : QVar → QObj → Prop)
    (m : Machine Member) : Prop :=
  ∃ st, m.plugins[k]? = some (.reflection st) ∧ Forwards env told seen m.solver st

namespace Serves

variable {k : Nat} {m n : Machine Member}

/-- The plugin goes on serving while a machine acts. -/
theorem of_acts (h : Serves env k told seen m) (ha : Machine.Acts Member.plugin env m n) :
    Serves env k told seen n := by
  obtain ⟨st, hk, hst⟩ := h
  obtain ⟨p, hp, q, rfl, hq⟩ := ha.keeps_at
    (J := fun s p => ∃ st, p = .reflection st ∧ Forwards env told seen s st) (by
      rintro s t _ ⟨st, rfl, hst⟩ hacc
      exact ⟨st, rfl, hst.of_accretes hacc⟩) (by
      rintro s t _ q e ⟨st, rfl, hst⟩ _ hr
      obtain ⟨q, rfl, hq⟩ := Member.react_reflection.1 hr
      exact ⟨q, rfl, hst.of_react hq⟩) hk ⟨st, rfl, hst⟩
  exact ⟨q, hp, hq⟩

/-- What was kept up stays so while more is known. -/
theorem of_extends (h : Serves env k told seen m) (hst : m.solver.Extends n.solver)
    (hplugins : n.plugins = m.plugins) (hn : n.solver.Grounded) : Serves env k told seen n := by
  obtain ⟨st, hk, hst'⟩ := h
  exact ⟨st, hplugins ▸ hk, hst'.of_extends hst hn⟩

/-- A plugin that serves more serves less. -/
theorem mono {told' : CallEdge → Prop} {seen' : QVar → QObj → Prop} (h : Serves env k told seen m)
    (htold : ∀ e, told' e → told e) (hseen : ∀ v o, seen' v o → seen v o) :
    Serves env k told' seen' m := by
  obtain ⟨st, hk, hst⟩ := h
  exact ⟨st, hk, hst.mono htold hseen⟩

/-- What a reaction to an event achieves, the telling of the event does. -/
private theorem of_tell {told' : CallEdge → Prop} {seen' : QVar → QObj → Prop} {e : Event}
    (h : Serves env k told seen m) (htell : Machine.tell Member.plugin env e m = .ok ⟨⟩ n)
    (hreact : ∀ {s t st q}, m.solver.Accretes s → Forwards env told seen s st →
      (react env e st).run env s = .ok q t → Forwards env told' seen' t q) :
    Serves env k told' seen' n := by
  obtain ⟨st, hk, hst⟩ := h
  obtain ⟨s, p, t, hms, hr, hp, htn⟩ := Machine.reaction_of_tell htell hk
  obtain ⟨q, rfl, hq⟩ := Member.react_reflection.1 hr
  exact ⟨q, hp, (hreact hms (hst.of_accretes hms) hq).of_accretes htn⟩

/-- The plugin serves an edge when it is told of it. -/
theorem of_tell_edge {e : CallEdge} (h : Serves env k told seen m)
    (htell : Machine.tell Member.plugin env (.edge e) m = .ok ⟨⟩ n) :
    Serves env k (fun e' => told e' ∨ e' = e) seen n :=
  h.of_tell htell fun _ hst hr => hst.of_react_edge hr

/-- It serves what a variable refers to when it is told that the variable refers to more. -/
theorem of_tell_grown {v : QVar} {delta : ObjSet} (h : Serves env k told seen m)
    (htell : Machine.tell Member.plugin env (.grown v delta) m = .ok ⟨⟩ n) :
    Serves env k told (fun v' o => seen v' o ∨ v' = v ∧ o ∈ m.solver.pointsTo.get (.var v)) n := by
  refine h.of_tell htell fun hms hst hr => ?_
  rw [← hms.pointsTo]
  exact hst.of_react_grown hr

end Serves

/-! ## Between the rounds -/

/-- The plugin has kept up with all edges and objects that have been worked in. -/
def Served (env : Setting) (k : Nat) (m : Machine Member) : Prop :=
  Serves env k (· ∈ m.solver.calls.edges) (fun v o => o ∈ m.solver.pointsTo.get (.var v)) m

namespace Served

variable {k : Nat} {m n : Machine Member}

/-- While edges and sets stay the same, nothing new has to be kept up with. -/
theorem of_serves (h : Serves env k (· ∈ m.solver.calls.edges)
      (fun v o => o ∈ m.solver.pointsTo.get (.var v)) n)
    (hedges : n.solver.calls.edges = m.solver.calls.edges)
    (hpoints : n.solver.pointsTo = m.solver.pointsTo) : Served env k n := by
  refine h.mono (fun e he => ?_) fun v o ho => ?_
  · rwa [hedges] at he
  · rwa [hpoints] at ho

/-- What is served stays served while a machine acts. -/
theorem of_acts (h : Served env k m) (ha : Machine.Acts Member.plugin env m n) :
    Served env k n :=
  of_serves (Serves.of_acts h ha) (by rw [ha.accretes.calls]) ha.accretes.pointsTo

/-- Entering a method brings no edge and no object. -/
theorem of_entered {i : QMethod} (h : Served env k m) (hi : m.solver.contexts.Has i.context)
    (hentered : Machine.Entered Member.plugin env i m n) : Served env k n := by
  obtain ⟨st, hk, hst⟩ := h
  have hfound : Serves env k (· ∈ m.solver.calls.edges)
      (fun v o => o ∈ m.solver.pointsTo.get (.var v)) (m.discover i) :=
    Serves.of_extends ⟨st, hk, hst⟩ (Solver.extends_discover m.solver i) rfl
      (hst.grounded.of_discover hi)
  have hdiscover : Served env k (m.discover i) :=
    of_serves hfound (by simp [Machine.discover]) rfl
  exact hdiscover.of_acts hentered.acts

/-- A fact that is taken from the queue is still to be kept up with. -/
theorem taken {w : WorkItem} {rest : List WorkItem} (h : Served env k m)
    (hq : m.solver.queue = w :: rest) (hw : w.Exists m.solver.settled) :
    Serves env k (· ∈ m.solver.calls.edges) (fun v o => o ∈ m.solver.pointsTo.get (.var v))
      (m.taken env w rest) := by
  have hgrounded : m.solver.Grounded := by
    obtain ⟨_, _, hst⟩ := h
    exact hst.grounded
  exact Serves.of_extends h (Solver.extends_take env.program hq) rfl
    (hgrounded.of_take (p := env.program) hq hw)

/-- Objects on their way to a pointer are worked in. -/
theorem of_grew {ptr : Pointer} {os : ObjSet} {rest : List WorkItem}
    (h : Served env k m) (hq : m.solver.queue = .pointsTo ptr os :: rest)
    (hw : (WorkItem.pointsTo ptr os).Exists m.solver.settled)
    (hacts : Machine.Acts Member.plugin env (m.taken env (.pointsTo ptr os) rest) n)
    (hgrew : ∀ v, ptr = .var v → ∀ o ∈ m.solver.delta ptr os,
      Machine.Grew Member.plugin env v (m.solver.delta ptr os)
        (m.taken env (.pointsTo ptr os) rest) n) :
    Served env k n := by
  have hedges : n.solver.calls.edges = m.solver.calls.edges := by
    rw [hacts.accretes.calls]
    simp only [Machine.taken, Solver.calls_take_pointsTo]
  have htaken := h.taken hq hw
  by_cases hnew : ∃ v o, ptr = .var v ∧ o ∈ m.solver.delta ptr os
  · obtain ⟨v, o, hptr, ho⟩ := hnew
    obtain ⟨u, hu, htell⟩ := (hgrew v hptr o ho).told
    have hpoints : u.solver.pointsTo = n.solver.pointsTo :=
      hu.accretes.pointsTo.trans hacts.accretes.pointsTo.symm
    refine ((htaken.of_acts hu).of_tell_grown htell).mono (fun e he => hedges ▸ he)
      fun v' o' ho' => ?_
    rcases (Machine.mem_pointsTo_of_taken hacts).1 ho' with hold | ⟨hptr', _⟩
    · exact .inl hold
    · obtain rfl : v = v' := Pointer.var.inj (hptr.symm.trans hptr')
      exact .inr ⟨rfl, hpoints ▸ ho'⟩
  · refine (htaken.of_acts hacts).mono (fun e he => hedges ▸ he) fun v o ho => ?_
    exact ((Machine.mem_pointsTo_of_taken hacts).1 ho).resolve_right
      fun hfound => hnew ⟨v, o, hfound⟩

/-- The plugin keeps up with every step of a run. -/
theorem invariant : Machine.Invariant Member.plugin env (Served env k) where
  acts := of_acts
  entered := of_entered
  pointsTo := of_grew
  known := fun h hq hw hknown =>
    of_serves (h.taken hq hw) (by simp only [Machine.taken, Solver.take, if_pos hknown])
      (Solver.pointsTo_take _ _ _ _)
  linked := by
    intro m n e rest h hq hw hnew hlinked
    have hacts : Machine.Acts Member.plugin env (m.taken env (.call e) rest) n := by
      rw [Machine.taken_call hnew]
      exact hlinked.acts
    have hpoints : n.solver.pointsTo = m.solver.pointsTo :=
      hacts.accretes.pointsTo.trans (Solver.pointsTo_take _ _ _ _)
    obtain ⟨u, hu, htell⟩ := hlinked.told
    have hdiscovered : m.taken env (.call e) rest = _ := Machine.taken_call hnew
    rw [← hdiscovered] at hu
    refine (((h.taken hq hw).of_acts hu).of_tell_edge htell).mono (fun e' he' => ?_)
      fun v o ho => hpoints ▸ ho
    rw [hacts.accretes.calls] at he'
    exact ((@Solver.mem_edges_take_call env.program m.solver rest e e').1 he').symm

end Served

/-- At every stage of a grounded run the plugin has kept up with all edges and objects that have
been worked in. -/
theorem served_of_visits {k : Nat} {members : List Member} {entries : List MethodId}
    {stage : Machine.Stage Member} (hk : members[k]? = some (.reflection st))
    (hst : st.argArrays = .empty) (hforwarded : st.forwarded = .empty)
    (h : Machine.Visits Member.plugin env entries (.new members) stage)
    (hg : Machine.Grounded Member.plugin env entries (.new members)) :
    Served env k stage.machine := by
  have hstart : Served env k (.new members) := by
    refine ⟨st, hk, Solver.Scoped.new.grounded, fun _ _ ho => ho, ?_, ?_, ?_, ?_⟩
    · exact fun _ he => absurd he (OrderedSet.not_mem_empty _)
    · exact fun _ he => absurd he (OrderedSet.not_mem_empty _)
    · rw [hforwarded]
      exact fun _ hx => absurd hx (OrderedSet.not_mem_empty _)
    · rw [hst]
      exact fun _ _ hmem => absurd hmem (Waitlist.not_mem_empty _)
  exact Served.invariant.visits hstart h hg

/-- At the start the plugin waits for no arguments. -/
theorem State.arguments_of_new {o : Options} {p : Program} {files : Files}
    (h : State.new o p files = .ok st) : st.argArrays = .empty ∧ st.forwarded = .empty := by
  rcases (State.eq_of_new h).2 with hst | hst <;> rw [hst] <;> exact ⟨rfl, rfl⟩

end Reflection

/-! ## Finished runs -/

/-- In a finished run of an analysis without added plugins, on any program and from any entry
methods, the plugin for reflection has kept up with all reflective edges, if there are any. -/
theorem Analysis.forwards_of_runFrom {a : Analysis} (hextra : a.extra = []) {p : Program}
    (hb : p.Built) {steps : Nat} {files : Reflection.Files} {entries : List MethodId}
    {result : Result} (hrun : a.runFrom steps p files entries = .finished result) {e : CallEdge}
    (he : e ∈ result.solver.calls.edges) (hk : e.kind.IsReflective) :
    ∃ st, Reflection.Forwards (a.setting p) (· ∈ result.solver.calls.edges)
      (fun v o => o ∈ result.solver.pointsTo.get (.var v)) result.solver st := by
  have hsound : ∀ m ∈ a.extra, m.Sound p ({} : Solver).settled := by simp [hextra]
  obtain ⟨members, m, hmembers, hsolve, rfl⟩ := Analysis.solve_of_runFrom hrun
  have hattains := attains_of_solve hb hmembers hsound hsolve
  have hon := reflection_of_attains hextra hattains (.inl he) hk
  obtain ⟨st, hnew⟩ := Reflection.exists_of_runFrom hon hrun
  obtain ⟨hargArrays, hforwarded⟩ := Reflection.State.arguments_of_new hnew
  obtain ⟨k, hmember⟩ := List.mem_iff_getElem?.1 (Reflection.mem_members hon hnew hmembers)
  obtain ⟨q, _, hq⟩ := Reflection.served_of_visits hmember hargArrays hforwarded
    (Machine.visits_of_solve hsolve).1 (Analysis.grounded hb hmembers hsound)
  exact ⟨q, hq⟩

/-- In a finished run of an analysis without added plugins, on any program and from any entry
methods: elements of arrays are passed to parameters for the reflective edges and the arrays that
their arguments come in, for all of them and for nothing else; no parameter that holds no reference
is among them; and where the method of a reflective edge returns references, they flow to the result
of the call. -/
theorem Analysis.forwarded_of_runFrom {a : Analysis} (hextra : a.extra = [])
    (ds : List Declaration) {p : Program} (hbuild : (Builder.ofList ds).build = .ok p)
    {steps : Nat} {files : Reflection.Files} {entries : List MethodId} {result : Result}
    (hrun : a.runFrom steps p files entries = .finished result) :
    (∀ f o, f.kind = .parameterPassing → f.source = .array o →
      (f ∈ result.solver.flow.edges ↔ Reflection.Spreads p result.solver f)) ∧
    (∀ f ∈ result.solver.flow.edges, ∀ o, f.kind = .parameterPassing → f.source = .array o →
      ∀ c m param type, (param, type) ∈ (p.method m).typedParams →
        f.target = varPointer c param → type.isReference = true) ∧
    ∀ e ∈ result.solver.calls.edges, ∀ call r, e.kind = .reflective call →
      (p.invoke e.site.item).result = some r → (p.method e.callee.item).ret.isReference = true →
        ∀ v ∈ (p.method e.callee.item).returnVars,
          ⟨varPointer e.callee.context v, varPointer e.site.context r, .ret, none⟩ ∈
            result.solver.flow.edges := by
  have hb := Program.built_of_build (Builder.numbered_ofList ds) hbuild
  have htyped := Program.paramsTyped_of_build (Builder.paramsTyped_ofList ds) hbuild
  obtain ⟨m, harises, hm⟩ := arises_of_runFrom hb (by simp [hextra]) hrun
  have hspread : ∀ f ∈ result.solver.flow.edges, f.Spread p result.solver :=
    hm ▸ spread_of_arises hextra harises
  refine ⟨fun f o hkind hsource => ⟨fun hf => hspread f hf hkind o hsource, ?_⟩, ?_, ?_⟩
  · rintro ⟨he, hk, hargs, ho, harray, hparam, href⟩
    obtain ⟨st, hst⟩ := forwards_of_runFrom hextra hb hrun he ⟨_, hk⟩
    refine hst.passed _ _ (hst.registered _ he _ _ hk hargs) _ ho harray _ ?_
    exact Reflection.mem_arrayEdges.2 ⟨_, _, hparam, href, rfl⟩
  · intro f hf o hkind hsource c m param type hparam htarget
    -- the variable is a parameter of one type only
    obtain ⟨_, _, _, _, _, hparam', href⟩ := hspread f hf hkind o hsource
    cases htarget
    rwa [← htyped.type_eq hparam, htyped.type_eq hparam']
  · intro e he call r hk hr hret v hv
    obtain ⟨st, hst⟩ := forwards_of_runFrom hextra hb hrun he ⟨call, hk⟩
    exact hst.results e he call hk _
      (Reflection.mem_resultEdges.2 ⟨hret, mem_returnEdges.2 ⟨r, v, hr, hv, rfl⟩⟩)

/-- A method that looks a method up by name, and invokes it with an array of arguments. -/
def Reflection.passingProgram : List Declaration :=
  [.cls (.plain "A"),
    .method ⟨"A", "m", [.cls "A", .primitive .int], .cls "A", false, false, true⟩,
    .stmt ⟨0⟩ (.ret (some ⟨1⟩)), .method ⟨"A", "main", [], .void, true, false, true⟩,
    .var ⟨1⟩ "c" .classClass, .var ⟨1⟩ "n" .string, .var ⟨1⟩ "f" Reflection.Api.methodClass,
    .var ⟨1⟩ "a" (.cls "A"), .var ⟨1⟩ "args" (.array Reflection.Api.object),
    .var ⟨1⟩ "r" Reflection.Api.object,
    .stmt ⟨1⟩ (.literal ⟨3⟩ (.cls (.cls "A"))), .stmt ⟨1⟩ (.literal ⟨4⟩ (.str "m")),
    .call ⟨1⟩ ⟨.virtual, Reflection.Api.ofClass "getDeclaredMethod"
      [.string, .array .classClass] Reflection.Api.methodClass, some ⟨3⟩, [⟨4⟩], some ⟨5⟩⟩,
    .stmt ⟨1⟩ (.new ⟨6⟩ (.cls "A")), .stmt ⟨1⟩ (.new ⟨7⟩ (.array Reflection.Api.object)),
    .call ⟨1⟩ ⟨.virtual, ⟨"java.lang.reflect.Method", "invoke",
      [Reflection.Api.object, .array Reflection.Api.object], Reflection.Api.object⟩, some ⟨5⟩,
      [⟨6⟩, ⟨7⟩], some ⟨8⟩⟩]

/-- The elements of the array flow to the first parameter of the method, but not to the second one,
which holds a number; and what the method returns flows to the result of the call. -/
theorem Analysis.forwarded_of_runFrom_passing :
    let a : Analysis := { options := Reflection.byName }
    let p := (settingOf Reflection.passingProgram a.options).program
    ∃ result, a.runFrom 20 p (fun _ => none) [⟨1⟩] = .finished result ∧
      ⟨.array ⟨emptyContext, ⟨3⟩⟩, varPointer ⟨1⟩ ⟨1⟩, .parameterPassing, some (.cls "A")⟩ ∈
        result.solver.flow.edges ∧
      (∀ o c filter, ⟨.array o, varPointer c ⟨2⟩, .parameterPassing, filter⟩ ∉
        result.solver.flow.edges) ∧
      ⟨varPointer ⟨1⟩ ⟨1⟩, varPointer emptyContext ⟨8⟩, .ret, none⟩ ∈
        result.solver.flow.edges := by
  intro a p
  let call : ReflectiveCall := { api := .methodInvoke, args := some ⟨7⟩ }
  let e : CallEdge := ⟨⟨emptyContext, ⟨1⟩⟩, ⟨⟨1⟩, ⟨0⟩⟩, .reflective call⟩
  have hfacts : (match a.runFrom 20 p (fun _ => none) [⟨1⟩] with
      | .finished result => decide (e ∈ result.solver.calls.edges ∧
          ⟨emptyContext, ⟨3⟩⟩ ∈ result.solver.pointsTo.get (varPointer emptyContext ⟨7⟩) ∧
          (result.solver.heap.typeOf ⟨3⟩).isArray = true)
      | _ => false) = true := by decide +kernel
  cases hrun : a.runFrom 20 p (fun _ => none) [⟨1⟩] with
  | failed | unfinished =>
      rw [hrun] at hfacts
      cases hfacts
  | finished result =>
      rw [hrun] at hfacts
      obtain ⟨he, harray, htype⟩ := of_decide_eq_true hfacts
      obtain ⟨hforwarded, hreferences, hreturned⟩ := Analysis.forwarded_of_runFrom rfl
        Reflection.passingProgram (Program.build_of_checks (by decide +kernel) (by decide +kernel))
        hrun
      refine ⟨result, rfl, (hforwarded _ _ rfl rfl).2 ?_, ?_, ?_⟩
      · exact .intro he rfl rfl harray htype (by decide +kernel) rfl
      · intro o c filter hf
        have hreference := hreferences _ hf o rfl rfl c ⟨0⟩ ⟨2⟩ (.primitive .int)
          (by decide +kernel) rfl
        exact absurd hreference (by decide)
      · exact hreturned e he call ⟨8⟩ rfl (by decide +kernel) (by decide +kernel) ⟨1⟩
          (by decide +kernel)

end PointsTo
