import PointsTo.Proofs.CoreRules
import PointsTo.Solver.Machine

/-!
# What happens while a fact is worked in

While one fact is worked in, two kinds of things happen by turns: the rules of the
analysis add something, and a plugin reacts to an event.  This file reads the
operations of the machine as sequences of such acts and says which events are told on
the way.

Main results:

- {lit}`Event.Holds`: what is the case when plugins are told of an event.
- {lit}`Machine.Acts`: sequences of acts, with {lit}`Machine.Acts.keeps_at` for what a
  single plugin knows.
- Theorem {lit}`Machine.reaction_of_tell`: an event that is told reaches every plugin.
- {lit}`Machine.Grew`, {lit}`Machine.Entered`: all that follows from a variable referring to
  more, and from a method being reachable.
-/

namespace PointsTo

/-! ## Events -/

/-- A call on an object has no target among the methods of its class. -/
def Unresolved (p : Program) (heap : Heap) (site : InvokeId) (o : QObj) : Prop :=
  ∀ callee kind, receiverTarget? p heap (p.invoke site) o = some callee →
    CallKind.ofInvoke? (p.invoke site).kind ≠ some kind

/-- A call that has no target on an object had none before. -/
theorem Unresolved.of_grows {p : Program} {heap heap' : Heap} {site : InvokeId} {o : QObj}
    (h : Unresolved p heap' site o) (ho : heap.Has o.item) (hg : heap.Grows heap') :
    Unresolved p heap site o := by
  intro callee kind hcallee
  rw [← View.receiverTarget?_of_grows _ ho hg] at hcallee
  exact h callee kind hcallee

/-- What is the case when plugins are told of an event. -/
def Event.Holds (env : Setting) (s : Solver) : Event → Prop
  | .start | .finish => True
  | .method m => m ∈ s.calls.reachable
  | .methodIn m => m ∈ s.calls.reachableIn ∧ s.contexts.Has m.context
  | .unresolved o context site =>
      (∃ v : QVar, v.context = context ∧ o ∈ s.pointsTo.get (.var v) ∧
        site ∈ (env.program.var v.item).uses.invokes) ∧
      s.contexts.Has context ∧ s.settled.HasObj o ∧ Unresolved env.program s.heap site o
  | .edge e => e ∈ s.calls.edges
  | .grown v delta => s.contexts.Has v.context ∧ (∀ o ∈ delta, o ∈ s.pointsTo.get (.var v)) ∧
      ∃ o, o ∈ delta

/-- What was the case stays the case while facts accrete. -/
theorem Event.Holds.mono {env : Setting} {e : Event} {s t : Solver} (h : e.Holds env s)
    (hst : s.Accretes t) : e.Holds env t := by
  cases e with
  | start | finish => trivial
  | method m => exact hst.extends.reachable h
  | methodIn m => exact ⟨hst.extends.reachableIn h.1, h.2.of_grows hst.contexts⟩
  | unresolved o context site =>
      obtain ⟨⟨v, hv, hpoints, huse⟩, hc, ho, hnone⟩ := h
      refine ⟨⟨v, hv, by rw [hst.pointsTo]; exact hpoints, huse⟩, hc.of_grows hst.contexts,
        ho.mono hst.extends.settled, ?_⟩
      intro callee kind hcallee
      rw [View.receiverTarget?_of_grows _ ho.2 hst.heap] at hcallee
      exact hnone callee kind hcallee
  | edge e => exact hst.extends.settled.call h
  | grown v delta =>
      refine ⟨h.1.of_grows hst.contexts, ?_, h.2.2⟩
      intro o ho
      rw [hst.pointsTo]
      exact h.2.1 o ho

namespace Machine

variable {σ : Type} {P : Plugin σ} {env : Setting} {m n u : Machine σ}

/-! ## Acts -/

/-- One thing that happens: the rules add something, or a plugin reacts. -/
inductive Act (P : Plugin σ) (env : Setting) : Machine σ → Machine σ → Prop
  | rule {s t ps} (h : s.Evolves env.program (CoreRule env) t) : Act P env ⟨s, ps⟩ ⟨t, ps⟩
  | react {s t pre p q post e} (he : e.Holds env s)
      (h : (P.react env e p).run env s = .ok q t) :
      Act P env ⟨s, pre ++ p :: post⟩ ⟨t, pre ++ q :: post⟩

/-- A sequence of acts. -/
def Acts (P : Plugin σ) (env : Setting) : Machine σ → Machine σ → Prop :=
  Relation.ReflTransGen (Act P env)

/-- A machine that does nothing acts. -/
@[refl] theorem Acts.refl (m : Machine σ) : Acts P env m m := Relation.ReflTransGen.refl

/-- Machines act one step after the other. -/
theorem Acts.trans (h : Acts P env m n) (k : Acts P env n u) : Acts P env m u :=
  Relation.ReflTransGen.trans h k

/-- One step is acting. -/
theorem Act.acts (h : Act P env m n) : Acts P env m n := Relation.ReflTransGen.single h

/-- By a step a state accretes. -/
theorem Act.accretes (h : Act P env m n) : m.solver.Accretes n.solver := by
  cases h with
  | rule h => exact h.accretes
  | react _ h => exact (Service.evolves h).accretes

/-- So it does while a machine acts. -/
theorem Acts.accretes (h : Acts P env m n) : m.solver.Accretes n.solver := by
  induction h with
  | refl => exact .refl _
  | tail _ hstep ih => exact ih.trans hstep.accretes

/-- What a state and the state of one plugin have in common is kept by all acts, if
additions keep it and the plugin keeps it in its own reactions. -/
theorem Acts.keeps_at {J : Solver → σ → Prop} {k : Nat} {p : σ}
    (hstable : ∀ {s t p}, J s p → s.Accretes t → J t p)
    (hreact : ∀ {s t p q e}, J s p → e.Holds env s →
      (P.react env e p).run env s = .ok q t → J t q)
    (h : Acts P env m n) (hk : m.plugins[k]? = some p) (hJ : J m.solver p) :
    ∃ q, n.plugins[k]? = some q ∧ J n.solver q := by
  induction h with
  | refl => exact ⟨p, hk, hJ⟩
  | tail _ hstep ih =>
      obtain ⟨q, hq, hJq⟩ := ih
      cases hstep with
      | rule h => exact ⟨q, hq, hstable hJq h.accretes⟩
      | @react s t pre p' q' post e he h =>
          dsimp only at hq hJq ⊢
          by_cases hlt : k < pre.length
          · rw [List.getElem?_append_left hlt] at hq ⊢
            exact ⟨q, hq, hstable hJq (Service.evolves h).accretes⟩
          · rw [List.getElem?_append_right (Nat.le_of_not_lt hlt)] at hq ⊢
            cases hd : k - pre.length with
            | zero =>
                rw [hd] at hq
                obtain rfl : p' = q := by simpa using hq
                exact ⟨q', rfl, hreact hJq he h⟩
            | succ d =>
                rw [hd] at hq
                exact ⟨q, hq, hstable hJq (Service.evolves h).accretes⟩

/-! ## Computations on the state alone -/

/-- A computation on the solver leaves the plugins as they are. -/
theorem onSolver_eq_ok {α : Type} {x : SolverM α} {a : α} :
    (onSolver x : MachineM σ α) m = .ok a n ↔
      ∃ t, x m.solver = .ok a t ∧ n = { m with solver := t } := by
  unfold onSolver
  cases x m.solver with
  | ok b s =>
      simp only [EStateM.Result.ok.injEq]
      constructor
      · rintro ⟨rfl, rfl⟩
        exact ⟨s, ⟨rfl, rfl⟩, rfl⟩
      · rintro ⟨t, ⟨rfl, rfl⟩, rfl⟩
        exact ⟨rfl, rfl⟩
  | error e s => simp

/-- So does a change of the solver. -/
theorem modifySolver_eq_ok {f : Solver → Solver} {x : PUnit} :
    (modifySolver f : MachineM σ Unit) m = .ok x n ↔ n = { m with solver := f m.solver } :=
  modify_eq_ok

/-! ## Telling events -/

/-- Telling an event to some plugins behind others is a sequence of acts. -/
theorem acts_of_plugin_tell {e : Event} (pre : List σ) {ps qs : List σ} {s t : Solver}
    (h : P.tell env e ps s = .ok ⟨⟩ (t, qs)) (he : e.Holds env s) :
    Acts P env ⟨s, pre ++ ps⟩ ⟨t, pre ++ qs⟩ := by
  induction ps generalizing pre s qs with
  | nil =>
      unfold Plugin.tell at h
      cases h
      exact .refl _
  | cons p ps ih =>
      unfold Plugin.tell at h
      split at h
      · cases h
      · rename_i q u hq
        split at h
        · cases h
        · rename_i v rs hrest
          cases h
          have hstep : Acts P env ⟨s, pre ++ p :: ps⟩ ⟨u, pre ++ q :: ps⟩ :=
            (Act.react he hq).acts
          have htail := ih (pre ++ [q]) hrest (he.mono (Service.evolves hq).accretes)
          simp only [List.append_assoc, List.singleton_append] at htail
          exact hstep.trans htail

/-- Telling an event is a sequence of acts. -/
theorem tell_acts {e : Event} (h : tell P env e m = .ok ⟨⟩ n) (he : e.Holds env m.solver) :
    Acts P env m n := by
  unfold tell at h
  split at h
  · rename_i s ps hps
    cases h
    exact acts_of_plugin_tell [] hps he
  · cases h

/-- A state accretes when plugins are told. -/
theorem accretes_of_plugin_tell {e : Event} {ps qs : List σ} {s t : Solver}
    (h : P.tell env e ps s = .ok ⟨⟩ (t, qs)) : s.Accretes t := by
  induction ps generalizing s qs with
  | nil =>
      unfold Plugin.tell at h
      cases h
      exact .refl _
  | cons p ps ih =>
      unfold Plugin.tell at h
      split at h
      · cases h
      · rename_i q u hq
        split at h
        · cases h
        · rename_i v rs hrest
          cases h
          exact (Service.evolves hq).accretes.trans (ih hrest)

/-- Each plugin that is told reacts, in a state that has accreted meanwhile. -/
theorem reaction_of_plugin_tell {e : Event} {ps qs : List σ} {s t : Solver}
    (h : P.tell env e ps s = .ok ⟨⟩ (t, qs)) {k : Nat} {p : σ} (hk : ps[k]? = some p) :
    ∃ s' q t', s.Accretes s' ∧ (P.react env e p).run env s' = .ok q t' ∧
      qs[k]? = some q ∧ t'.Accretes t := by
  induction ps generalizing s qs k with
  | nil => simp at hk
  | cons p' ps ih =>
      unfold Plugin.tell at h
      split at h
      · cases h
      · rename_i q u hq
        split at h
        · cases h
        · rename_i v rs hrest
          cases h
          cases k with
          | zero =>
              obtain rfl : p' = p := by simpa using hk
              exact ⟨s, q, u, .refl s, hq, rfl, accretes_of_plugin_tell hrest⟩
          | succ k =>
              obtain ⟨s', q', t', hs, hr, hqs, ht⟩ := ih hrest (by simpa using hk)
              exact ⟨s', q', t', (Service.evolves hq).accretes.trans hs, hr, by simpa using hqs, ht⟩

/-- An event that is told reaches every plugin: each reacts once, from a state that
the first one has accreted into, and the last one has accreted what it leaves. -/
theorem reaction_of_tell {e : Event} (h : tell P env e m = .ok ⟨⟩ n) {k : Nat} {p : σ}
    (hk : m.plugins[k]? = some p) :
    ∃ s q t, m.solver.Accretes s ∧ (P.react env e p).run env s = .ok q t ∧
      n.plugins[k]? = some q ∧ t.Accretes n.solver := by
  unfold tell at h
  split at h
  · rename_i s ps hps
    cases h
    exact reaction_of_plugin_tell hps hk
  · cases h

/-! ## Calls on objects -/

/-- What a call site asks for on an object happens; a call without a target is told
to the plugins. -/
theorem callOn_ok {v : QVar} {site : InvokeId} {o : QObj}
    (h : callOn P env v.context site o m = .ok ⟨⟩ n)
    (hpoints : o ∈ m.solver.pointsTo.get (.var v))
    (huse : site ∈ (env.program.var v.item).uses.invokes)
    (hv : m.solver.contexts.Has v.context) (ho : m.solver.settled.HasObj o) :
    Acts P env m n ∧ n.solver.expected.Called env v.context site o ∧
      (Unresolved env.program m.solver.heap site o →
        tell P env (.unresolved o v.context site) m = .ok ⟨⟩ n) := by
  simp only [callOn, bind_eq_ok, onSolver_eq_ok] at h
  obtain ⟨resolved, _, ⟨t, hd, rfl⟩, h⟩ := h
  have hevolves := SolverM.evolves_dispatch hd hpoints huse hv ho
  have hcalled := SolverM.called_of_dispatch hd hv ho
  have hrule : Acts P env m { m with solver := t } := (Act.rule hevolves).acts
  rcases SolverM.dispatch_ok hd with ⟨callee, kind, rfl, hcallee, hkind, _⟩ | ⟨rfl, rfl, hnone⟩
  · rw [if_pos rfl, pure_eq_ok] at h
    obtain ⟨_, rfl⟩ := h
    exact ⟨hrule, hcalled, fun hun => absurd hkind (hun callee kind hcallee)⟩
  · rw [if_neg Bool.false_ne_true] at h
    have hholds : (Event.unresolved o v.context site).Holds env m.solver :=
      ⟨⟨v, rfl, hpoints, huse⟩, hv, ho, hnone⟩
    have htell := tell_acts h hholds
    exact ⟨htell, hcalled.mono hv (ho.mono (Solver.settled_le_expected _))
      htell.accretes.extends.expected, fun _ => h⟩

end Machine

end PointsTo
