import PointsTo.Proofs.Questions
import PointsTo.Proofs.Runs

/-!
# The moments of a run

A run goes through many states between two stages: the rules add one thing after the other, and
a plugin that reacts has one request answered after the other.  This file follows a run through
all of them.  A moment is a machine, together with what is left of a conversation if a plugin is
in the middle of one; it comes after another one by a single addition or a single answer.

Moments allow for more than a run does, since they leave open in which order things happen.  What
is shown for all moments therefore holds in every state of a run.

Main results:

- {lit}`Machine.Occurs`: the moments of a run; {lit}`Machine.Arises`: the states at its moments.
- {lit}`Plugin.Upholds`: what every step keeps that leads to a given state, and theorem
  {lit}`Machine.Occurs.upholds`: it holds at all moments before that state.
- {lit}`Plugin.Sustains`: what every step keeps where plugins know things that stay true, and
  theorem {lit}`Machine.Occurs.sustains`: it holds at all moments.
-/

namespace PointsTo

namespace Machine

variable {σ : Type} {P : Plugin σ} {env : Setting} {entries : List MethodId} {start m n : Machine σ}

/-! ## Moments -/

/-- A plugin in the middle of a reaction. -/
structure Talk (σ : Type) where
  /-- The position of the plugin among the others. -/
  place : Nat
  /-- What is left of the conversation. -/
  rest : Service σ

/-- A machine in the course of a run. -/
structure Moment (σ : Type) where
  machine : Machine σ
  talk : Option (Talk σ)

/-- The moments of a run of a machine from entry methods. -/
inductive Occurs (P : Plugin σ) (env : Setting) (entries : List MethodId) (start : Machine σ) :
    Moment σ → Prop
  | start : Occurs P env entries start ⟨start, none⟩
  /-- An entry method is found to be reachable. -/
  | enter {m i} (h : Occurs P env entries start ⟨m, none⟩) (hi : i ∈ entries) :
      Occurs P env entries start ⟨m.discover ⟨emptyContext, i⟩, none⟩
  /-- The oldest fact is taken from the queue. -/
  | take {m w rest} (h : Occurs P env entries start ⟨m, none⟩) (hq : m.solver.queue = w :: rest) :
      Occurs P env entries start ⟨m.taken env w rest, none⟩
  /-- The rules of the analysis add something. -/
  | rule {m a t} (h : Occurs P env entries start ⟨m, none⟩) (ha : CoreRule env m.solver a)
      (hadd : m.solver.Adds env.program a t) :
      Occurs P env entries start ⟨{ m with solver := t }, none⟩
  /-- A plugin is told of an event. -/
  | hear {m e k p} (h : Occurs P env entries start ⟨m, none⟩) (he : e.Holds env m.solver)
      (hp : m.plugins[k]? = some p) :
      Occurs P env entries start ⟨m, some ⟨k, P.react env e p⟩⟩
  /-- What a plugin asks for is answered. -/
  | answer {m k r next a t} (h : Occurs P env entries start ⟨m, some ⟨k, .ask r next⟩⟩)
      (ha : r.answer env m.solver = .ok a t) :
      Occurs P env entries start ⟨{ m with solver := t }, some ⟨k, next a⟩⟩
  /-- A plugin comes out of a conversation. -/
  | settle {m k q} (h : Occurs P env entries start ⟨m, some ⟨k, .done q⟩⟩) :
      Occurs P env entries start ⟨{ m with plugins := m.plugins.set k q }, none⟩

/-- The state of a run at one of its moments. -/
def Arises (P : Plugin σ) (env : Setting) (entries : List MethodId) (start m : Machine σ) : Prop :=
  ∃ talk, Occurs P env entries start ⟨m, talk⟩

/-- Tables only grow in the course of a run, and nothing becomes unreachable. -/
theorem Occurs.extends {x : Moment σ} (h : Occurs P env entries start x) :
    start.solver.Extends x.machine.solver := by
  induction h with
  | start => exact .refl _
  | enter _ _ ih => exact ih.trans (Solver.extends_discover _ _)
  | take _ hq ih => exact ih.trans (Solver.extends_take env.program hq)
  | rule _ _ hadd ih => exact ih.trans hadd.accretes.extends
  | hear _ _ _ ih => exact ih
  | answer _ ha ih => exact ih.trans (Request.evolves ha).accretes.extends
  | settle _ ih => exact ih

namespace Occurs

/-! ## What happens by several steps -/

/-- Additions by the rules, one after the other. -/
theorem evolves (h : Occurs P env entries start ⟨m, none⟩) {t : Solver}
    (he : m.solver.Evolves env.program (CoreRule env) t) :
    Occurs P env entries start ⟨{ m with solver := t }, none⟩ := by
  induction he with
  | refl => exact h
  | tail _ hstep ih =>
      obtain ⟨a, ha, hadd⟩ := hstep
      exact ih.rule ha hadd

/-- A conversation that comes to its end. -/
theorem run_ok {k : Nat} {x : Service σ} (h : Occurs P env entries start ⟨m, some ⟨k, x⟩⟩)
    {q : σ} {t : Solver} (hrun : x.run env m.solver = .ok q t) :
    Occurs P env entries start ⟨⟨t, m.plugins.set k q⟩, none⟩ := by
  induction x generalizing m with
  | done a =>
      obtain ⟨rfl, rfl⟩ := pure_eq_ok.1 hrun
      exact h.settle
  | fail e => exact (throw_eq_ok.1 hrun).elim
  | ask r next ih =>
      obtain ⟨a, u, ha, hnext⟩ := bind_eq_ok.1 hrun
      exact ih a (m := { m with solver := u }) (h.answer ha) hnext

/-- Acts are sequences of steps. -/
theorem acts (h : Occurs P env entries start ⟨m, none⟩) (ha : Acts P env m n) :
    Occurs P env entries start ⟨n, none⟩ := by
  induction ha with
  | refl => exact h
  | tail _ hstep ih =>
      cases hstep with
      | rule he => exact ih.evolves he
      | @react s t pre p q post e he hr =>
          have hset : (pre ++ p :: post).set pre.length q = pre ++ q :: post := by simp
          have hheard := ih.hear (k := pre.length) (p := p) he (by simp)
          simpa only [hset] using hheard.run_ok hr

end Occurs

end Machine

/-! ## What is upheld -/

section Upholding

variable {σ : Type} {P : Plugin σ} {env : Setting} {entries : List MethodId}

/-- What every step keeps that leads towards the state {lit}`T`: {lit}`I` of the state of the run
and {lit}`K` of the states of the plugins.  Plugins ask only for what is as {lit}`R` says, as long
as the answers are as {lit}`A` says. -/
structure Plugin.Upholds (P : Plugin σ) (env : Setting) (entries : List MethodId) (T : Solver)
    (I : Solver → Prop) (K : σ → Prop) (R : Request → Prop) (A : (r : Request) → r.Answer → Prop) :
    Prop where
  enter : ∀ {s i}, I s → i ∈ entries →
    I { s with calls := s.calls.discover ⟨emptyContext, i⟩ }
  take : ∀ {s w rest}, I s → s.queue = w :: rest → I (s.take env.program w rest)
  rule : ∀ {s a t}, I s → CoreRule env s a → s.Adds env.program a t → t.Extends T → I t
  react : ∀ {s e p}, I s → s.Extends T → e.Holds env s → K p → (P.react env e p).Asks R A K
  answer : ∀ {s t} {r : Request} {a : r.Answer}, I s → R r → r.answer env s = .ok a t →
    t.Extends T → I t ∧ A r a

namespace Machine

variable {start m : Machine σ} {T : Solver} {I : Solver → Prop} {K : σ → Prop}
  {R : Request → Prop} {A : (r : Request) → r.Answer → Prop}

/-- What is the case at a moment. -/
structure Upheld (I : Solver → Prop) (K : σ → Prop) (R : Request → Prop)
    (A : (r : Request) → r.Answer → Prop) (x : Moment σ) : Prop where
  solver : I x.machine.solver
  plugins : ∀ p ∈ x.machine.plugins, K p
  talk : ∀ talk ∈ x.talk, talk.rest.Asks R A K

/-- What is upheld holds at all moments before the state that they lead to. -/
theorem Occurs.upholds (hP : P.Upholds env entries T I K R A) (hstart : I start.solver)
    (hplugins : ∀ p ∈ start.plugins, K p) {x : Moment σ} (h : Occurs P env entries start x)
    (hT : x.machine.solver.Extends T) : Upheld I K R A x := by
  induction h with
  | start => exact ⟨hstart, hplugins, by simp⟩
  | enter _ hi ih =>
      obtain ⟨hs, hK, -⟩ := ih ((Solver.extends_discover _ _).trans hT)
      exact ⟨hP.enter hs hi, hK, by simp⟩
  | take _ hq ih =>
      obtain ⟨hs, hK, -⟩ := ih ((Solver.extends_take env.program hq).trans hT)
      exact ⟨hP.take hs hq, hK, by simp⟩
  | rule _ ha hadd ih =>
      obtain ⟨hs, hK, -⟩ := ih (hadd.accretes.extends.trans hT)
      exact ⟨hP.rule hs ha hadd hT, hK, by simp⟩
  | hear _ he hp ih =>
      obtain ⟨hs, hK, -⟩ := ih hT
      refine ⟨hs, hK, ?_⟩
      rintro _ ⟨⟩
      exact hP.react hs hT he (hK _ (List.mem_of_getElem? hp))
  | answer _ ha ih =>
      obtain ⟨hs, hK, htalk⟩ := ih ((Request.evolves ha).accretes.extends.trans hT)
      obtain ⟨hr, hnext⟩ := htalk _ rfl
      obtain ⟨ht, hanswer⟩ := hP.answer hs hr ha hT
      refine ⟨ht, hK, ?_⟩
      rintro _ ⟨⟩
      exact hnext _ hanswer
  | settle _ ih =>
      obtain ⟨hs, hK, htalk⟩ := ih hT
      refine ⟨hs, fun p hp => ?_, by simp⟩
      rcases List.mem_or_eq_of_mem_set hp with hp | rfl
      · exact hK p hp
      · exact htalk _ rfl

end Machine

end Upholding

/-! ## What is sustained -/

section Sustaining

variable {σ : Type} {P : Plugin σ} {env : Setting} {entries : List MethodId}

/-- What every step keeps: {lit}`I` of the state of the run and {lit}`K` of the states of the
plugins, which is read in any later view.  Plugins ask only for what is as {lit}`R` says in the
view, as long as the answers are as {lit}`A` says; and what is as {lit}`R` says right away is
answered as {lit}`A` says from then on. -/
structure Plugin.Sustains (P : Plugin σ) (env : Setting) (entries : List MethodId)
    (I : Solver → Prop) (K : View → σ → Prop) (R : View → Request → Prop)
    (A : View → (r : Request) → r.Answer → Prop) : Prop where
  enter : ∀ {s i}, I s → i ∈ entries →
    I { s with calls := s.calls.discover ⟨emptyContext, i⟩ }
  take : ∀ {s w rest}, I s → s.queue = w :: rest → I (s.take env.program w rest)
  rule : ∀ {s a t}, I s → CoreRule env s a → s.Adds env.program a t → I t
  react : ∀ {s e p k}, I s → e.Holds env s → s.settled.Le k → K k p →
    (P.react env e p).Asks (R k) (A k) (K k)
  answer : ∀ {s t} {r : Request} {a : r.Answer}, I s → R s.settled r → r.answer env s = .ok a t →
    I t ∧ ∀ k, t.settled.Le k → A k r a

variable {start : Machine σ} {I : Solver → Prop} {K : View → σ → Prop}
  {R : View → Request → Prop} {A : View → (r : Request) → r.Answer → Prop}

/-- What is sustained holds at all moments, in every later view. -/
theorem Machine.Occurs.sustains (hP : P.Sustains env entries I K R A) (hstart : I start.solver)
    (hplugins : ∀ k, ∀ p ∈ start.plugins, K k p) {x : Moment σ}
    (h : Occurs P env entries start x) {k : View} (hk : x.machine.solver.settled.Le k) :
    Upheld I (K k) (R k) (A k) x := by
  induction h generalizing k with
  | start => exact ⟨hstart, hplugins k, by simp⟩
  | enter _ hi ih =>
      obtain ⟨hs, hK, -⟩ := ih ((Solver.extends_discover _ _).settled.trans hk)
      exact ⟨hP.enter hs hi, hK, by simp⟩
  | take _ hq ih =>
      obtain ⟨hs, hK, -⟩ := ih ((Solver.extends_take env.program hq).settled.trans hk)
      exact ⟨hP.take hs hq, hK, by simp⟩
  | rule _ ha hadd ih =>
      obtain ⟨hs, hK, -⟩ := ih (hadd.accretes.extends.settled.trans hk)
      exact ⟨hP.rule hs ha hadd, hK, by simp⟩
  | hear _ he hp ih =>
      obtain ⟨hs, hK, -⟩ := ih hk
      refine ⟨hs, hK, ?_⟩
      rintro _ ⟨⟩
      exact hP.react hs he hk (hK _ (List.mem_of_getElem? hp))
  | answer _ ha ih =>
      -- the request is made in the view of the moment, and its answer is relied on in a later one
      obtain ⟨hs, -, hasked⟩ := ih (.refl _)
      obtain ⟨-, hK, htalk⟩ := ih ((Request.evolves ha).accretes.extends.settled.trans hk)
      obtain ⟨ht, hanswer⟩ := hP.answer hs (hasked _ rfl).1 ha
      refine ⟨ht, hK, ?_⟩
      rintro _ ⟨⟩
      exact (htalk _ rfl).2 _ (hanswer k hk)
  | settle _ ih =>
      obtain ⟨hs, hK, htalk⟩ := ih hk
      refine ⟨hs, fun p hp => ?_, by simp⟩
      rcases List.mem_or_eq_of_mem_set hp with hp | rfl
      · exact hK p hp
      · exact htalk _ rfl

end Sustaining

end PointsTo
