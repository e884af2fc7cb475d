import PointsTo.Proofs.Processing

/-!
# Runs

A run enters its entry methods and then works one fact in after the other.  The
points in between, where no fact is being worked in, are its stages.

Main results:

- {lit}`Machine.Stage`, {lit}`Machine.Advances`, {lit}`Machine.Visits`: the stages of a run.
- Theorem {lit}`Machine.visits_of_solve`: a finished run ends in a stage whose queue is
  empty, after the plugins were told of the fixpoint.
- {lit}`Machine.Grounded`: no fact is worked in before the objects and contexts that it
  mentions exist.
- {lit}`Machine.Invariant`: what every step of a run keeps; theorem
  {lit}`Machine.Invariant.visits`: it holds at every stage.
-/

namespace PointsTo.Machine

variable {σ : Type} {P : Plugin σ} {env : Setting} {entries : List MethodId} {start : Machine σ}

/-- A point of a run at which no fact is being worked in. -/
structure Stage (σ : Type) where
  /-- The plugins have been told of a fixpoint. -/
  told : Bool
  machine : Machine σ

/-- One stage of a run follows another. -/
inductive Advances (P : Plugin σ) (env : Setting) : Stage σ → Stage σ → Prop
  | work {told m n w rest} (hq : m.solver.queue = w :: rest)
      (h : process P env w { m with solver := { m.solver with queue := rest } } = .ok ⟨⟩ n) :
      Advances P env ⟨told, m⟩ ⟨told, n⟩
  | finish {m n} (hq : m.solver.queue = []) (h : tell P env .finish m = .ok ⟨⟩ n) :
      Advances P env ⟨false, m⟩ ⟨true, n⟩

/-- One stage of a run comes at some time after another, or is the same. -/
def Precedes (P : Plugin σ) (env : Setting) : Stage σ → Stage σ → Prop :=
  Relation.ReflTransGen (Advances P env)

/-- A run of a machine from entry methods comes to a stage. -/
def Visits (P : Plugin σ) (env : Setting) (entries : List MethodId) (start : Machine σ)
    (stage : Stage σ) : Prop :=
  ∃ m, enter P env entries start = .ok ⟨⟩ m ∧ Precedes P env ⟨false, m⟩ stage

theorem Visits.precedes {a b : Stage σ} (h : Visits P env entries start a)
    (hab : Precedes P env a b) : Visits P env entries start b := by
  obtain ⟨m, hm, ha⟩ := h
  exact ⟨m, hm, ha.trans hab⟩

/-- A run has at most one way to go on. -/
theorem advances_rightUnique (P : Plugin σ) (env : Setting) :
    Relator.RightUnique (Advances P env) := by
  intro a b c hab hac
  cases hab with
  | work hq hp =>
      cases hac with
      | work hq' hp' =>
          cases hq.symm.trans hq'
          cases hp.symm.trans hp'
          rfl
      | finish hq' _ => exact absurd (hq.symm.trans hq') (by simp)
  | finish hq ht =>
      cases hac with
      | work hq' _ => exact absurd (hq.symm.trans hq') (by simp)
      | finish _ ht' =>
          cases ht.symm.trans ht'
          rfl

/-- A run does not go on from a fixpoint that the plugins have been told of. -/
theorem eq_of_precedes {n : Machine σ} {b : Stage σ} (hq : n.solver.queue = [])
    (h : Precedes P env ⟨true, n⟩ b) : b = ⟨true, n⟩ := by
  induction h with
  | refl => rfl
  | tail _ hstep ih =>
      subst ih
      cases hstep with
      | work hq' _ => exact absurd (hq.symm.trans hq') (by simp)

/-- All stages of a run come before the one in which it is finished. -/
theorem Visits.precedes_last {stage : Stage σ} {n : Machine σ}
    (h : Visits P env entries start stage) (hlast : Visits P env entries start ⟨true, n⟩)
    (hq : n.solver.queue = []) : Precedes P env stage ⟨true, n⟩ := by
  obtain ⟨m, hm, ha⟩ := h
  obtain ⟨m', hm', hb⟩ := hlast
  cases hm.symm.trans hm'
  rcases Relation.ReflTransGen.total_of_right_unique (advances_rightUnique P env) ha hb with
    hab | hba
  · exact hab
  · rw [eq_of_precedes hq hba]
    exact .refl

/-- Plugins that have been told of a fixpoint were told at a stage at which nothing waited. -/
theorem Visits.told_finish {n : Machine σ} (h : Visits P env entries start ⟨true, n⟩) :
    ∃ m u, Visits P env entries start ⟨false, m⟩ ∧ m.solver.queue = [] ∧
      tell P env .finish m = .ok ⟨⟩ u ∧ Precedes P env ⟨true, u⟩ ⟨true, n⟩ := by
  obtain ⟨first, hfirst, hrun⟩ := h
  generalize hlast : (⟨true, n⟩ : Stage σ) = last at hrun
  induction hrun generalizing n with
  | refl => cases hlast
  | tail hpre hstep ih =>
      subst hlast
      cases hstep with
      | work hq hp =>
          obtain ⟨m, u, hm, hempty, htell, hu⟩ := ih rfl
          exact ⟨m, u, hm, hempty, htell, hu.tail (.work hq hp)⟩
      | finish hq ht => exact ⟨_, n, ⟨first, hfirst, hpre⟩, hq, ht, .refl⟩

/-- The main loop goes from stage to stage until the queue is empty. -/
theorem precedes_of_drain (told : Bool) {steps : Nat} {m n : Machine σ}
    (h : drain P env steps m = (.finished, n)) :
    Precedes P env ⟨told, m⟩ ⟨told, n⟩ ∧ n.solver.queue = [] := by
  refine ⟨?_, queue_eq_nil_of_drain P env h⟩
  induction steps generalizing m with
  | zero =>
      unfold drain at h
      split at h
      · cases h
        exact .refl
      · cases h
  | succ steps ih =>
      unfold drain at h
      split at h
      · cases h
        exact .refl
      · rename_i w rest hq
        dsimp only at h
        split at h
        · rename_i n' hn'
          exact Relation.ReflTransGen.head (.work hq hn') (ih h)
        · cases h

theorem precedes_of_settle (told : Bool) {steps : Nat} {x : MachineM σ Unit} {m n : Machine σ}
    (h : settle P env steps x m = (.finished, n)) :
    ∃ u, x m = .ok ⟨⟩ u ∧ Precedes P env ⟨told, u⟩ ⟨told, n⟩ ∧ n.solver.queue = [] := by
  unfold settle at h
  split at h
  · rename_i u hu
    exact ⟨u, hu, precedes_of_drain told h⟩
  · cases h

/-- A finished run ends in a stage at which nothing waits and the plugins have been
told of a fixpoint. -/
theorem visits_of_solve {steps : Nat} {n : Machine σ}
    (h : solve P env steps entries start = (.finished, n)) :
    Visits P env entries start ⟨true, n⟩ ∧ n.solver.queue = [] := by
  unfold solve at h
  split at h
  · rename_i m hm
    obtain ⟨u, hu, hum, hq⟩ := precedes_of_settle false hm
    obtain ⟨v, hv, hvn, hqn⟩ := precedes_of_settle true h
    exact ⟨⟨u, hu, (hum.tail (.finish hq hv)).trans hvn⟩, hqn⟩
  · rename_i hnot
    exact absurd h (hnot n)

/-- No fact is worked in before the objects and contexts that it mentions exist.  Ids
come from the tables of a run, so this says that no plugin makes one up. -/
def Grounded (P : Plugin σ) (env : Setting) (entries : List MethodId) (start : Machine σ) :
    Prop :=
  ∀ stage, Visits P env entries start stage → ∀ w rest,
    stage.machine.solver.queue = w :: rest → w.Exists stage.machine.solver.settled

/-- Nothing that was known or expected is lost from one stage to a later one. -/
theorem Precedes.extends {a b : Stage σ} (hg : Grounded P env entries start)
    (ha : Visits P env entries start a) (h : Precedes P env a b) :
    a.machine.solver.Extends b.machine.solver := by
  induction h with
  | refl => exact .refl _
  | tail hpre hstep ih =>
      cases hstep with
      | work hq hp =>
          have hacts := process_acts hp (hg _ (ha.precedes hpre) _ _ hq)
          exact ih.trans ((Solver.extends_take env.program hq).trans hacts.accretes.extends)
      | finish hq ht => exact ih.trans (tell_acts ht trivial).accretes.extends

/-! ## Entering -/

/-- The empty context exists from the start. -/
theorem has_emptyContext : (ContextTable.new).Has emptyContext := by
  refine ⟨.empty, ?_⟩
  simp [ContextTable.new, Interned.get?, OrderedSet.get?, emptyContext]

/-- Before the first stage the plugins are told of the start, and the entry methods
are reached one after the other. -/
theorem enter_ok {m n : Machine σ} (h : enter P env entries m = .ok ⟨⟩ n) :
    ∃ u, tell P env .start m = .ok ⟨⟩ u ∧
      (entries.forM fun i => reach P env ⟨emptyContext, i⟩) u = .ok ⟨⟩ n := by
  simp only [enter, bind_eq_ok] at h
  obtain ⟨_, u, hu, hn⟩ := h
  exact ⟨u, hu, hn⟩

/-! ## Invariants -/

/-- Something that the telling of the start establishes and the reaching of methods keeps
holds once the entry methods are entered. -/
theorem keeps_of_enter {I : Machine σ → Prop} {m n : Machine σ}
    (h : enter P env entries m = .ok ⟨⟩ n)
    (hstart : ∀ {u}, tell P env .start m = .ok ⟨⟩ u → I u)
    (hreach : ∀ {u v i}, i ∈ entries → I u → reach P env ⟨emptyContext, i⟩ u = .ok ⟨⟩ v → I v) :
    I n := by
  obtain ⟨u, hu, hloop⟩ := enter_ok h
  have hI : I u := hstart hu
  clear h hu
  induction entries generalizing u with
  | nil =>
      obtain ⟨_, rfl⟩ := pure_eq_ok.1 hloop
      exact hI
  | cons i entries ih =>
      obtain ⟨⟨⟩, v, hi, hrest⟩ := bind_eq_ok.1 hloop
      exact ih (fun hj => hreach (List.mem_cons_of_mem _ hj)) v hrest
        (hreach List.mem_cons_self hI hi)

/-- Something that additions, discoveries and the working in of facts keep holds at
every stage. -/
theorem Visits.keeps {I : Machine σ → Prop} {stage : Stage σ}
    (h : Visits P env entries start stage) (hg : Grounded P env entries start)
    (hentered : ∀ m, enter P env entries start = .ok ⟨⟩ m → I m)
    (hwork : ∀ {m n w rest}, I m → m.solver.queue = w :: rest → w.Exists m.solver.settled →
      process P env w { m with solver := { m.solver with queue := rest } } = .ok ⟨⟩ n → I n)
    (hfinish : ∀ {m n}, I m → tell P env .finish m = .ok ⟨⟩ n → I n) : I stage.machine := by
  obtain ⟨m, hm, hrun⟩ := h
  have hvisits := fun s (hs : Precedes P env ⟨false, m⟩ s) => hg s ⟨m, hm, hs⟩
  induction hrun with
  | refl => exact hentered m hm
  | tail hpre hstep ih =>
      cases hstep with
      | work hq hp => exact hwork ih hq (hvisits _ hpre _ _ hq) hp
      | finish hq ht => exact hfinish ih ht

/-- A property of machines that every step of a run keeps.  The steps are those that a round of
the main loop is made of, each with all that follows from it. -/
structure Invariant (P : Plugin σ) (env : Setting) (I : Machine σ → Prop) : Prop where
  /-- Rules and plugins act. -/
  acts : ∀ {m n}, I m → Acts P env m n → I n
  /-- A method is found to be reachable. -/
  entered : ∀ {m n q}, I m → m.solver.contexts.Has q.context → Entered P env q m n → I n
  /-- Objects on their way to a pointer are worked in. -/
  pointsTo : ∀ {m n ptr os rest}, I m → m.solver.queue = .pointsTo ptr os :: rest →
    (WorkItem.pointsTo ptr os).Exists m.solver.settled →
    Acts P env (m.taken env (.pointsTo ptr os) rest) n →
    (∀ v, ptr = .var v → ∀ o ∈ m.solver.delta ptr os,
      Grew P env v (m.solver.delta ptr os) (m.taken env (.pointsTo ptr os) rest) n) → I n
  /-- A call edge that is there already is passed over. -/
  known : ∀ {m e rest}, I m → m.solver.queue = .call e :: rest →
    (WorkItem.call e).Exists m.solver.settled → e ∈ m.solver.calls.edges →
    I (m.taken env (.call e) rest)
  /-- A new call edge is worked in. -/
  linked : ∀ {m n e rest}, I m → m.solver.queue = .call e :: rest →
    (WorkItem.call e).Exists m.solver.settled → e ∉ m.solver.calls.edges →
    Linked P env e (m.counted rest) n → I n

/-- Where a property holds with a new edge in the call graph, it holds after all that follows
from the edge, if acts and the entering of the callee keep it. -/
theorem Linked.keeps {I : Machine σ → Prop} {m n : Machine σ} {e : CallEdge}
    (h : Linked P env e m n) (hedge : I (m.addEdge e))
    (hacts : ∀ {u v}, I u → Acts P env u v → I v)
    (hentered : ∀ {u}, Entered P env e.callee (m.addEdge e) u → I u) : I n := by
  by_cases hin : e.callee ∈ m.solver.calls.reachableIn
  · have hsame := discover_of_mem (m := m.addEdge e) (q := e.callee) hin
    exact hacts hedge (hsame ▸ h.acts)
  · obtain ⟨u, hu, hun⟩ := h.entered hin
    exact hacts (hentered hu) hun

namespace Invariant

variable {I : Machine σ → Prop} {m n : Machine σ}

/-- What depends on nothing but the plugins and the methods that are reachable is an invariant if
acts and the entering of methods keep it. -/
theorem of_reachable (hacts : ∀ {m n}, I m → Acts P env m n → I n)
    (hentered : ∀ {m n q}, I m → Entered P env q m n → I n)
    (hsame : ∀ {m n : Machine σ}, n.plugins = m.plugins →
      n.solver.calls.reachable = m.solver.calls.reachable →
      n.solver.calls.reachableIn = m.solver.calls.reachableIn → I m → I n) :
    Invariant P env I where
  acts := hacts
  entered := fun h _ he => hentered h he
  pointsTo := by
    intro m n ptr os rest h _ _ hn _
    have htaken : I (m.taken env (.pointsTo ptr os) rest) := by
      refine hsame (m := m) rfl ?_ ?_ h
      · simp only [taken, Solver.calls_take_pointsTo]
      · simp only [taken, Solver.calls_take_pointsTo]
    exact hacts htaken hn
  known := by
    intro m e rest h _ _ hknown
    refine hsame (m := m) rfl ?_ ?_ h
    · simp only [taken, Solver.take, if_pos hknown]
    · simp only [taken, Solver.take, if_pos hknown]
  linked := by
    intro m n e rest h _ _ _ hlinked
    have hedge : I ((m.counted rest).addEdge e) := hsame (m := m) rfl rfl rfl h
    exact hlinked.keeps hedge hacts fun he => hentered hedge he

/-- Reaching a method keeps an invariant. -/
theorem reach (hI : Invariant P env I) (h : I m) {q : QMethod}
    (hr : Machine.reach P env q m = .ok ⟨⟩ n) (hq : m.solver.contexts.Has q.context) : I n := by
  rcases reach_ok hr hq with ⟨_, rfl⟩ | hentered
  · exact h
  · exact hI.entered h hq hentered

/-- One round of the main loop keeps an invariant. -/
theorem process (hI : Invariant P env I) (h : I m) {w : WorkItem} {rest : List WorkItem}
    (hq : m.solver.queue = w :: rest) (hw : w.Exists m.solver.settled)
    (hp : Machine.process P env w { m with solver := { m.solver with queue := rest } } =
      .ok ⟨⟩ n) : I n := by
  cases w with
  | pointsTo ptr os =>
      obtain ⟨hacts, hgrew⟩ := process_pointsTo_ok hp hw
      exact hI.pointsTo h hq hw hacts hgrew
  | call e =>
      rcases process_call_ok hp hw with ⟨hknown, rfl⟩ | ⟨hnew, hlinked⟩
      · exact hI.known h hq hw hknown
      · exact hI.linked h hq hw hnew hlinked

/-- An invariant of one stage holds at every later stage of a grounded run. -/
theorem precedes (hI : Invariant P env I) {a b : Stage σ} (h : I a.machine)
    (hg : Grounded P env entries start) (ha : Visits P env entries start a)
    (hab : Precedes P env a b) : I b.machine := by
  induction hab with
  | refl => exact h
  | tail hpre hstep ih =>
      cases hstep with
      | work hq hp => exact hI.process ih hq (hg _ (ha.precedes hpre) _ _ hq) hp
      | finish _ ht => exact hI.acts ih (tell_acts ht trivial)

/-- An invariant that holds before a grounded run holds at every stage of it. -/
theorem visits (hI : Invariant P env I) {plugins : List σ} {stage : Stage σ}
    (hstart : I (.new plugins)) (h : Visits P env entries (.new plugins) stage)
    (hg : Grounded P env entries (.new plugins)) : I stage.machine := by
  obtain ⟨m, hm, hrun⟩ := h
  have hentered : m.solver.contexts.Has emptyContext ∧ I m := by
    refine keeps_of_enter (I := fun u => u.solver.contexts.Has emptyContext ∧ I u) hm ?_ ?_
    · intro u htell
      have hacts := tell_acts htell trivial
      exact ⟨has_emptyContext.of_grows hacts.accretes.contexts, hI.acts hstart hacts⟩
    · rintro u v i _ ⟨hempty, hu⟩ hreach
      exact ⟨hempty.of_grows (extends_of_reach hreach hempty).settled.contexts,
        hI.reach hu hreach hempty⟩
  exact hI.precedes (a := ⟨false, m⟩) hentered.2 hg ⟨m, hm, .refl⟩ hrun

end Invariant

/-- At every stage of a grounded run the entry methods are reachable under the empty context. -/
theorem Visits.entry {plugins : List σ} {stage : Stage σ}
    (h : Visits P env entries (.new plugins) stage)
    (hg : Grounded P env entries (.new plugins)) {i : MethodId} (hi : i ∈ entries) :
    ⟨emptyContext, i⟩ ∈ stage.machine.solver.calls.reachableIn := by
  obtain ⟨m, hm, hrun⟩ := h
  refine (hrun.extends hg ⟨m, hm, .refl⟩).reachableIn ?_
  obtain ⟨u, htell, hloop⟩ := enter_ok hm
  have hempty := has_emptyContext.of_grows (tell_acts htell trivial).accretes.contexts
  obtain ⟨_, hall⟩ := forM_rel (R := fun a b : Machine σ => a.solver.Extends b.solver)
    (fun _ => .refl _) (fun hab hbc => hab.trans hbc) hloop fun _ _ _ _ hua hreach =>
      extends_of_reach hreach (hempty.of_grows hua.settled.contexts)
  obtain ⟨a, b, hua, hreach, hbm⟩ := hall i hi
  refine hbm.reachableIn ?_
  rw [(acts_of_reach hreach (hempty.of_grows hua.settled.contexts)).accretes.calls]
  exact CallGraph.mem_reachableIn_discover.2 (.inl rfl)

end PointsTo.Machine
