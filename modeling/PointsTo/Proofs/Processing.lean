import PointsTo.Proofs.EventReactions
import PointsTo.Proofs.WorklistSteps

/-!
# Working a fact in

What one round of the main loop does, from the fact that is taken to the state in
which the next one can be: the fact is worked in, and then follow acts that cover all
that the rules ask for because of it.

Main results:

- {lit}`Machine.Grew`: all that follows from a variable referring to more objects.
- {lit}`Machine.Entered`: all that follows from a method being reachable.
- {lit}`Machine.Linked`: all that follows from a call edge.
- Theorems {lit}`Machine.process_pointsTo_ok`, {lit}`Machine.process_call_ok`: one round.
-/

namespace PointsTo.Machine

variable {σ : Type} {P : Plugin σ} {env : Setting} {m n u : Machine σ}

/-! ## Variables that refer to more -/

/-- A variable was found to refer to the objects of {lit}`delta` in {lit}`m`, and by
{lit}`n` all has happened that follows. -/
structure Grew (P : Plugin σ) (env : Setting) (v : QVar) (delta : ObjSet) (m n : Machine σ) :
    Prop where
  acts : Acts P env m n
  flow : ∀ o ∈ delta, ∀ e ∈ accessEdges env.program m.solver.heap v o, e ∈ n.solver.flow.edges
  called : ∀ site ∈ (env.program.var v.item).uses.invokes, ∀ o ∈ delta, ∃ m' n',
    Acts P env m m' ∧ callOn P env v.context site o m' = .ok ⟨⟩ n' ∧ Acts P env n' n
  told : ∃ m', Acts P env m m' ∧ tell P env (.grown v delta) m' = .ok ⟨⟩ n

theorem grow_ok {v : QVar} {delta : ObjSet} (h : grow P env v delta m = .ok ⟨⟩ n)
    (hpoints : ∀ o ∈ delta, o ∈ m.solver.pointsTo.get (.var v))
    (hnew : ∃ o, o ∈ delta) (hv : m.solver.contexts.Has v.context)
    (hobj : ∀ o ∈ delta, m.solver.settled.HasObj o) : Grew P env v delta m n := by
  simp only [grow, bind_eq_ok, modifySolver_eq_ok] at h
  obtain ⟨_, m₁, rfl, ⟨⟩, m₂, hloop, htell⟩ := h
  generalize hes : delta.toList.flatMap (accessEdges env.program m.solver.heap v) = es at hloop
  have hmem : ∀ e, e ∈ es ↔ ∃ o ∈ delta, e ∈ accessEdges env.program m.solver.heap v o := by
    intro e
    rw [← hes, List.mem_flatMap]
    rfl
  have hflow : Acts P env m { m with solver := m.solver.addFlows env.program es } := by
    refine (Act.rule (Solver.evolves_addFlows ?_)).acts
    intro e he t ht hheap
    obtain ⟨o, ho, he⟩ := (hmem e).1 he
    refine .access (v := v) (o := o) ?_ (by rw [hheap]; exact he)
    rw [ht.pointsTo]
    exact hpoints o ho
  have hafter : ∀ {u : Machine σ}, Acts P env m u → u.solver.contexts.Has v.context ∧
      ∀ o ∈ delta, o ∈ u.solver.pointsTo.get (.var v) ∧ u.solver.settled.HasObj o := by
    intro u hu
    refine ⟨hv.of_grows hu.accretes.contexts, ?_⟩
    intro o ho
    rw [hu.accretes.pointsTo]
    exact ⟨hpoints o ho, (hobj o ho).mono hu.accretes.extends.settled⟩
  -- every single call consists of acts, from wherever the loop has got to
  have hcall : ∀ {u w : Machine σ} {site o}, Acts P env m u → site ∈
      (env.program.var v.item).uses.invokes → o ∈ delta →
      callOn P env v.context site o u = .ok ⟨⟩ w → Acts P env u w := by
    intro u w site o hu hsite ho hc
    obtain ⟨hvu, hou⟩ := hafter hu
    exact (callOn_ok hc (hou o ho).1 hsite hvu (hou o ho).2).1
  have hinner : ∀ {u w : Machine σ} {site}, Acts P env m u → site ∈
      (env.program.var v.item).uses.invokes →
      (delta.toList.forM fun o => callOn P env v.context site o) u = .ok ⟨⟩ w →
      Acts P env u w ∧ ∀ o ∈ delta.toList, ∃ m' n', Acts P env u m' ∧
        callOn P env v.context site o m' = .ok ⟨⟩ n' ∧ Acts P env n' w := by
    intro u w site hu hsite hl
    refine forM_rel (R := Acts P env) .refl .trans hl ?_
    intro o ho a b hua hc
    exact hcall (hu.trans hua) hsite ho hc
  obtain ⟨hacts, hsites⟩ := forM_rel (R := Acts P env) .refl .trans hloop (by
    intro site hsite a b hua hl
    exact (hinner (hflow.trans hua) hsite hl).1)
  have hm₂ := hflow.trans hacts
  obtain ⟨hv₂, ho₂⟩ := hafter hm₂
  have hgrown : Acts P env m₂ n :=
    tell_acts htell ⟨hv₂, fun o ho => (ho₂ o ho).1, hnew⟩
  refine ⟨hm₂.trans hgrown, ?_, ?_, m₂, hm₂, htell⟩
  · intro o ho e he
    exact (hacts.trans hgrown).accretes.flow
      (Solver.mem_flow_addFlows _ _ ((hmem e).2 ⟨o, ho, he⟩))
  · intro site hsite o ho
    obtain ⟨a, b, hma, hl, hbm⟩ := hsites site hsite
    obtain ⟨m', n', ham', hc, hn'b⟩ := (hinner (hflow.trans hma) hsite hl).2 o ho
    exact ⟨m', n', (hflow.trans hma).trans ham', hc, (hn'b.trans hbm).trans hgrown⟩

/-! ## Methods that are reachable -/

/-- The machine after a method was found to be reachable under a context. -/
def discover (m : Machine σ) (q : QMethod) : Machine σ :=
  { m with solver := { m.solver with calls := m.solver.calls.discover q } }

theorem discover_of_mem {q : QMethod} (h : q ∈ m.solver.calls.reachableIn) :
    m.discover q = m := by
  simp only [discover, CallGraph.discover_of_mem h]

/-- A method that {lit}`m` did not know to be reachable under its context is, and by
{lit}`n` all has happened that follows. -/
structure Entered (P : Plugin σ) (env : Setting) (q : QMethod) (m n : Machine σ) : Prop where
  new : q ∉ m.solver.calls.reachableIn
  acts : Acts P env (m.discover q) n
  effect : ∀ {index stmt}, (env.program.method q.item).stmts[index]? = some stmt →
    n.solver.expected.Effect env q index stmt
  method : q.item ∉ m.solver.calls.reachable → ∃ u,
    tell P env (.method q.item) (m.discover q) = .ok ⟨⟩ u ∧ Acts P env u n
  methodIn : ∃ u, Acts P env (m.discover q) u ∧ tell P env (.methodIn q) u = .ok ⟨⟩ n
  order : q.item ∉ m.solver.calls.reachable → ∃ u v,
    tell P env (.method q.item) (m.discover q) = .ok ⟨⟩ u ∧ Acts P env u v ∧
      tell P env (.methodIn q) v = .ok ⟨⟩ n

/-- The body of a reachable method is executed and the plugins are told. -/
private theorem body_ok {q : QMethod}
    (h : (do onSolver (SolverM.executeBody env q); tell P env (.methodIn q) : MachineM σ Unit) m =
      .ok ⟨⟩ n)
    (hreach : q ∈ m.solver.calls.reachableIn) (hq : m.solver.contexts.Has q.context) :
    Acts P env m n ∧
      (∀ {index stmt}, (env.program.method q.item).stmts[index]? = some stmt →
        n.solver.expected.Effect env q index stmt) ∧
      ∃ u, Acts P env m u ∧ tell P env (.methodIn q) u = .ok ⟨⟩ n := by
  simp only [bind_eq_ok, onSolver_eq_ok] at h
  obtain ⟨_, _, ⟨t, hbody, rfl⟩, htell⟩ := h
  have hrule := (SolverM.executeBody_ok hbody hreach hq).1
  have hfirst : Acts P env m { m with solver := t } := (Act.rule hrule).acts
  have hq' : t.contexts.Has q.context := hq.of_grows hrule.accretes.contexts
  have hholds : (Event.methodIn q).Holds env t :=
    ⟨hrule.accretes.extends.reachableIn hreach, hq'⟩
  have hsecond := tell_acts htell hholds
  refine ⟨hfirst.trans hsecond, ?_, _, hfirst, htell⟩
  intro index stmt hstmt
  have heffect := SolverM.effect_of_executeBody hbody hreach hq hstmt
  exact heffect.mono hq' hsecond.accretes.extends.expected

/-- A known method is passed over; for a new one all happens that has to. -/
theorem reach_ok {q : QMethod} (h : reach P env q m = .ok ⟨⟩ n)
    (hq : m.solver.contexts.Has q.context) :
    (q ∈ m.solver.calls.reachableIn ∧ n = m) ∨ Entered P env q m n := by
  simp only [reach, bind_eq_ok, get_eq_ok] at h
  obtain ⟨_, _, ⟨rfl, rfl⟩, h⟩ := h
  by_cases hknown : q ∈ m.solver.calls.reachableIn
  · rw [if_pos (CallGraph.isReachableIn_iff.2 hknown), pure_eq_ok] at h
    exact .inl ⟨hknown, h.2.symm⟩
  · rw [if_neg (fun h => hknown (CallGraph.isReachableIn_iff.1 h)), bind_eq_ok] at h
    obtain ⟨_, m₁, hm₁, h⟩ := h
    obtain rfl := modifySolver_eq_ok.1 hm₁
    have hreach : q ∈ (m.discover q).solver.calls.reachableIn :=
      CallGraph.mem_reachableIn_discover.2 (.inl rfl)
    right
    by_cases hitem : q.item ∈ m.solver.calls.reachable
    · rw [if_pos (CallGraph.isReachable_iff.2 hitem)] at h
      have hsame : m.discover q =
          { m with solver := { m.solver with calls := m.solver.calls.addReachableIn q } } := by
        simp only [discover, CallGraph.discover_of_not_mem hknown, CallGraph.addReachable,
          CallGraph.addReachableIn, OrderedSet.insert_of_mem hitem]
      rw [← hsame] at h
      obtain ⟨hacts, heffect, htold⟩ := body_ok h hreach hq
      exact ⟨hknown, hacts, heffect, fun hnew => absurd hitem hnew, htold,
        fun hnew => absurd hitem hnew⟩
    · rw [if_neg (fun h => hitem (CallGraph.isReachable_iff.1 h)), bind_eq_ok] at h
      obtain ⟨_, m₂, hm₂, h⟩ := h
      obtain rfl := modifySolver_eq_ok.1 hm₂
      have hsame : m.discover q =
          { m with solver := { m.solver with
              calls := (m.solver.calls.addReachableIn q).addReachable q.item } } := by
        simp only [discover, CallGraph.discover_of_not_mem hknown]
      rw [← hsame, bind_eq_ok] at h
      obtain ⟨_, m₃, htell, h⟩ := h
      have hmethod : q.item ∈ (m.discover q).solver.calls.reachable := by
        rw [hsame]
        exact OrderedSet.mem_insert.2 (.inl rfl)
      have hacts₁ := tell_acts htell hmethod
      obtain ⟨hacts₂, heffect, u, hu, htold⟩ := body_ok h
        (hacts₁.accretes.extends.reachableIn hreach)
        (Interned.Has.of_grows (t := (m.discover q).solver.contexts) hq hacts₁.accretes.contexts)
      exact ⟨hknown, hacts₁.trans hacts₂, heffect, fun _ => ⟨m₃, htell, hacts₂⟩,
        ⟨u, hacts₁.trans hu, htold⟩, fun _ => ⟨m₃, u, htell, hu, htold⟩⟩

/-- Once a method is found to be reachable, all that happens are acts. -/
theorem acts_of_reach {q : QMethod} (h : reach P env q m = .ok ⟨⟩ n)
    (hq : m.solver.contexts.Has q.context) : Acts P env (m.discover q) n := by
  rcases reach_ok h hq with ⟨hknown, rfl⟩ | hentered
  · rw [discover_of_mem hknown]
  · exact hentered.acts

/-- Nothing is lost while a method is reached. -/
theorem extends_of_reach {q : QMethod} (h : reach P env q m = .ok ⟨⟩ n)
    (hq : m.solver.contexts.Has q.context) : m.solver.Extends n.solver :=
  (Solver.extends_discover m.solver q).trans (acts_of_reach h hq).accretes.extends

/-! ## Call edges -/

/-- The machine after an edge was added to the call graph. -/
def addEdge (m : Machine σ) (e : CallEdge) : Machine σ :=
  { m with solver := { m.solver with calls := m.solver.calls.addEdge e } }

/-- An edge that was added stays in the call graph. -/
theorem mem_edges_of_acts {e : CallEdge} {q : QMethod}
    (h : Acts P env ((m.addEdge e).discover q) n) : e ∈ n.solver.calls.edges := by
  rw [h.accretes.calls]
  show e ∈ ((m.solver.calls.addEdge e).discover q).edges
  rw [CallGraph.edges_discover]
  exact OrderedSet.mem_insert.2 (.inl rfl)

/-- An edge that {lit}`m` did not have is in the call graph, and by {lit}`n` all has happened
that follows. -/
structure Linked (P : Plugin σ) (env : Setting) (e : CallEdge) (m n : Machine σ) : Prop where
  acts : Acts P env ((m.addEdge e).discover e.callee) n
  entered : e.callee ∉ m.solver.calls.reachableIn → ∃ u,
    Entered P env e.callee (m.addEdge e) u ∧ Acts P env u n
  wiring : e.kind.isOrdinary = true → ∀ f ∈ ordinaryWiring env.program e,
    f ∈ n.solver.flow.edges
  told : ∃ u, Acts P env ((m.addEdge e).discover e.callee) u ∧
    tell P env (.edge e) u = .ok ⟨⟩ n

/-- The flow along an ordinary edge may be added. -/
theorem acts_of_wiring {e : CallEdge} (he : e ∈ m.solver.calls.edges)
    (hk : e.kind.isOrdinary = true) :
    Acts P env m
      { m with solver := m.solver.addFlows env.program (ordinaryWiring env.program e) } := by
  refine (Act.rule (Solver.evolves_addFlows ?_)).acts
  intro f hf t ht _
  exact .wiring (ht.extends.settled.call he) hk hf

/-- A known edge is passed over; for a new one all happens that has to. -/
theorem processCall_ok {e : CallEdge} (h : processCall P env e m = .ok ⟨⟩ n)
    (he : m.solver.contexts.Has e.callee.context) :
    (e ∈ m.solver.calls.edges ∧ n = m) ∨ (e ∉ m.solver.calls.edges ∧ Linked P env e m n) := by
  simp only [processCall, bind_eq_ok, get_eq_ok] at h
  obtain ⟨_, _, ⟨rfl, rfl⟩, h⟩ := h
  by_cases hknown : e ∈ m.solver.calls.edges
  · rw [if_pos hknown, pure_eq_ok] at h
    exact .inl ⟨hknown, h.2.symm⟩
  · rw [if_neg hknown, bind_eq_ok] at h
    obtain ⟨_, m₁, hm₁, h⟩ := h
    obtain rfl := modifySolver_eq_ok.1 hm₁
    rw [bind_eq_ok] at h
    obtain ⟨_, m₂, hreach, h⟩ := h
    have hacts : Acts P env ((m.addEdge e).discover e.callee) m₂ := acts_of_reach hreach he
    have hentered : e.callee ∉ m.solver.calls.reachableIn →
        Entered P env e.callee (m.addEdge e) m₂ :=
      fun hout => (reach_ok hreach he).resolve_left fun hin => hout hin.1
    have hedge := mem_edges_of_acts hacts
    right
    refine ⟨hknown, ?_⟩
    by_cases hk : e.kind.isOrdinary = true
    · rw [if_pos hk, bind_eq_ok] at h
      obtain ⟨_, m₃, hm₃, htell⟩ := h
      obtain rfl := modifySolver_eq_ok.1 hm₃
      have hwire : Acts P env m₂ _ := acts_of_wiring hedge hk
      have htold := tell_acts htell (hwire.accretes.extends.settled.call hedge)
      refine ⟨(hacts.trans hwire).trans htold, ?_, ?_, _, hacts.trans hwire, htell⟩
      · exact fun hout => ⟨m₂, hentered hout, hwire.trans htold⟩
      · exact fun _ f hf => htold.accretes.flow (Solver.mem_flow_addFlows _ _ hf)
    · rw [if_neg hk] at h
      have htold := tell_acts h hedge
      refine ⟨hacts.trans htold, ?_, fun hk' => absurd hk' hk, m₂, hacts, h⟩
      exact fun hout => ⟨m₂, hentered hout, htold⟩

/-! ## One round of the main loop -/

/-- The machine after the oldest fact was taken from the queue and worked in. -/
def taken (env : Setting) (m : Machine σ) (w : WorkItem) (rest : List WorkItem) : Machine σ :=
  { m with solver := m.solver.take env.program w rest }

/-- What a pointer refers to once objects were worked in it referred to before, or it has just
been found. -/
theorem mem_pointsTo_of_taken {ptr ptr' : Pointer} {os : ObjSet} {rest : List WorkItem} {o : QObj}
    (h : Acts P env (m.taken env (.pointsTo ptr os) rest) n) :
    o ∈ n.solver.pointsTo.get ptr' ↔
      o ∈ m.solver.pointsTo.get ptr' ∨ ptr = ptr' ∧ o ∈ m.solver.delta ptr os := by
  rw [h.accretes.pointsTo, taken, Solver.mem_pointsTo_take_pointsTo, eq_comm (a := ptr)]

/-- The machine after the oldest fact was taken from the queue and counted. -/
def counted (m : Machine σ) (rest : List WorkItem) : Machine σ :=
  { m with solver := { m.solver with queue := rest, processed := m.solver.processed + 1 } }

theorem count_ok (h : count env m = .ok ⟨⟩ n) :
    n = { m with solver := { m.solver with processed := m.solver.processed + 1 } } := by
  simp only [count, bind_eq_ok] at h
  obtain ⟨_, m₁, hm₁, h⟩ := h
  obtain rfl := modifySolver_eq_ok.1 hm₁
  cases hlimit : env.options.maxWorkItems with
  | none =>
      simp only [hlimit, pure_eq_ok] at h
      exact h.2.symm
  | some limit =>
      simp only [hlimit, bind_eq_ok, get_eq_ok] at h
      obtain ⟨_, _, ⟨rfl, rfl⟩, h⟩ := h
      by_cases hover : limit < m.solver.processed + 1
      · rw [if_pos hover] at h
        exact (throw_eq_ok.1 h).elim
      · rw [if_neg hover, pure_eq_ok] at h
        exact h.2.symm

/-- Objects are worked in, and if they are new to a variable all happens that has to. -/
private theorem processPointsTo_ok {ptr : Pointer} {os : ObjSet}
    (h : processPointsTo P env ptr os m = .ok ⟨⟩ n)
    (hw : (WorkItem.pointsTo ptr os).Exists m.solver.settled) :
    Acts P env { m with solver := m.solver.propagate env.program ptr os } n ∧
      ∀ v, ptr = .var v → ∀ o ∈ m.solver.delta ptr os,
        Grew P env v (m.solver.delta ptr os)
          { m with solver := m.solver.propagate env.program ptr os } n := by
  simp only [processPointsTo, bind_eq_ok, get_eq_ok] at h
  obtain ⟨_, _, ⟨rfl, rfl⟩, _, m₁, hm₁, h⟩ := h
  obtain rfl := modifySolver_eq_ok.1 hm₁
  have hprop := Solver.accretes_propagate m.solver env.program ptr os
  cases ptr with
  | field | static | array =>
      obtain ⟨_, rfl⟩ := pure_eq_ok.1 h
      exact ⟨.refl _, fun v hv => absurd hv (by simp)⟩
  | var v =>
      by_cases hempty : (m.solver.delta (.var v) os).isEmpty = true
      · simp only [hempty, if_true, pure_eq_ok] at h
        obtain ⟨_, rfl⟩ := h
        refine ⟨.refl _, ?_⟩
        intro _ _ o ho
        rw [OrderedSet.isEmpty_iff.1 hempty] at ho
        exact absurd ho (OrderedSet.not_mem_empty o)
      · simp only [hempty] at h
        have hmem : ∀ o ∈ m.solver.delta (.var v) os, o ∈ os :=
          fun o ho => (OrderedSet.mem_newIn.1 ho).1
        obtain ⟨first, hfirst⟩ : ∃ o, o ∈ m.solver.delta (.var v) os :=
          OrderedSet.not_isEmpty_iff.1 hempty
        have hgrew := grow_ok h (by
            intro o ho
            rw [hprop.pointsTo]
            exact Solver.mem_pointsTo_merge.2 (.inr ⟨rfl, hmem o ho⟩))
          ⟨first, hfirst⟩
          (((hw first (hmem first hfirst)).2 v rfl).of_grows hprop.contexts)
          (fun o ho =>
            ⟨(hw o (hmem o ho)).1.1.of_grows hprop.contexts,
              (hw o (hmem o ho)).1.2.of_grows hprop.heap⟩)
        refine ⟨hgrew.acts, ?_⟩
        rintro _ ⟨⟩ _ _
        exact hgrew

/-- One round for objects on their way to a pointer. -/
theorem process_pointsTo_ok {ptr : Pointer} {os : ObjSet} {rest : List WorkItem}
    (h : process P env (.pointsTo ptr os) { m with solver := { m.solver with queue := rest } } =
      .ok ⟨⟩ n)
    (hw : (WorkItem.pointsTo ptr os).Exists m.solver.settled) :
    Acts P env (m.taken env (.pointsTo ptr os) rest) n ∧
      ∀ v, ptr = .var v → ∀ o ∈ m.solver.delta ptr os,
        Grew P env v (m.solver.delta ptr os) (m.taken env (.pointsTo ptr os) rest) n := by
  simp only [process, bind_eq_ok] at h
  obtain ⟨_, m₁, hcount, h⟩ := h
  obtain rfl := count_ok hcount
  exact processPointsTo_ok h hw

/-- One round for a call edge. -/
theorem process_call_ok {e : CallEdge} {rest : List WorkItem}
    (h : process P env (.call e) { m with solver := { m.solver with queue := rest } } =
      .ok ⟨⟩ n)
    (he : m.solver.contexts.Has e.callee.context) :
    (e ∈ m.solver.calls.edges ∧ n = m.taken env (.call e) rest) ∨
      (e ∉ m.solver.calls.edges ∧ Linked P env e (m.counted rest) n) := by
  simp only [process, bind_eq_ok] at h
  obtain ⟨_, m₁, hcount, h⟩ := h
  obtain rfl := count_ok hcount
  rcases processCall_ok h he with ⟨hknown, rfl⟩ | ⟨hnew, hlinked⟩
  · refine .inl ⟨hknown, ?_⟩
    simp only [taken, Solver.take, if_pos hknown]
  · exact .inr ⟨hnew, hlinked⟩

/-- The machine after a new edge was taken is the one in which its callee is
reachable. -/
theorem taken_call {e : CallEdge} {rest : List WorkItem} (he : e ∉ m.solver.calls.edges) :
    m.taken env (.call e) rest = ((m.counted rest).addEdge e).discover e.callee := by
  simp only [taken, Solver.take, if_neg he]
  rfl

/-- An edge that leaves the queue and joins the call graph stays expected. -/
theorem expected_le_addEdge {e : CallEdge} {rest : List WorkItem}
    (hq : m.solver.queue = .call e :: rest) :
    m.solver.expected.Le ((m.counted rest).addEdge e).solver.expected := by
  refine ⟨.refl _, .refl _, ?_, id, ?_, id⟩
  · rintro ptr o (ho | ⟨os, hos, ho⟩)
    · exact .inl ho
    · rw [hq] at hos
      rcases List.mem_cons.1 hos with heq | hos
      · cases heq
      · exact .inr ⟨os, hos, ho⟩
  · rintro e' (he | he)
    · exact .inl (OrderedSet.mem_insert.2 (.inr he))
    · rw [hq] at he
      rcases List.mem_cons.1 he with heq | he
      · cases heq
        exact .inl (OrderedSet.mem_insert.2 (.inl rfl))
      · exact .inr he

/-- One round is the taking of a fact, and acts that follow. -/
theorem process_acts {w : WorkItem} {rest : List WorkItem}
    (h : process P env w { m with solver := { m.solver with queue := rest } } = .ok ⟨⟩ n)
    (hw : w.Exists m.solver.settled) : Acts P env (m.taken env w rest) n := by
  cases w with
  | pointsTo ptr os => exact (process_pointsTo_ok h hw).1
  | call e =>
      rcases process_call_ok h hw with ⟨_, rfl⟩ | ⟨hnew, hlinked⟩
      · exact .refl _
      · rw [taken_call hnew]
        exact hlinked.acts

end PointsTo.Machine
