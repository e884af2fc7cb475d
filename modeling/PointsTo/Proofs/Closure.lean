import PointsTo.Proofs.Indexes
import PointsTo.Proofs.Members

/-!
# A finished run is closed under the rules

Objects are passed on as they arrive, along the edges that are there, and edges pass
on, as they are added, what has arrived.  This file shows that nothing is lost between
the two, whatever the plugins do: when a run is finished, every rule of the analysis
has all its consequences.

Main results:

- {lit}`Saturated`: the invariant between the rounds of the main loop, where consequences
  may still wait in the queue.
- {lit}`Closed`: the same without a queue.
- Theorem {lit}`closed_of_solve`: a finished run is closed, and whatever was ever on its
  way has arrived.
-/

namespace PointsTo

/-! ## The invariant -/

/-- All that follows from what has been worked in is there or on its way. -/
structure Saturated (env : Setting) (s : Solver) : Prop where
  grounded : s.Grounded
  flow : s.FlowClosed env.program
  body : ∀ m ∈ s.calls.reachableIn, ∀ {index stmt},
    (env.program.method m.item).stmts[index]? = some stmt → s.expected.Effect env m index stmt
  access : ∀ v, ∀ o ∈ s.pointsTo.get (.var v), ∀ e ∈ accessEdges env.program s.heap v o,
    e ∈ s.flow.edges
  called : ∀ v, ∀ o ∈ s.pointsTo.get (.var v), ∀ site ∈ (env.program.var v.item).uses.invokes,
    s.expected.Called env v.context site o

/-- What follows from the call edges is there. -/
structure Wired (env : Setting) (s : Solver) : Prop where
  callee : ∀ e ∈ s.calls.edges, e.callee ∈ s.calls.reachableIn
  wiring : ∀ e ∈ s.calls.edges, e.kind.isOrdinary = true →
    ∀ f ∈ ordinaryWiring env.program e, f ∈ s.flow.edges

variable {σ : Type} {P : Plugin σ} {env : Setting} {m n : Machine σ}

/-- Acts keep closure under flow. -/
theorem flowClosed_of_acts (h : m.solver.FlowClosed env.program) (hr : m.solver.Rooted)
    (ha : Machine.Acts P env m n) : n.solver.FlowClosed env.program := by
  have hboth : n.solver.FlowClosed env.program ∧ n.solver.Rooted := by
    induction ha with
    | refl => exact ⟨h, hr⟩
    | tail _ hstep ih =>
        refine ⟨?_, ih.2.of_accretes hstep.accretes⟩
        cases hstep with
        | rule he => exact ih.1.of_evolves ih.2 he
        | react _ he => exact ih.1.of_evolves ih.2 (Service.evolves he)
  exact hboth.1

namespace Saturated

/-- Where more is expected, and the same objects and methods have been worked in,
nothing is missing either. -/
theorem of_le {s t : Solver} (h : Saturated env s) (hle : s.expected.Le t.expected)
    (hpoints : t.pointsTo = s.pointsTo) (hreach : t.calls.reachableIn = s.calls.reachableIn)
    (hflow : t.FlowClosed env.program) : Saturated env t where
  grounded := by
    refine ⟨h.grounded.empty.of_grows hle.contexts, ?_, ?_, ?_⟩
    · intro ptr o ho
      rw [hpoints] at ho
      exact ⟨(h.grounded.points ptr o ho).1.of_grows hle.contexts,
        (h.grounded.points ptr o ho).2.of_grows hle.heap⟩
    · intro v o ho
      rw [hpoints] at ho
      exact (h.grounded.var v o ho).of_grows hle.contexts
    · intro m hm
      rw [hreach] at hm
      exact (h.grounded.reached m hm).of_grows hle.contexts
  flow := hflow
  body := by
    intro m hm index stmt hstmt
    rw [hreach] at hm
    exact (h.body m hm hstmt).mono (h.grounded.reached m hm) hle
  access := by
    intro v o ho e he
    rw [hpoints] at ho
    rw [accessEdges_of_grows (k := t.heap) v (h.grounded.points _ o ho).2 hle.heap] at he
    exact hle.flow (h.access v o ho e he)
  called := by
    intro v o ho site hsite
    rw [hpoints] at ho
    exact (h.called v o ho site hsite).mono (h.grounded.var v o ho)
      ((h.grounded.points _ o ho).mono (Solver.settled_le_expected s)) hle

theorem of_acts (h : Saturated env m.solver) (ha : Machine.Acts P env m n) :
    Saturated env n.solver :=
  h.of_le ha.accretes.extends.expected ha.accretes.pointsTo (by rw [ha.accretes.calls])
    (flowClosed_of_acts h.flow h.grounded.points ha)

/-- Once a new method has been entered, nothing is missing for it. -/
theorem of_entered {q : QMethod} (h : Saturated env m.solver) (he : Machine.Entered P env q m n)
    (hq : m.solver.contexts.Has q.context) : Saturated env n.solver := by
  have hle := (Solver.extends_discover m.solver q).expected
  have hacc := he.acts.accretes
  have hgrounded : (m.discover q).solver.Grounded := h.grounded.of_discover hq
  refine ⟨hgrounded.of_accretes hacc,
    flowClosed_of_acts (m := m.discover q) h.flow h.grounded.points he.acts, ?_, ?_, ?_⟩
  · intro q' hq' index stmt hstmt
    rw [hacc.calls] at hq'
    rcases CallGraph.mem_reachableIn_discover.1 hq' with rfl | hq'
    · exact he.effect hstmt
    · exact ((h.body q' hq' hstmt).mono (h.grounded.reached q' hq') hle).mono
        (h.grounded.reached q' hq') hacc.extends.expected
  · intro v o ho e hedge
    rw [hacc.pointsTo] at ho
    rw [accessEdges_of_grows v (h.grounded.points _ o ho).2 hacc.heap] at hedge
    exact hacc.flow (h.access v o ho e hedge)
  · intro v o ho site hsite
    rw [hacc.pointsTo] at ho
    exact (h.called v o ho site hsite).mono (h.grounded.var v o ho)
      ((h.grounded.points _ o ho).mono (Solver.settled_le_expected _))
      (hle.trans hacc.extends.expected)

/-- Objects are worked in, and all that follows is there or on its way. -/
theorem of_grew {ptr : Pointer} {os : ObjSet} {rest : List WorkItem}
    (h : Saturated env m.solver) (hq : m.solver.queue = .pointsTo ptr os :: rest)
    (hw : (WorkItem.pointsTo ptr os).Exists m.solver.settled)
    (hacts : Machine.Acts P env (m.taken env (.pointsTo ptr os) rest) n)
    (hgrew : ∀ v, ptr = .var v → ∀ o ∈ m.solver.delta ptr os,
      Machine.Grew P env v (m.solver.delta ptr os) (m.taken env (.pointsTo ptr os) rest) n) :
    Saturated env n.solver := by
  have htake := Solver.extends_take env.program hq
  have hground := h.grounded.of_take (p := env.program) hq hw
  have hle : m.solver.expected.Le n.solver.expected :=
    htake.expected.trans hacts.accretes.extends.expected
  have hgrounded : n.solver.Grounded := hground.of_accretes hacts.accretes
  have hreach : n.solver.calls = m.solver.calls := by
    rw [hacts.accretes.calls]
    exact Solver.calls_take_pointsTo _ _ _ _ _
  refine ⟨hgrounded, flowClosed_of_acts (h.flow.of_take hq) hground.points hacts, ?_, ?_, ?_⟩
  · intro q hqr index stmt hstmt
    rw [hreach] at hqr
    exact (h.body q hqr hstmt).mono (h.grounded.reached q hqr) hle
  · intro v o ho e he
    rcases (Machine.mem_pointsTo_of_taken hacts).1 ho with hold | ⟨hptr, hnew⟩
    · rw [accessEdges_of_grows (k := n.solver.heap) v (h.grounded.points _ o hold).2
        hle.heap] at he
      exact hle.flow (h.access v o hold e he)
    · rw [hacts.accretes.pointsTo] at ho
      have hobj := hground.points (.var v) o ho
      rw [accessEdges_of_grows v hobj.2 hacts.accretes.heap] at he
      exact (hgrew v hptr o hnew).flow o hnew e he
  · intro v o ho site hsite
    rcases (Machine.mem_pointsTo_of_taken hacts).1 ho with hold | ⟨hptr, hnew⟩
    · exact (h.called v o hold site hsite).mono (h.grounded.var v o hold)
        ((h.grounded.points _ o hold).mono (Solver.settled_le_expected _)) hle
    · rw [hacts.accretes.pointsTo] at ho
      obtain ⟨m', n', hm', hcall, hn'⟩ := (hgrew v hptr o hnew).called site hsite o hnew
      have hground' := hground.of_accretes hm'.accretes
      have hat : o ∈ m'.solver.pointsTo.get (.var v) := by
        rw [hm'.accretes.pointsTo]
        exact ho
      obtain ⟨hacts', hcalled, _⟩ := Machine.callOn_ok hcall hat hsite (hground'.var v o hat)
        (hground'.points _ o hat)
      have hground'' := hground'.of_accretes hacts'.accretes
      rw [← hacts'.accretes.pointsTo] at hat
      exact hcalled.mono (hground''.var v o hat)
        ((hground''.points _ o hat).mono (Solver.settled_le_expected _))
        hn'.accretes.extends.expected

/-- Every step of a run leaves nothing missing. -/
theorem invariant : Machine.Invariant P env (fun m => Saturated env m.solver) where
  acts := of_acts
  entered := fun h hq he => h.of_entered he hq
  pointsTo := of_grew
  known := by
    intro m e rest h hq _ hknown
    refine h.of_le (Solver.extends_take env.program hq).expected (Solver.pointsTo_take _ _ _ _)
      ?_ (h.flow.of_take hq)
    simp only [Machine.taken, Solver.take, if_pos hknown]
  linked := by
    intro m n e rest h hq hw _ hlinked
    have hle := Machine.expected_le_addEdge hq
    have hedge : Saturated env ((m.counted rest).addEdge e).solver :=
      h.of_le hle rfl rfl fun f hf o ho hpass => hle.points (h.flow f hf o ho hpass)
    exact hlinked.keeps (I := fun m => Saturated env m.solver) hedge of_acts
      fun hentered => hedge.of_entered hentered hw

end Saturated

namespace Wired

theorem of_acts (h : Wired env m.solver) (ha : Machine.Acts P env m n) : Wired env n.solver := by
  refine ⟨?_, ?_⟩
  · intro e he
    rw [ha.accretes.calls] at he ⊢
    exact h.callee e he
  · intro e he hk f hf
    rw [ha.accretes.calls] at he
    exact ha.accretes.flow (h.wiring e he hk f hf)

/-- Every step of a run brings about what follows from call edges. -/
theorem invariant : Machine.Invariant P env (fun m => Wired env m.solver) where
  acts := of_acts
  entered := by
    intro m n q h _ hentered
    refine of_acts (m := m.discover q) ⟨?_, ?_⟩ hentered.acts
    · intro e he
      simp only [Machine.discover, CallGraph.edges_discover] at he
      exact CallGraph.mem_reachableIn_discover.2 (.inr (h.callee e he))
    · intro e he
      simp only [Machine.discover, CallGraph.edges_discover] at he
      exact h.wiring e he
  pointsTo := by
    intro m n ptr os rest h _ _ hacts _
    refine of_acts (m := m.taken env (.pointsTo ptr os) rest) ⟨?_, ?_⟩ hacts
    · simpa only [Machine.taken, Solver.calls_take_pointsTo] using h.callee
    · simpa only [Machine.taken, Solver.calls_take_pointsTo, Solver.flow_take] using h.wiring
  known := by
    intro m e rest h _ _ hknown
    simp only [Machine.taken, Solver.take, if_pos hknown]
    exact ⟨h.callee, h.wiring⟩
  linked := by
    intro m n e rest h _ _ _ hlinked
    have hcalls : n.solver.calls = (m.solver.calls.addEdge e).discover e.callee :=
      hlinked.acts.accretes.calls
    refine ⟨?_, ?_⟩
    · intro e' he'
      rw [hcalls, CallGraph.edges_discover] at he'
      rw [hcalls, CallGraph.mem_reachableIn_discover]
      rcases OrderedSet.mem_insert.1 he' with rfl | he'
      · exact .inl rfl
      · exact .inr (h.callee e' he')
    · intro e' he' hk f hf
      rw [hcalls, CallGraph.edges_discover] at he'
      rcases OrderedSet.mem_insert.1 he' with rfl | he'
      · exact hlinked.wiring hk f hf
      · exact hlinked.acts.accretes.flow (h.wiring e' he' hk f hf)

end Wired

/-! ## From the start to the fixpoint -/

/-- Nothing is missing before a run. -/
theorem saturated_new : Saturated env ({} : Solver) := by
  refine ⟨⟨Machine.has_emptyContext, ?_, ?_, ?_⟩, ?_, ?_, ?_, ?_⟩
  · exact fun _ _ h => absurd h (OrderedSet.not_mem_empty _)
  · exact fun _ _ h => absurd h (OrderedSet.not_mem_empty _)
  · exact fun _ h => absurd h (OrderedSet.not_mem_empty _)
  · exact fun _ h => absurd h (OrderedSet.not_mem_empty _)
  · exact fun _ h => absurd h (OrderedSet.not_mem_empty _)
  · exact fun _ _ h => absurd h (OrderedSet.not_mem_empty _)
  · exact fun _ _ h => absurd h (OrderedSet.not_mem_empty _)

/-- Before a run there are no call edges. -/
theorem wired_new : Wired env ({} : Solver) :=
  ⟨fun _ he => absurd he (OrderedSet.not_mem_empty _),
    fun _ he => absurd he (OrderedSet.not_mem_empty _)⟩

/-- At every stage of a grounded run all that follows from what has been worked in is
there or on its way. -/
theorem saturated_of_visits {entries : List MethodId} {plugins : List σ}
    {stage : Machine.Stage σ} (h : Machine.Visits P env entries (.new plugins) stage)
    (hg : Machine.Grounded P env entries (.new plugins)) :
    Saturated env stage.machine.solver ∧ Wired env stage.machine.solver ∧
      ∀ i ∈ entries, ⟨emptyContext, i⟩ ∈ stage.machine.solver.calls.reachableIn :=
  ⟨Saturated.invariant.visits saturated_new h hg, Wired.invariant.visits wired_new h hg,
    fun _ hi => h.entry hg hi⟩

/-! ## The fixpoint -/

/-- Every rule of the analysis has all its consequences. -/
structure Closed (env : Setting) (entries : List MethodId) (s : Solver) : Prop where
  /-- The entry methods are reachable under the empty context. -/
  entry : ∀ i ∈ entries, ⟨emptyContext, i⟩ ∈ s.calls.reachableIn
  /-- What the filter of a flow edge lets pass is at its target. -/
  flow : ∀ e ∈ s.flow.edges, ∀ o ∈ s.pointsTo.get e.source,
    Solver.Passes env.program s.heap e.filter o → o ∈ s.pointsTo.get e.target
  /-- Every statement of a reachable method has its effect. -/
  body : ∀ m ∈ s.calls.reachableIn, ∀ index stmt,
    (env.program.method m.item).stmts[index]? = some stmt → s.settled.Effect env m index stmt
  /-- Every access and every call through a variable has its effect on what the
  variable refers to. -/
  access : ∀ v, ∀ o ∈ s.pointsTo.get (.var v), ∀ stmt, env.program.HasStmt stmt →
    s.settled.Access env v o stmt
  /-- The callee of every call edge is reachable. -/
  callee : ∀ e ∈ s.calls.edges, e.callee ∈ s.calls.reachableIn
  /-- Along every ordinary call edge arguments flow to parameters, and what is returned flows
  to the result. -/
  wiring : ∀ e ∈ s.calls.edges, e.kind.isOrdinary = true → s.settled.Transfers env.program e

/-- The flow that a statement asks for on an object is among the edges for the uses of
its base. -/
theorem access_of_accessEdges {s : Solver} {v : QVar} {o : QObj} (hb : env.program.Built)
    (hflow : ∀ e ∈ accessEdges env.program s.heap v o, e ∈ s.flow.edges)
    (hcalled : ∀ site ∈ (env.program.var v.item).uses.invokes,
      s.settled.Called env v.context site o)
    {stmt : Stmt} (hstmt : env.program.HasStmt stmt) : s.settled.Access env v o stmt := by
  cases stmt with
  | loadField lhs base f =>
      rintro rfl
      exact hflow _ (mem_accessEdges.2 (.load (hb.mem_loads.2 hstmt)))
  | storeField base f rhs =>
      rintro rfl
      exact hflow _ (mem_accessEdges.2 (.store (hb.mem_stores.2 hstmt)))
  | loadArray lhs base =>
      rintro rfl
      exact hflow _ (mem_accessEdges.2 (.loadArray (hb.mem_arrayLoads.2 hstmt)))
  | storeArray base rhs =>
      rintro rfl
      exact hflow _ (mem_accessEdges.2 (.storeArray (hb.mem_arrayStores.2 hstmt)))
  | invoke site => exact fun hbase hkind => hcalled site (hb.mem_invokes.2 ⟨hstmt, hbase, hkind⟩)
  | new | copy | cast | literal | loadStatic | storeStatic | ret => trivial

/-- When nothing waits, what is there or on its way is there. -/
theorem closed_of_saturated {entries : List MethodId} {s : Solver} (hb : env.program.Built)
    (hs : Saturated env s) (hc : Wired env s)
    (he : ∀ i ∈ entries, ⟨emptyContext, i⟩ ∈ s.calls.reachableIn) (hq : s.queue = []) :
    Closed env entries s where
  entry := he
  flow := by
    intro e hedge o ho hp
    rcases hs.flow e hedge o ho hp with hin | ⟨os, hos, _⟩
    · exact hin
    · rw [hq] at hos
      exact absurd hos List.not_mem_nil
  body := by
    intro m hm index stmt hstmt
    rw [← Solver.expected_eq_settled hq]
    exact hs.body m hm hstmt
  access := by
    intro v o ho stmt hstmt
    refine access_of_accessEdges hb (hs.access v o ho) ?_ hstmt
    intro site hsite
    rw [← Solver.expected_eq_settled hq]
    exact hs.called v o ho site hsite
  callee := hc.callee
  wiring := fun e hedge hk => View.transfers_iff.2 (hc.wiring e hedge hk)

/-- A stage of a grounded run at which nothing waits is closed. -/
theorem closed_of_visits {entries : List MethodId} {plugins : List σ} {stage : Machine.Stage σ}
    (hb : env.program.Built) (h : Machine.Visits P env entries (.new plugins) stage)
    (hg : Machine.Grounded P env entries (.new plugins))
    (hq : stage.machine.solver.queue = []) : Closed env entries stage.machine.solver := by
  obtain ⟨hs, hc, he⟩ := saturated_of_visits h hg
  exact closed_of_saturated hb hs hc he hq

/-- A finished run of any plugins on any built program is closed under the rules of
the analysis; and every fact that was known or on its way at any stage of the run, or
before some of the acts that lead to it, is known in the end. -/
theorem closed_of_solve (P : Plugin σ) (env : Setting) (ds : List Declaration)
    (hbuild : (Builder.ofList ds).build = .ok env.program) {steps : Nat}
    {entries : List MethodId} {plugins : List σ} {n : Machine σ}
    (hsolve : Machine.solve P env steps entries (.new plugins) = (.finished, n))
    (hground : Machine.Grounded P env entries (.new plugins)) :
    Closed env entries n.solver ∧
      ∀ stage, Machine.Visits P env entries (.new plugins) stage →
        ∀ m, Machine.Acts P env m stage.machine → m.solver.expected.Le n.solver.settled := by
  obtain ⟨hvisit, hq⟩ := Machine.visits_of_solve hsolve
  have hb := Program.built_of_build (Builder.numbered_ofList ds) hbuild
  refine ⟨closed_of_visits hb hvisit hground hq, ?_⟩
  intro stage hstage m hm
  have hlast := hstage.precedes_last hvisit hq
  have hext : stage.machine.solver.Extends n.solver := hlast.extends hground hstage
  rw [← Solver.expected_eq_settled hq]
  exact hm.accretes.extends.expected.trans hext.expected

/-- Options for a context-sensitive run with one call site as context. -/
def oneCallSite (lambda reflection : Bool) : Options where
  context := .callSite
  k := 1
  heapDepth := 1
  reflectionLog := none
  reflectionInference := none
  lambda := lambda
  reflection := reflection
  maxWorkItems := none
  entryMethods := []

/-- The setting of a run on declarations. -/
def settingOf (ds : List Declaration) (o : Options) : Setting where
  program := (Builder.ofList ds).program.indexed
  options := o
  selector := o.selector

/-- A method that makes an object and calls a method on it. -/
def callingProgram : List Declaration :=
  [.cls (.plain "A"), .method ⟨"A", "m", [], .void, false, false, true⟩,
    .method ⟨"A", "main", [], .void, true, false, true⟩, .var ⟨1⟩ "a" (.cls "A"),
    .stmt ⟨1⟩ (.new ⟨1⟩ (.cls "A")),
    .call ⟨1⟩ ⟨.virtual, ⟨"A", "m", [], .void⟩, some ⟨1⟩, [], none⟩]

/-- The run from {lit}`main` finishes, its result is closed, and the method is called. -/
theorem closed_of_solve_calling :
    let env := settingOf callingProgram (oneCallSite true false)
    let run := Machine.solve Member.plugin env 10 [⟨1⟩] (.new [.newLambda])
    run.1 = .finished ∧ Closed env [⟨1⟩] run.2.solver ∧
      ⟨⟨emptyContext, ⟨0⟩⟩, ⟨⟨1⟩, ⟨0⟩⟩, .virtual⟩ ∈ run.2.solver.calls.edges := by
  intro env run
  have hfinished : run.1 = .finished := by decide +kernel
  have hsolve : Machine.solve Member.plugin env 10 [⟨1⟩] (.new [.newLambda]) = (.finished, run.2) :=
    Prod.ext hfinished rfl
  refine ⟨hfinished, ?_, by decide +kernel⟩
  have hbuild : (Builder.ofList callingProgram).build = .ok env.program :=
    Program.build_of_checks (by decide +kernel) (by decide +kernel)
  have hb := Program.built_of_build (Builder.numbered_ofList _) hbuild
  refine (closed_of_solve Member.plugin env callingProgram hbuild hsolve
    (Member.grounded hb ?_)).1
  intro m hm
  obtain rfl := List.mem_singleton.1 hm
  exact Member.sound_newLambda

end PointsTo
