import PointsTo.Proofs.Failures
import PointsTo.Proofs.IntermediateStates
import PointsTo.Proofs.Members

/-!
# Runs that are interrupted

A run may fail at any request and at any statement, and it may be stopped after any number of
steps.  What it leaves is the state of one of its moments all the same.  This file goes through
the operations of a run once more, from the requests to the main loop, and says where each of them
can fail and what has happened by then.

Main results:

- Theorems {lit}`SolverM.evolves_of_executeBody_error`, {lit}`SolverM.eq_of_dispatch_error`: rules
  that fail have added only what the rules allow.
- Theorems {lit}`Machine.Occurs.of_tell_error`, {lit}`Machine.Occurs.of_reach_error` and their
  like: an operation that fails leaves the state of a moment.
- Theorem {lit}`Machine.arises_of_solve`: a run leaves a state of the run, however it ends.
- {lit}`Analysis.Arises`: the states that the run of an analysis goes through;
  {lit}`Analysis.Attains`: all states that it gets into, however it ends.
-/

namespace PointsTo

namespace Machine

variable {σ : Type} {P : Plugin σ} {env : Setting} {entries : List MethodId} {start m n : Machine σ}

namespace Occurs

/-! ## Reactions that fail -/

/-- A conversation that fails breaks off in the middle. -/
theorem run_error {k : Nat} {x : Service σ} (h : Occurs P env entries start ⟨m, some ⟨k, x⟩⟩)
    {e : Error} {t : Solver} (hrun : x.run env m.solver = .error e t) :
    ∃ talk, Occurs P env entries start ⟨{ m with solver := t }, talk⟩ := by
  induction x generalizing m with
  | done a => cases hrun
  | fail e' =>
      cases hrun
      exact ⟨_, h⟩
  | ask r next ih =>
      rcases bind_eq_error.1 hrun with hfail | ⟨a, u, ha, hnext⟩
      · rw [Request.answer_eq_error hfail]
        exact ⟨_, h⟩
      · exact ih a (m := { m with solver := u }) (h.answer ha) hnext

/-- A plugin that fails when it is told of an event does so in the middle of its reaction, after
those before it have been told. -/
theorem of_plugins_tell_error {ev : Event} {e : Error} {pre ps qs : List σ} {s t : Solver}
    (h : Occurs P env entries start ⟨⟨s, pre ++ ps⟩, none⟩) (he : ev.Holds env s)
    (hfail : P.tell env ev ps s = .error e (t, qs)) :
    ∃ talk, Occurs P env entries start ⟨⟨t, pre ++ qs⟩, talk⟩ := by
  induction ps generalizing pre s qs with
  | nil => cases hfail
  | cons p ps ih =>
      have hheard := h.hear (k := pre.length) (p := p) he (by simp)
      unfold Plugin.tell at hfail
      split at hfail
      · rename_i hr
        cases hfail
        exact hheard.run_error hr
      · rename_i q u hq
        have hnext := hheard.run_ok hq
        have hset : (pre ++ p :: ps).set pre.length q = (pre ++ [q]) ++ ps := by simp
        rw [hset] at hnext
        split at hfail
        · rename_i hrest
          cases hfail
          obtain ⟨talk, htalk⟩ := ih hnext (he.mono (Service.evolves hq).accretes) hrest
          exact ⟨talk, by simpa using htalk⟩
        · cases hfail

theorem of_tell_error {ev : Event} {e : Error} (h : Occurs P env entries start ⟨m, none⟩)
    (hfail : tell P env ev m = .error e n) (he : ev.Holds env m.solver) :
    ∃ talk, Occurs P env entries start ⟨n, talk⟩ := by
  unfold tell at hfail
  split at hfail
  · cases hfail
  · rename_i hps
    cases hfail
    have hall : Occurs P env entries start ⟨⟨m.solver, [] ++ m.plugins⟩, none⟩ := h
    exact hall.of_plugins_tell_error he hps

/-- A computation on the state of the run that fails after some additions by the rules. -/
theorem of_onSolver_error {α : Type} {x : SolverM α} {e : Error}
    (h : Occurs P env entries start ⟨m, none⟩)
    (hx : ∀ t, x m.solver = .error e t → m.solver.Evolves env.program (CoreRule env) t)
    (hfail : onSolver x m = .error e n) : ∃ talk, Occurs P env entries start ⟨n, talk⟩ := by
  unfold onSolver at hfail
  split at hfail
  · cases hfail
  · rename_i t ht
    cases hfail
    exact ⟨none, h.evolves (hx t ht)⟩

end Occurs

end Machine

/-! ## Rules that fail -/

namespace SolverM

variable {env : Setting} {s t : Solver} {e : Error}

/-- An assignment of an object that fails has at most made the object. -/
theorem evolves_of_assignObj_error {m : QMethod} {index : Nat} {stmt : Stmt} {lhs : VarId}
    {o : Obj} {onHeap : Bool} (h : assignObj env m lhs o onHeap s = .error e t)
    (hx : Executed env.program s m index stmt)
    (ho : stmt.obj? m.item index = some (lhs, o, onHeap)) :
    s.Evolves env.program (CoreRule env) t := by
  unfold assignObj at h
  rcases bind_eq_error.1 h with h | ⟨i, u, hi, h⟩
  · rw [internObj_eq_error h]
  · have hu : s.Evolves env.program (CoreRule env) u :=
      (internObj_ok env hi).1.evolves (.object hx ho)
    cases onHeap with
    | false => cases h
    | true =>
        rcases bind_eq_error.1 h with h | ⟨c, v, _, h⟩
        · rwa [heapContext_eq_error h]
        · cases h

/-- A statement that fails has added at most an object. -/
theorem evolves_of_execute_error {m : QMethod} {index : Nat} {stmt : Stmt}
    (h : execute env m index stmt s = .error e t) (hx : Executed env.program s m index stmt) :
    s.Evolves env.program (CoreRule env) t := by
  cases stmt with
  | new lhs type =>
      unfold execute at h
      cases hi : nextIndex index "statements" with
      | error e' =>
          rw [hi] at h
          cases h
          exact .refl _
      | ok i =>
          rw [hi] at h
          obtain rfl := nextIndex_eq_ok hi
          exact evolves_of_assignObj_error h hx rfl
  | literal lhs value =>
      cases value with
      | str | cls => exact evolves_of_assignObj_error h hx rfl
      | null => cases h
  | invoke site =>
      have hcall : callStatic env ⟨m.context, site⟩ s = .error e t := h
      unfold callStatic at hcall
      cases ht : staticTarget? env.program (env.program.invoke site) with
      | none =>
          simp only [ht] at hcall
          cases hcall
      | some callee =>
          simp only [ht] at hcall
          rcases bind_eq_error.1 hcall with hcall | ⟨c, u, _, hcall⟩
          · rw [callContext_eq_error hcall]
          · cases hcall
  | copy | cast | loadStatic | storeStatic | loadField | storeField | loadArray | storeArray
    | ret => cases h

/-- A body that fails has added what the rules allow. -/
theorem evolves_of_executeBody_error {m : QMethod} (h : executeBody env m s = .error e t)
    (hreach : m ∈ s.calls.reachableIn) (hm : s.contexts.Has m.context) :
    s.Evolves env.program (CoreRule env) t := by
  have hexecuted : ∀ a ∈ (env.program.method m.item).stmts.zipIdx,
      Executed env.program s m a.2 a.1 :=
    fun a ha => ⟨hreach, List.mem_zipIdx_iff_getElem?.1 ha⟩
  obtain ⟨a, ha, u, hsu, hfail⟩ := forM_rel_error
    (R := Solver.Evolves env.program (CoreRule env)) .refl .trans h (by
      intro b hb v w hsv hex
      exact evolves_execute hex ((hexecuted b hb).mono hsv.accretes)
        (hm.of_grows hsv.accretes.contexts))
  exact hsu.trans (evolves_of_execute_error hfail ((hexecuted a ha).mono hsu.accretes))

/-- A call of a method that fails has added nothing. -/
theorem eq_of_callOn_error {site : QSite} {o : QObj} {callee : MethodId} {kind : CallKind}
    (h : callOn env site o callee kind s = .error e t) : t = s := by
  unfold callOn at h
  rcases bind_eq_error.1 h with h | ⟨c, u, _, h⟩
  · exact callContext_eq_error h
  · cases hthis : (env.program.method callee).receiver with
    | none =>
        simp only [hthis] at h
        cases h
    | some this =>
        simp only [hthis] at h
        rcases bind_eq_error.1 h with h | ⟨_, _, _, h⟩ <;> cases h

/-- Nor has a call site that fails on an object. -/
theorem eq_of_dispatch_error {context : ContextId} {site : InvokeId} {o : QObj}
    (h : dispatch env context site o s = .error e t) : t = s := by
  unfold dispatch at h
  rw [get_bind_apply] at h
  cases hcallee : receiverTarget? env.program s.heap (env.program.invoke site) o with
  | none =>
      simp only [hcallee] at h
      cases h
  | some callee =>
      cases hkind : CallKind.ofInvoke? (env.program.invoke site).kind with
      | none =>
          simp only [hcallee, hkind] at h
          cases h
      | some kind =>
          simp only [hcallee, hkind] at h
          rcases bind_eq_error.1 h with h | ⟨_, _, _, h⟩
          · exact eq_of_callOn_error h
          · cases h

end SolverM

/-! ## Rounds that fail -/

namespace Machine

variable {σ : Type} {P : Plugin σ} {env : Setting} {entries : List MethodId} {start m n : Machine σ}
  {e : Error}

/-- The state of the run may be changed first. -/
theorem modifySolver_bind_apply {α : Type} {f : Solver → Solver} {g : PUnit → MachineM σ α} :
    (modifySolver f >>= g) m = g ⟨⟩ { m with solver := f m.solver } := rfl

namespace Occurs

/-- A call on an object that a variable refers to. -/
theorem of_callOn_error {v : QVar} {site : InvokeId} {o : QObj}
    (h : Occurs P env entries start ⟨m, none⟩)
    (hfail : callOn P env v.context site o m = .error e n)
    (hpoints : o ∈ m.solver.pointsTo.get (.var v))
    (huse : site ∈ (env.program.var v.item).uses.invokes)
    (hv : m.solver.contexts.Has v.context) (ho : m.solver.settled.HasObj o) :
    ∃ talk, Occurs P env entries start ⟨n, talk⟩ := by
  unfold callOn at hfail
  rcases bind_eq_error.1 hfail with hfail | ⟨resolved, u, hok, hfail⟩
  · refine h.of_onSolver_error (fun t ht => ?_) hfail
    rw [SolverM.eq_of_dispatch_error ht]
  · obtain ⟨t, hd, rfl⟩ := onSolver_eq_ok.1 hok
    rcases SolverM.dispatch_ok hd with ⟨_, _, rfl, _⟩ | ⟨rfl, rfl, hnone⟩
    · cases hfail
    · exact h.of_tell_error hfail ⟨⟨v, rfl, hpoints, huse⟩, hv, ho, hnone⟩

/-- A variable that refers to more. -/
theorem of_grow_error {v : QVar} {delta : ObjSet} (h : Occurs P env entries start ⟨m, none⟩)
    (hfail : grow P env v delta m = .error e n)
    (hpoints : ∀ o ∈ delta, o ∈ m.solver.pointsTo.get (.var v)) (hnew : ∃ o, o ∈ delta)
    (hv : m.solver.contexts.Has v.context) (hobj : ∀ o ∈ delta, m.solver.settled.HasObj o) :
    ∃ talk, Occurs P env entries start ⟨n, talk⟩ := by
  have hafter : ∀ {u : Machine σ}, Acts P env m u → u.solver.contexts.Has v.context ∧
      ∀ o ∈ delta, o ∈ u.solver.pointsTo.get (.var v) ∧ u.solver.settled.HasObj o := by
    intro u hu
    refine ⟨hv.of_grows hu.accretes.contexts, fun o ho => ⟨?_, ?_⟩⟩
    · rw [hu.accretes.pointsTo]
      exact hpoints o ho
    · exact (hobj o ho).mono hu.accretes.extends.settled
  have hcall : ∀ {u w : Machine σ} {site o}, Acts P env m u →
      site ∈ (env.program.var v.item).uses.invokes → o ∈ delta →
      callOn P env v.context site o u = .ok ⟨⟩ w → Acts P env u w := by
    intro u w site o hu hsite ho hc
    obtain ⟨hvu, hou⟩ := hafter hu
    exact (callOn_ok hc (hou o ho).1 hsite hvu (hou o ho).2).1
  unfold grow at hfail
  rw [modifySolver_bind_apply] at hfail
  generalize hes : delta.toList.flatMap (accessEdges env.program m.solver.heap v) = es at hfail
  have hflow : Acts P env m { m with solver := m.solver.addFlows env.program es } := by
    refine (Act.rule (Solver.evolves_addFlows fun f hf t ht hheap => ?_)).acts
    obtain ⟨o, ho, hf⟩ := List.mem_flatMap.1 (hes ▸ hf)
    refine .access (v := v) (o := o) ?_ (by rwa [hheap])
    rw [ht.pointsTo]
    exact hpoints o ho
  have hsite : ∀ {u w : Machine σ} {site}, Acts P env m u →
      site ∈ (env.program.var v.item).uses.invokes →
      (delta.toList.forM fun o => callOn P env v.context site o) u = .ok ⟨⟩ w →
      Acts P env u w := fun hu hsite hloop =>
    (forM_rel (R := Acts P env) .refl .trans hloop fun o ho _ _ ha hc =>
      hcall (hu.trans ha) hsite ho hc).1
  rcases bind_eq_error.1 hfail with hfail | ⟨_, m₂, hloop, hfail⟩
  · -- one of the calls fails, after all those before it
    obtain ⟨site, hmem, u, hu, hfail⟩ := forM_rel_error (R := Acts P env) .refl .trans hfail
      fun _ hmem _ _ ha hloop => hsite (hflow.trans ha) hmem hloop
    obtain ⟨o, ho, w, hw, hfail⟩ := forM_rel_error (R := Acts P env) .refl .trans hfail
      fun o ho _ _ ha hc => hcall ((hflow.trans hu).trans ha) hmem ho hc
    have hmw := (hflow.trans hu).trans hw
    obtain ⟨hvw, how⟩ := hafter hmw
    exact (h.acts hmw).of_callOn_error hfail (how o ho).1 hmem hvw (how o ho).2
  · have hm₂ := hflow.trans (forM_rel (R := Acts P env) .refl .trans hloop
      fun _ hmem _ _ ha hloop => hsite (hflow.trans ha) hmem hloop).1
    obtain ⟨hv₂, ho₂⟩ := hafter hm₂
    exact (h.acts hm₂).of_tell_error hfail ⟨hv₂, fun o ho => (ho₂ o ho).1, hnew⟩

/-- The body of a method that is reachable. -/
theorem of_body_error {q : QMethod} (h : Occurs P env entries start ⟨m, none⟩)
    (hfail : (do onSolver (SolverM.executeBody env q); tell P env (.methodIn q) :
      MachineM σ Unit) m = .error e n)
    (hreach : q ∈ m.solver.calls.reachableIn) (hq : m.solver.contexts.Has q.context) :
    ∃ talk, Occurs P env entries start ⟨n, talk⟩ := by
  rcases bind_eq_error.1 hfail with hfail | ⟨_, u, hok, hfail⟩
  · exact h.of_onSolver_error
      (fun t ht => SolverM.evolves_of_executeBody_error ht hreach hq) hfail
  · obtain ⟨t, hbody, rfl⟩ := onSolver_eq_ok.1 hok
    have hrule := (SolverM.executeBody_ok hbody hreach hq).1
    have hreach' : q ∈ t.calls.reachableIn := hrule.extends.reachableIn hreach
    exact (h.evolves hrule).of_tell_error hfail ⟨hreach', hq.of_grows hrule.accretes.contexts⟩

/-- A method that is found to be reachable. -/
theorem of_reach_error {q : QMethod} (h : Occurs P env entries start ⟨m.discover q, none⟩)
    (hfail : reach P env q m = .error e n) (hq : m.solver.contexts.Has q.context) :
    ∃ talk, Occurs P env entries start ⟨n, talk⟩ := by
  have hreach : q ∈ (m.discover q).solver.calls.reachableIn :=
    CallGraph.mem_reachableIn_discover.2 (.inl rfl)
  unfold reach at hfail
  rw [get_bind_apply] at hfail
  by_cases hknown : q ∈ m.solver.calls.reachableIn
  · rw [if_pos (CallGraph.isReachableIn_iff.2 hknown)] at hfail
    cases hfail
  rw [if_neg fun h => hknown (CallGraph.isReachableIn_iff.1 h), modifySolver_bind_apply] at hfail
  by_cases hitem : q.item ∈ m.solver.calls.reachable
  · have hsame : m.discover q =
        { m with solver := { m.solver with calls := m.solver.calls.addReachableIn q } } := by
      simp only [discover, CallGraph.discover_of_not_mem hknown, CallGraph.addReachable,
        CallGraph.addReachableIn, OrderedSet.insert_of_mem hitem]
    rw [if_pos (CallGraph.isReachable_iff.2 hitem), ← hsame] at hfail
    exact h.of_body_error hfail hreach hq
  · have hsame : m.discover q =
        { m with solver := { m.solver with
            calls := (m.solver.calls.addReachableIn q).addReachable q.item } } := by
      simp only [discover, CallGraph.discover_of_not_mem hknown]
    have hmethod : q.item ∈ (m.discover q).solver.calls.reachable := by
      rw [hsame]
      exact OrderedSet.mem_insert.2 (.inl rfl)
    rw [if_neg fun h => hitem (CallGraph.isReachable_iff.1 h), modifySolver_bind_apply,
      ← hsame] at hfail
    rcases bind_eq_error.1 hfail with hfail | ⟨_, m₃, htell, hfail⟩
    · exact h.of_tell_error hfail hmethod
    · have hacts : Acts P env (m.discover q) m₃ := tell_acts htell hmethod
      have hq' : (m.discover q).solver.contexts.Has q.context := hq
      exact (h.acts hacts).of_body_error hfail (hacts.accretes.extends.reachableIn hreach)
        (hq'.of_grows hacts.accretes.contexts)

/-- Objects that reach a pointer. -/
theorem of_processPointsTo_error {ptr : Pointer} {os : ObjSet}
    (h : Occurs P env entries start
      ⟨{ m with solver := m.solver.propagate env.program ptr os }, none⟩)
    (hfail : processPointsTo P env ptr os m = .error e n)
    (hw : (WorkItem.pointsTo ptr os).Exists m.solver.settled) :
    ∃ talk, Occurs P env entries start ⟨n, talk⟩ := by
  have hprop := Solver.accretes_propagate m.solver env.program ptr os
  unfold processPointsTo at hfail
  rw [get_bind_apply, modifySolver_bind_apply] at hfail
  cases ptr with
  | field | static | array => cases hfail
  | var v =>
      by_cases hempty : (m.solver.delta (.var v) os).isEmpty = true
      · simp only [if_pos hempty] at hfail
        cases hfail
      · simp only [if_neg hempty] at hfail
        have hmem : ∀ o ∈ m.solver.delta (.var v) os, o ∈ os :=
          fun o ho => (OrderedSet.mem_newIn.1 ho).1
        obtain ⟨o, ho⟩ : ∃ o, o ∈ m.solver.delta (.var v) os :=
          OrderedSet.not_isEmpty_iff.1 hempty
        refine h.of_grow_error hfail ?_ ⟨o, ho⟩
          (((hw o (hmem o ho)).2 v rfl).of_grows hprop.contexts)
          fun o ho => ⟨(hw o (hmem o ho)).1.1.of_grows hprop.contexts,
            (hw o (hmem o ho)).1.2.of_grows hprop.heap⟩
        intro o ho
        rw [hprop.pointsTo]
        exact Solver.mem_pointsTo_merge.2 (.inr ⟨rfl, hmem o ho⟩)

/-- An edge that joins the call graph. -/
theorem of_processCall_error {edge : CallEdge}
    (h : edge ∉ m.solver.calls.edges →
      Occurs P env entries start ⟨(m.addEdge edge).discover edge.callee, none⟩)
    (hfail : processCall P env edge m = .error e n)
    (hedge : m.solver.contexts.Has edge.callee.context) :
    ∃ talk, Occurs P env entries start ⟨n, talk⟩ := by
  unfold processCall at hfail
  rw [get_bind_apply] at hfail
  by_cases hknown : edge ∈ m.solver.calls.edges
  · rw [if_pos hknown] at hfail
    cases hfail
  have hnew := h hknown
  rw [if_neg hknown, modifySolver_bind_apply] at hfail
  rcases bind_eq_error.1 hfail with hfail | ⟨_, u, hreach, hfail⟩
  · exact hnew.of_reach_error hfail hedge
  have hacts := acts_of_reach (m := m.addEdge edge) hreach hedge
  have hlinked := mem_edges_of_acts hacts
  have hu := hnew.acts hacts
  by_cases hkind : edge.kind.isOrdinary = true
  · rw [if_pos hkind, modifySolver_bind_apply] at hfail
    have hwire : Acts P env u _ := acts_of_wiring hlinked hkind
    exact (hu.acts hwire).of_tell_error hfail (hwire.accretes.extends.settled.call hlinked)
  · rw [if_neg hkind] at hfail
    exact hu.of_tell_error hfail hlinked

end Occurs

/-! ## Runs -/

/-- The state of a run that has exceeded its budget: a fact was taken from the queue and counted,
but not worked in. -/
def Exceeds (P : Plugin σ) (env : Setting) (entries : List MethodId) (start n : Machine σ) : Prop :=
  ∃ m w rest, Occurs P env entries start ⟨m, none⟩ ∧ m.solver.queue = w :: rest ∧
    n = m.counted rest

/-- Counting a fact fails when the budget is exceeded, after the fact was counted. -/
theorem count_eq_error (h : count env m = .error e n) :
    (∃ limit, e = .budget limit) ∧
      n = { m with solver := { m.solver with processed := m.solver.processed + 1 } } := by
  unfold count at h
  rw [modifySolver_bind_apply] at h
  cases hlimit : env.options.maxWorkItems with
  | none =>
      simp only [hlimit] at h
      cases h
  | some limit =>
      simp only [hlimit] at h
      rw [get_bind_apply] at h
      split at h <;> cases h
      exact ⟨⟨limit, rfl⟩, rfl⟩

/-- A round of the main loop that fails leaves the state of a moment, unless it exceeds the
budget. -/
theorem Occurs.of_process_error {w : WorkItem} {rest : List WorkItem}
    (h : Occurs P env entries start ⟨m, none⟩) (hq : m.solver.queue = w :: rest)
    (hw : w.Exists m.solver.settled)
    (hfail : process P env w { m with solver := { m.solver with queue := rest } } = .error e n) :
    Arises P env entries start n ∨
      (∃ limit, e = .budget limit) ∧ Exceeds P env entries start n := by
  have htaken := h.take hq
  unfold process at hfail
  rcases bind_eq_error.1 hfail with hfail | ⟨_, u, hcount, hfail⟩
  · obtain ⟨hlimit, hn⟩ := count_eq_error hfail
    exact .inr ⟨hlimit, m, w, rest, h, hq, hn⟩
  obtain rfl := count_ok hcount
  cases w with
  | pointsTo ptr os =>
      exact .inl (of_processPointsTo_error (m := m.counted rest) htaken hfail hw)
  | call edge =>
      refine .inl (of_processCall_error (m := m.counted rest) (fun hnew => ?_) hfail hw)
      rwa [taken_call (m := m) hnew] at htaken

/-- A round of the main loop that succeeds leads to a moment. -/
theorem Occurs.of_process {w : WorkItem} {rest : List WorkItem}
    (h : Occurs P env entries start ⟨m, none⟩) (hq : m.solver.queue = w :: rest)
    (hw : w.Exists m.solver.settled)
    (hp : process P env w { m with solver := { m.solver with queue := rest } } = .ok ⟨⟩ n) :
    Occurs P env entries start ⟨n, none⟩ :=
  (h.take hq).acts (process_acts hp hw)

/-! ### Entering -/

/-- A moment at which an entry method can be entered: the empty context exists. -/
structure Ready (P : Plugin σ) (env : Setting) (entries : List MethodId) (start m : Machine σ) :
    Prop where
  occurs : Occurs P env entries start ⟨m, none⟩
  empty : m.solver.contexts.Has emptyContext

/-- When the plugins were told of the start, nothing is lost yet. -/
theorem ready_of_start (entries : List MethodId) (hempty : start.solver.contexts.Has emptyContext)
    (h : tell P env .start start = .ok ⟨⟩ m) : Ready P env entries start m := by
  have hacts := tell_acts h trivial
  exact ⟨Occurs.start.acts hacts, hempty.of_grows hacts.accretes.contexts⟩

/-- After an entry method was entered, the next one can be. -/
theorem Ready.of_reach {i : MethodId} (h : Ready P env entries start m) (hi : i ∈ entries)
    (hr : reach P env ⟨emptyContext, i⟩ m = .ok ⟨⟩ n) : Ready P env entries start n :=
  ⟨(h.occurs.enter hi).acts (acts_of_reach hr h.empty),
    h.empty.of_grows (extends_of_reach hr h.empty).settled.contexts⟩

/-- Once the entry methods are entered there is a moment. -/
theorem occurs_of_enter (hempty : start.solver.contexts.Has emptyContext)
    (h : enter P env entries start = .ok ⟨⟩ n) : Occurs P env entries start ⟨n, none⟩ := by
  obtain ⟨u, hu, hn⟩ := enter_ok h
  have hready := (forM_rel
    (R := fun m n => Ready P env entries start m → Ready P env entries start n)
    (fun _ => id) (fun hst htu hs => htu (hst hs)) hn
    fun i hi _ _ _ hr hm => hm.of_reach hi hr).1
  exact (hready (ready_of_start entries hempty hu)).occurs

/-- And so there is if that fails. -/
theorem occurs_of_enter_error (hempty : start.solver.contexts.Has emptyContext)
    (h : enter P env entries start = .error e n) :
    ∃ talk, Occurs P env entries start ⟨n, talk⟩ := by
  unfold enter at h
  rcases bind_eq_error.1 h with h | ⟨⟨⟩, u, hu, h⟩
  · exact Occurs.start.of_tell_error h trivial
  · obtain ⟨i, hi, v, hready, hfail⟩ := forM_rel_error
      (R := fun m n => Ready P env entries start m → Ready P env entries start n)
      (fun _ => id) (fun hst htu hs => htu (hst hs)) h
      fun i hi _ _ _ hr hm => hm.of_reach hi hr
    have hv := hready (ready_of_start entries hempty hu)
    exact (hv.occurs.enter hi).of_reach_error hfail hv.empty

/-! ### The main loop -/

/-- The stages of a grounded run are among its moments. -/
theorem occurs_of_visits (hg : Grounded P env entries start)
    (hempty : start.solver.contexts.Has emptyContext) {stage : Stage σ}
    (h : Visits P env entries start stage) : Occurs P env entries start ⟨stage.machine, none⟩ :=
  h.keeps (I := fun m => Occurs P env entries start ⟨m, none⟩) hg
    (fun _ hm => occurs_of_enter hempty hm) (fun h hq hw hp => h.of_process hq hw hp)
    fun h ht => h.acts (tell_acts ht trivial)

/-- A part of a run leaves the state of a moment, unless it exceeds the budget; and if it comes to
its end, the run goes on from there. -/
structure Leaves (P : Plugin σ) (env : Setting) (entries : List MethodId) (start : Machine σ)
    (told : Bool) (left : Outcome × Machine σ) : Prop where
  arises : Arises P env entries start left.2 ∨
    (∃ limit, left.1 = .failed (.budget limit)) ∧ Exceeds P env entries start left.2
  finished : left.1 = .finished →
    Occurs P env entries start ⟨left.2, none⟩ ∧ Visits P env entries start ⟨told, left.2⟩

theorem leaves_drain (hg : Grounded P env entries start) {told : Bool} (steps : Nat)
    (hvisits : Visits P env entries start ⟨told, m⟩) (h : Occurs P env entries start ⟨m, none⟩) :
    Leaves P env entries start told (drain P env steps m) := by
  induction steps generalizing m with
  | zero =>
      unfold drain
      split
      · exact ⟨.inl ⟨none, h⟩, fun _ => ⟨h, hvisits⟩⟩
      · exact ⟨.inl ⟨none, h⟩, by simp⟩
  | succ steps ih =>
      unfold drain
      split
      · exact ⟨.inl ⟨none, h⟩, fun _ => ⟨h, hvisits⟩⟩
      · rename_i w rest hq
        have hw := hg _ hvisits _ _ hq
        dsimp only
        split
        · rename_i u hu
          exact ih (hvisits.precedes (.single (.work hq hu))) (h.of_process hq hw hu)
        · rename_i hu
          refine ⟨(h.of_process_error hq hw hu).imp_right ?_, by simp⟩
          rintro ⟨⟨limit, rfl⟩, hexceeds⟩
          exact ⟨⟨limit, rfl⟩, hexceeds⟩

theorem leaves_settle (hg : Grounded P env entries start) (told : Bool) (steps : Nat)
    {x : MachineM σ Unit}
    (hok : ∀ u, x m = .ok ⟨⟩ u →
      Occurs P env entries start ⟨u, none⟩ ∧ Visits P env entries start ⟨told, u⟩)
    (herror : ∀ e u, x m = .error e u → ∃ talk, Occurs P env entries start ⟨u, talk⟩) :
    Leaves P env entries start told (settle P env steps x m) := by
  unfold settle
  split
  · rename_i u hu
    obtain ⟨hoccurs, hvisits⟩ := hok u hu
    exact leaves_drain hg steps hvisits hoccurs
  · rename_i e u hu
    exact ⟨.inl (herror e u hu), by simp⟩

/-- However a run ends and after however many steps it is stopped, it leaves the state of one of
its moments, unless it exceeds its budget; then the fact that was counted last is missing. -/
theorem arises_of_solve (hg : Grounded P env entries start)
    (hempty : start.solver.contexts.Has emptyContext) {steps : Nat} {outcome : Outcome}
    (h : solve P env steps entries start = (outcome, n)) :
    Arises P env entries start n ∨
      (∃ limit, outcome = .failed (.budget limit)) ∧ Exceeds P env entries start n := by
  have hfirst : Leaves P env entries start false (settle P env steps (enter P env entries) start) :=
    leaves_settle hg false steps (fun u hu => ⟨occurs_of_enter hempty hu, u, hu, .refl⟩)
      fun _ _ => occurs_of_enter_error hempty
  unfold solve at h
  split at h
  · rename_i m hm
    rw [hm] at hfirst
    obtain ⟨hoccurs, hvisits⟩ := hfirst.finished rfl
    obtain ⟨_, _, _, hq⟩ := precedes_of_settle false hm
    have hlast : Leaves P env entries start true
        (settle P env steps (tell P env .finish) m) := by
      refine leaves_settle hg true steps (fun u hu => ⟨?_, ?_⟩) fun e u hu => ?_
      · exact hoccurs.acts (tell_acts hu trivial)
      · exact hvisits.precedes (.single (.finish hq hu))
      · exact hoccurs.of_tell_error hu trivial
    rw [h] at hlast
    exact hlast.arises
  · rw [h] at hfirst
    exact hfirst.arises

end Machine

/-! ## Analyses -/

namespace Analysis

variable {a : Analysis} {p : Program} {files : Reflection.Files} {entries : List MethodId}

/-- A state that the run of an analysis from entry methods goes through. -/
def Arises (a : Analysis) (p : Program) (files : Reflection.Files) (entries : List MethodId)
    (m : Machine Member) : Prop :=
  ∃ members, a.members p files = .ok members ∧
    Machine.Arises Member.plugin (a.setting p) entries (.new members) m

/-- The stages of the run of an analysis are states that it goes through. -/
theorem arises_of_visits (hb : p.Built) {members : List Member}
    (hmembers : a.members p files = .ok members)
    (hextra : ∀ m ∈ a.extra, m.Sound p ({} : Solver).settled) {stage : Machine.Stage Member}
    (h : Machine.Visits Member.plugin (a.setting p) entries (.new members) stage) :
    a.Arises p files entries stage.machine :=
  ⟨members, hmembers, none, Machine.occurs_of_visits (Analysis.grounded hb hmembers hextra)
    Machine.has_emptyContext h⟩

/-- The run of an analysis leaves a state that it went through, however it ends, unless it exceeds
its budget. -/
theorem arises_of_solve (hb : p.Built) {members : List Member}
    (hmembers : a.members p files = .ok members)
    (hextra : ∀ m ∈ a.extra, m.Sound p ({} : Solver).settled) {steps : Nat} {outcome : Outcome}
    {m : Machine Member}
    (hsolve : Machine.solve Member.plugin (a.setting p) steps entries (.new members) =
      (outcome, m)) :
    a.Arises p files entries m ∨ ∃ limit, outcome = .failed (.budget limit) :=
  (Machine.arises_of_solve (Analysis.grounded hb hmembers hextra) Machine.has_emptyContext
    hsolve).imp (fun h => ⟨members, hmembers, h⟩) And.left

/-- In particular the state of a result is one that the run went through. -/
theorem arises_of_runFrom (hb : p.Built) (hextra : ∀ m ∈ a.extra, m.Sound p ({} : Solver).settled)
    {steps : Nat} {result : Result}
    (hrun : a.runFrom steps p files entries = .finished result) :
    ∃ m, a.Arises p files entries m ∧ m.solver = result.solver := by
  obtain ⟨members, m, hmembers, hsolve, rfl⟩ := Analysis.solve_of_runFrom hrun
  rcases arises_of_solve hb hmembers hextra hsolve with h | ⟨_, h⟩
  · exact ⟨m, h, rfl⟩
  · cases h

/-- A state that the run of an analysis from entry methods gets into: one that it goes through, or
the one that it leaves when it exceeds its budget. -/
def Attains (a : Analysis) (p : Program) (files : Reflection.Files) (entries : List MethodId)
    (m : Machine Member) : Prop :=
  ∃ members, a.members p files = .ok members ∧
    (Machine.Arises Member.plugin (a.setting p) entries (.new members) m ∨
      Machine.Exceeds Member.plugin (a.setting p) entries (.new members) m)

/-- However a run ends and after however many steps it is stopped, it leaves a state that it has
got into. -/
theorem attains_of_solve (hb : p.Built) {members : List Member}
    (hmembers : a.members p files = .ok members)
    (hextra : ∀ m ∈ a.extra, m.Sound p ({} : Solver).settled) {steps : Nat} {outcome : Outcome}
    {m : Machine Member}
    (hsolve : Machine.solve Member.plugin (a.setting p) steps entries (.new members) =
      (outcome, m)) :
    a.Attains p files entries m :=
  ⟨members, hmembers, (Machine.arises_of_solve (Analysis.grounded hb hmembers hextra)
    Machine.has_emptyContext hsolve).imp_right And.right⟩

/-- In particular so does a run of the provided members on a program that was built. -/
theorem attains_of_members (ds : List Declaration) (hbuild : (Builder.ofList ds).build = .ok p)
    (hextra : a.extra = []) {members : List Member} (hmembers : a.members p files = .ok members)
    (steps : Nat) (entries : List MethodId) : a.Attains p files entries
      (Machine.solve Member.plugin (a.setting p) steps entries (.new members)).2 :=
  attains_of_solve (Program.built_of_build (Builder.numbered_ofList ds) hbuild) hmembers
    (by simp [hextra]) rfl

/-- What holds in all states that a run goes through holds in all that it gets into, if it still
holds when a fact is taken from the queue and only counted. -/
theorem Attains.keeps {Q : Machine Member → Prop} {m : Machine Member}
    (h : a.Attains p files entries m) (harises : ∀ m, a.Arises p files entries m → Q m)
    (hcounted : ∀ m w rest, m.solver.queue = w :: rest → Q m → Q (m.counted rest)) : Q m := by
  obtain ⟨members, hmembers, h | ⟨n, w, rest, h, hq, rfl⟩⟩ := h
  · exact harises m ⟨members, hmembers, h⟩
  · exact hcounted n w rest hq (harises n ⟨members, hmembers, none, h⟩)

end Analysis

end PointsTo
