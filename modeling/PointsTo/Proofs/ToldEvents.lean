import PointsTo.Proofs.Processing

/-!
# What plugins are told

Plugins are told of events while a method is entered, while a variable comes to refer to more
and when an edge joins the call graph.  What they are told depends only on what is known before
and on the fact that is worked in, not on what the plugins do.

Main results:

- {lit}`Machine.Tells`: some events are told, in this order, and no others.
- {lit}`CallGraph.entering`, {lit}`missedCalls`, {lit}`Solver.news`: the events that follow from
  a method being entered, from new objects, from a fact being worked in.
- Theorem {lit}`Machine.tells_of_process`: one round of the main loop tells just these.
-/

namespace PointsTo

/-! ## Calls without a target -/

section Unresolved

variable {p : Program} {heap heap' : Heap} {site : InvokeId} {o : QObj}

theorem unresolved_iff : Unresolved p heap site o ↔
    receiverTarget? p heap (p.invoke site) o = none ∨
      CallKind.ofInvoke? (p.invoke site).kind = none := by
  unfold Unresolved
  cases receiverTarget? p heap (p.invoke site) o with
  | none => simp
  | some callee => cases CallKind.ofInvoke? (p.invoke site).kind <;> simp

instance : Decidable (Unresolved p heap site o) := decidable_of_iff _ unresolved_iff.symm

/-- Whether a call has a target on an object does not depend on other objects. -/
theorem unresolved_of_grows (ho : heap.Has o.item) (hg : heap.Grows heap') :
    Unresolved p heap' site o ↔ Unresolved p heap site o := by
  unfold Unresolved
  rw [View.receiverTarget?_of_grows _ ho hg]

end Unresolved

/-! ## The events of a round -/

/-- What is told of a call on an object. -/
def missedCall (p : Program) (heap : Heap) (context : ContextId) (site : InvokeId) (o : QObj) :
    List Event :=
  if Unresolved p heap site o then [.unresolved o context site] else []

/-- What is told of the calls on objects that are new to a variable. -/
def missedCalls (p : Program) (heap : Heap) (v : QVar) (delta : ObjSet) : List Event :=
  (p.var v.item).uses.invokes.flatMap fun site =>
    delta.toList.flatMap fun o => missedCall p heap v.context site o

theorem mem_missedCalls {p : Program} {heap : Heap} {v : QVar} {delta : ObjSet} {x : Event}
    (hx : x ∈ missedCalls p heap v delta) :
    ∃ i ∈ (p.var v.item).uses.invokes, ∃ o, x = .unresolved o v.context i := by
  obtain ⟨i, hi, hx⟩ := List.mem_flatMap.1 hx
  obtain ⟨o, _, hx⟩ := List.mem_flatMap.1 hx
  unfold missedCall at hx
  split at hx
  · exact ⟨i, hi, o, List.mem_singleton.1 hx⟩
  · exact absurd hx List.not_mem_nil

/-- What is told when a method is reached: of the method, if it was not reachable under any
context, and of the method under its context, if that is new. -/
def CallGraph.entering (g : CallGraph) (q : QMethod) : List Event :=
  if q ∈ g.reachableIn then []
  else if q.item ∈ g.reachable then [.methodIn q]
  else [.method q.item, .methodIn q]

theorem CallGraph.mem_entering {g : CallGraph} {q : QMethod} {x : Event} (hx : x ∈ g.entering q) :
    x = .method q.item ∨ x = .methodIn q := by
  unfold entering at hx
  split at hx
  · exact absurd hx List.not_mem_nil
  · split at hx
    · exact .inr (List.mem_singleton.1 hx)
    · simpa using hx

/-- What is told when a fact is worked in. -/
def Solver.news (s : Solver) (p : Program) : WorkItem → List Event
  | .pointsTo (.var v) os =>
      if (s.delta (.var v) os).isEmpty then []
      else missedCalls p s.heap v (s.delta (.var v) os) ++ [.grown v (s.delta (.var v) os)]
  | .pointsTo .. => []
  | .call e => if e ∈ s.calls.edges then [] else s.calls.entering e.callee ++ [.edge e]

namespace Machine

variable {σ : Type} {P : Plugin σ} {env : Setting} {m n u : Machine σ}

/-! ## Sequences of events -/

/-- From one state of a machine to another the plugins are told of some events, one after the
other, and of nothing else. -/
inductive Tells (P : Plugin σ) (env : Setting) : List Event → Machine σ → Machine σ → Prop
  | nothing {a b} (h : b.plugins = a.plugins) : Tells P env [] a b
  | event {e a b} (h : tell P env e a = .ok ⟨⟩ b) : Tells P env [e] a b
  | append {es es' a b c} (h : Tells P env es a b) (h' : Tells P env es' b c) :
      Tells P env (es ++ es') a c

/-- What changes only the state of the run may come first. -/
theorem Tells.of_plugins {es : List Event} (h : Tells P env es u n)
    (hplugins : u.plugins = m.plugins) : Tells P env es m n :=
  (Tells.nothing hplugins).append h

/-- A loop tells what its steps tell. -/
theorem tells_forM {α : Type} {f : α → MachineM σ PUnit} {T : α → List Event}
    {I : Machine σ → Prop} {l : List α} (h : l.forM f m = .ok ⟨⟩ n) (hm : I m)
    (hstep : ∀ a ∈ l, ∀ {u w}, I u → f a u = .ok ⟨⟩ w → I w ∧ Tells P env (T a) u w) :
    I n ∧ Tells P env (l.flatMap T) m n := by
  induction l generalizing m with
  | nil =>
      obtain ⟨_, rfl⟩ := pure_eq_ok.1 h
      exact ⟨hm, .nothing rfl⟩
  | cons a l ih =>
      obtain ⟨⟨⟩, u, ha, hl⟩ := bind_eq_ok.1 h
      obtain ⟨hu, hfirst⟩ := hstep a List.mem_cons_self hm ha
      obtain ⟨hn, hrest⟩ := ih hl hu fun b hb => hstep b (List.mem_cons_of_mem _ hb)
      exact ⟨hn, hfirst.append hrest⟩

/-! ## The operations of a machine -/

theorem accretes_of_tell {e : Event} (h : tell P env e m = .ok ⟨⟩ n) :
    m.solver.Accretes n.solver := by
  unfold tell at h
  split at h
  · rename_i s ps hps
    cases h
    exact accretes_of_plugin_tell hps
  · cases h

/-- A call on an object is told of if it has no target. -/
theorem tells_of_callOn {context : ContextId} {site : InvokeId} {o : QObj}
    (h : callOn P env context site o m = .ok ⟨⟩ n) :
    m.solver.Accretes n.solver ∧
      Tells P env (missedCall env.program m.solver.heap context site o) m n := by
  simp only [callOn, bind_eq_ok, onSolver_eq_ok] at h
  obtain ⟨resolved, _, ⟨t, hd, rfl⟩, h⟩ := h
  unfold missedCall
  rcases SolverM.dispatch_ok hd with
    ⟨callee, kind, rfl, hcallee, hkind, hcall⟩ | ⟨rfl, rfl, hnone⟩
  · rw [if_pos rfl, pure_eq_ok] at h
    obtain ⟨_, rfl⟩ := h
    obtain ⟨c, u, hc, rfl⟩ := SolverM.callOn_ok hcall
    have hresolved : ¬ Unresolved env.program m.solver.heap site o := fun hun =>
      hun callee kind hcallee hkind
    rw [if_neg hresolved]
    exact ⟨(SolverM.accretes_callContext hc).trans (Solver.accretes_enterOn _ _ _ _), .nothing rfl⟩
  · rw [if_neg Bool.false_ne_true] at h
    rw [if_pos (show Unresolved env.program m.solver.heap site o from hnone)]
    exact ⟨accretes_of_tell h, .event h⟩

/-- When a variable refers to more, the calls without a target are told of, and then the
variable. -/
theorem tells_of_grow {v : QVar} {delta : ObjSet} (h : grow P env v delta m = .ok ⟨⟩ n)
    (hobj : ∀ o ∈ delta, m.solver.heap.Has o.item) :
    Tells P env (missedCalls env.program m.solver.heap v delta ++ [.grown v delta]) m n := by
  simp only [grow, bind_eq_ok, modifySolver_eq_ok] at h
  obtain ⟨_, m₁, hm₁, ⟨⟩, m₂, hloop, htell⟩ := h
  have hheap : m.solver.heap.Grows m₁.solver.heap := by
    rw [hm₁]
    exact (Solver.accretes_addFlows _ _ _).heap
  suffices hcalls : Tells P env (missedCalls env.program m.solver.heap v delta) m₁ m₂ from
    (hcalls.append (.event htell)).of_plugins (by rw [hm₁])
  -- the objects are known before the loop, so the heap of any later state will do
  refine (tells_forM (I := fun u => m.solver.heap.Grows u.solver.heap) hloop hheap ?_).2
  intro site _ a b ha hinner
  refine tells_forM (I := fun u => m.solver.heap.Grows u.solver.heap) hinner ha ?_
  intro o ho u w hu hcall
  obtain ⟨haccretes, htells⟩ := tells_of_callOn hcall
  refine ⟨hu.trans haccretes.heap, ?_⟩
  simpa only [missedCall, unresolved_of_grows (hobj o ho) hu] using htells

/-- When a method is reached, it is told of if it is new. -/
theorem tells_of_reach {q : QMethod} (h : reach P env q m = .ok ⟨⟩ n) :
    Tells P env (m.solver.calls.entering q) m n := by
  simp only [reach, bind_eq_ok, get_eq_ok] at h
  obtain ⟨_, _, ⟨rfl, rfl⟩, h⟩ := h
  unfold CallGraph.entering
  by_cases hknown : q ∈ m.solver.calls.reachableIn
  · rw [if_pos (CallGraph.isReachableIn_iff.2 hknown), pure_eq_ok] at h
    rw [if_pos hknown]
    exact .nothing (by rw [h.2])
  · rw [if_neg (fun h => hknown (CallGraph.isReachableIn_iff.1 h)), bind_eq_ok] at h
    obtain ⟨_, m₁, hm₁, h⟩ := h
    obtain rfl := modifySolver_eq_ok.1 hm₁
    rw [if_neg hknown]
    by_cases hitem : q.item ∈ m.solver.calls.reachable
    · rw [if_pos (CallGraph.isReachable_iff.2 hitem)] at h
      simp only [bind_eq_ok, onSolver_eq_ok] at h
      obtain ⟨_, _, ⟨t, _, rfl⟩, htell⟩ := h
      rw [if_pos hitem]
      exact (Tells.event htell).of_plugins rfl
    · rw [if_neg (fun h => hitem (CallGraph.isReachable_iff.1 h))] at h
      simp only [bind_eq_ok, onSolver_eq_ok, modifySolver_eq_ok] at h
      obtain ⟨_, m₂, rfl, _, m₃, hmethod, _, _, ⟨t, _, rfl⟩, htell⟩ := h
      rw [if_neg hitem]
      exact ((Tells.event hmethod).append ((Tells.event htell).of_plugins rfl)).of_plugins rfl

/-- When an edge is found, its callee is told of and then the edge, if they are new. -/
theorem tells_of_processCall {e : CallEdge} (h : processCall P env e m = .ok ⟨⟩ n) :
    Tells P env (m.solver.news env.program (.call e)) m n := by
  simp only [processCall, bind_eq_ok, get_eq_ok] at h
  obtain ⟨_, _, ⟨rfl, rfl⟩, h⟩ := h
  simp only [Solver.news]
  by_cases hknown : e ∈ m.solver.calls.edges
  · rw [if_pos hknown, pure_eq_ok] at h
    rw [if_pos hknown]
    exact .nothing (by rw [h.2])
  · rw [if_neg hknown, bind_eq_ok] at h
    obtain ⟨_, m₁, hm₁, h⟩ := h
    obtain rfl := modifySolver_eq_ok.1 hm₁
    rw [bind_eq_ok] at h
    obtain ⟨_, m₂, hreach, h⟩ := h
    rw [if_neg hknown]
    have hcallee := tells_of_reach hreach
    suffices hedge : Tells P env [.edge e] m₂ n from (hcallee.append hedge).of_plugins rfl
    by_cases hk : e.kind.isOrdinary = true
    · rw [if_pos hk, bind_eq_ok] at h
      obtain ⟨_, m₃, hm₃, htell⟩ := h
      obtain rfl := modifySolver_eq_ok.1 hm₃
      exact (Tells.event htell).of_plugins rfl
    · rw [if_neg hk] at h
      exact .event h

/-- When objects reach a pointer, calls and the variable are told of, if objects are new to it. -/
theorem tells_of_processPointsTo {ptr : Pointer} {os : ObjSet}
    (h : processPointsTo P env ptr os m = .ok ⟨⟩ n)
    (hobj : ∀ o ∈ os, m.solver.heap.Has o.item) :
    Tells P env (m.solver.news env.program (.pointsTo ptr os)) m n := by
  simp only [processPointsTo, bind_eq_ok, get_eq_ok] at h
  obtain ⟨_, _, ⟨rfl, rfl⟩, _, m₁, hm₁, h⟩ := h
  obtain rfl := modifySolver_eq_ok.1 hm₁
  cases ptr with
  | field | static | array =>
      obtain ⟨_, rfl⟩ := pure_eq_ok.1 h
      exact .nothing rfl
  | var v =>
      simp only [Solver.news]
      by_cases hempty : (m.solver.delta (.var v) os).isEmpty = true
      · simp only [hempty, if_true, pure_eq_ok] at h
        obtain ⟨_, rfl⟩ := h
        rw [if_pos hempty]
        exact .nothing rfl
      · simp only [hempty] at h
        rw [if_neg hempty]
        have hheap : (m.solver.propagate env.program (.var v) os).heap = m.solver.heap :=
          Solver.heap_foldl_forward _ _ _
        have hgrow := tells_of_grow h fun o ho => by
          show (m.solver.propagate env.program (.var v) os).heap.Has o.item
          rw [hheap]
          exact hobj o (OrderedSet.mem_newIn.1 ho).1
        rw [show _ = m.solver.heap from hheap] at hgrow
        exact hgrow.of_plugins rfl

/-- One round of the main loop tells of what is new, and of nothing else. -/
theorem tells_of_process {w : WorkItem} {rest : List WorkItem}
    (h : process P env w { m with solver := { m.solver with queue := rest } } = .ok ⟨⟩ n)
    (hw : w.Exists m.solver.settled) : Tells P env (m.solver.news env.program w) m n := by
  simp only [process, bind_eq_ok] at h
  obtain ⟨_, m₁, hcount, h⟩ := h
  obtain rfl := count_ok hcount
  cases w with
  | pointsTo ptr os =>
      have htells := tells_of_processPointsTo h fun o ho => (hw o ho).1.2
      cases ptr <;> exact htells.of_plugins rfl
  | call e => exact (tells_of_processCall h).of_plugins rfl

end Machine

end PointsTo
