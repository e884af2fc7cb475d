import Mathlib.Logic.Relation
import PointsTo.Proofs.Failures
import PointsTo.Proofs.WorklistSteps
import PointsTo.Solver.Machine

/-!
# Relations that hold across runs, whether or not they fail

All that the working in of a fact does is made of a few kinds of steps.  A relation of machines
that holds across each of them, and is reflexive and transitive, holds across whole rounds, also
across those that fail.

Main results:

- {lit}`CallGraph.Lengthens`: what becomes of the call graph.
- {lit}`Machine.Spans`: the relation holds across every step.
- Theorems {lit}`Machine.Spans.processPointsTo`, {lit}`Machine.Spans.processCall`,
  {lit}`Machine.Spans.enter`: it holds across all that these steps make up.
- Theorem {lit}`Machine.Spans.solve`: it holds across a whole run, however the run ends.
- Theorem {lit}`Machine.solve_of_le`: more steps change nothing for a run that has ended.
- Theorem {lit}`Machine.Spans.solve_mono`: the relation holds between what is left after some
  number of steps and after a greater one.
-/

namespace PointsTo

variable {σ α : Type} {P : Plugin σ} {env : Setting}

/-! ## Call graphs -/

namespace CallGraph

/-- Nothing but additions at the end of its lists makes one call graph of the other. -/
structure Lengthens (g h : CallGraph) : Prop where
  reachable : g.reachable.toList <+: h.reachable.toList
  reachableIn : g.reachableIn.toList <+: h.reachableIn.toList
  edges : g.edges.toList <+: h.edges.toList

/-- Call graphs may be lengthened step by step. -/
instance isPreorder_lengthens : IsPreorder CallGraph Lengthens where
  refl _ := ⟨List.prefix_rfl, List.prefix_rfl, List.prefix_rfl⟩
  trans _ _ _ h k :=
    ⟨h.reachable.trans k.reachable, h.reachableIn.trans k.reachableIn, h.edges.trans k.edges⟩

/-- A reachable method lengthens a call graph. -/
theorem lengthens_addReachable (g : CallGraph) (m : MethodId) : g.Lengthens (g.addReachable m) :=
  ⟨g.reachable.prefix_insert m, List.prefix_rfl, List.prefix_rfl⟩

/-- So does one under a context. -/
theorem lengthens_addReachableIn (g : CallGraph) (m : QMethod) :
    g.Lengthens (g.addReachableIn m) :=
  ⟨List.prefix_rfl, g.reachableIn.prefix_insert m, List.prefix_rfl⟩

/-- So does a call edge. -/
theorem lengthens_addEdge (g : CallGraph) (e : CallEdge) : g.Lengthens (g.addEdge e) :=
  ⟨List.prefix_rfl, List.prefix_rfl, g.edges.prefix_insert e⟩

end CallGraph

/-! ## Plugins -/

/-- Facts accrete when plugins are told of an event, also if one of them fails. -/
theorem Plugin.accretes_left_tell (P : Plugin σ) (env : Setting) (e : Event) (ps : List σ)
    (s : Solver) : s.Accretes (left (P.tell env e ps s)).1 := by
  induction ps generalizing s with
  | nil => exact .refl s
  | cons p ps ih =>
      have hreact := Service.accretes_left env (P.react env e p) s
      unfold Plugin.tell
      cases h : (P.react env e p).run env s with
      | error err t =>
          rw [h] at hreact
          exact hreact
      | ok q t =>
          rw [h] at hreact
          have hrest := ih t
          dsimp only
          cases h' : P.tell env e ps t with
          | error err x =>
              rw [h'] at hrest
              exact hreact.trans hrest
          | ok y x =>
              rw [h'] at hrest
              exact hreact.trans hrest

namespace Machine

/-- What is left of a machine is what its plugins leave. -/
theorem left_tell (P : Plugin σ) (env : Setting) (e : Event) (m : Machine σ) :
    left (tell P env e m) =
      ⟨(left (P.tell env e m.plugins m.solver)).1, (left (P.tell env e m.plugins m.solver)).2⟩ := by
  unfold tell
  cases P.tell env e m.plugins m.solver <;> rfl

/-! ## Steps -/

/-- The relation holds across every step that the working in of facts is made of. -/
structure Spans (P : Plugin σ) (env : Setting) (R : Machine σ → Machine σ → Prop) : Prop where
  preorder : IsPreorder (Machine σ) R
  told : ∀ e, Leads R (tell P env e)
  accretes : ∀ {m : Machine σ} {s}, m.solver.Accretes s → R m { m with solver := s }
  calls : ∀ {m : Machine σ} {calls}, m.solver.calls.Lengthens calls →
    R m { m with solver := { m.solver with calls } }
  merges : ∀ m ptr os,
    R m { m with solver := { m.solver with pointsTo := m.solver.pointsTo.merge ptr os } }

namespace Spans

variable {R : Machine σ → Machine σ → Prop} (h : Spans P env R)

include h

/-- The relation holds across computations on the solver alone. -/
theorem onSolver {x : SolverM α} (hx : Leads Solver.Accretes x) :
    Leads R (onSolver x : MachineM σ α) := by
  intro m
  have hm := hx m.solver
  unfold Machine.onSolver
  cases hrun : x m.solver with
  | ok a s | error e s =>
      rw [hrun] at hm
      exact h.accretes hm

/-- It holds across changes by which the solver accretes. -/
theorem modifySolver {f : Solver → Solver} (hf : ∀ s : Solver, s.Accretes (f s)) :
    Leads R (modifySolver f : MachineM σ Unit) := fun m => h.accretes (hf m.solver)

/-- It holds across changes that lengthen the call graph. -/
theorem modifyCalls {f : CallGraph → CallGraph} (hf : ∀ g : CallGraph, g.Lengthens (f g)) :
    Leads R (Machine.modifySolver fun s => { s with calls := f s.calls } : MachineM σ Unit) :=
  fun m => h.calls (hf m.solver.calls)

/-- It holds when objects reach a pointer and are passed on. -/
theorem propagate (ptr : Pointer) (os : ObjSet) :
    Leads R (Machine.modifySolver fun s => s.propagate env.program ptr os : MachineM σ Unit) := by
  intro m
  have := h.preorder
  exact trans_of R (h.merges m ptr os) (h.accretes (m.solver.accretes_propagate env.program ptr os))

/-! ## Rounds -/

/-- It holds when a method is reached. -/
theorem reach (q : QMethod) : Leads R (reach P env q) := by
  have := h.preorder
  have hbody : Leads R (do
      Machine.onSolver (SolverM.executeBody env q); tell P env (.methodIn q)) :=
    (h.onSolver (SolverM.accretes_left_executeBody env q)).bind fun _ => h.told _
  refine Leads.bind .get fun m => .ite (.pure _) ?_
  refine Leads.bind (h.modifyCalls fun calls => calls.lengthens_addReachableIn q) fun _ =>
    .ite hbody ?_
  refine Leads.bind (h.modifyCalls fun calls => calls.lengthens_addReachable q.item) fun _ => ?_
  exact (h.told _).bind fun _ => hbody

/-- It holds when a call is made. -/
theorem callOn (context : ContextId) (site : InvokeId) (o : QObj) :
    Leads R (callOn P env context site o) := by
  have := h.preorder
  refine Leads.bind (h.onSolver ?_) fun _ => .ite (.pure _) (h.told _)
  exact SolverM.accretes_left_dispatch env context site o

/-- It holds when a variable refers to more. -/
theorem grow (v : QVar) (delta : ObjSet) : Leads R (grow P env v delta) := by
  have := h.preorder
  refine Leads.bind (h.modifySolver fun s => s.accretes_addFlows _ _) fun _ => ?_
  refine Leads.bind ?_ fun _ => h.told _
  exact .forM (fun site => .forM (fun o => h.callOn v.context site o) _) _

/-- The relation holds across the working in of objects. -/
theorem processPointsTo (ptr : Pointer) (os : ObjSet) : Leads R (processPointsTo P env ptr os) := by
  have := h.preorder
  refine Leads.bind .get fun m => Leads.bind (h.propagate ptr os) fun _ => ?_
  cases ptr with
  | var v => exact .ite (.pure _) (h.grow v _)
  | field | static | array => exact .pure _

/-- It holds across the working in of a call edge. -/
theorem processCall (e : CallEdge) : Leads R (processCall P env e) := by
  have := h.preorder
  refine Leads.bind .get fun m => .ite (.pure _) ?_
  refine Leads.bind (h.modifyCalls fun calls => calls.lengthens_addEdge e) fun _ => ?_
  refine (h.reach e.callee).bind fun _ => .ite ?_ (h.told _)
  exact Leads.bind (h.modifySolver fun s => s.accretes_addFlows _ _) fun _ => h.told _

/-- It holds across all that precedes the first round. -/
theorem enter (entries : List MethodId) : Leads R (enter P env entries) := by
  have := h.preorder
  exact (h.told _).bind fun _ => .forM (fun _ => h.reach _) _

/-! ## Runs -/

section Runs

variable (htaken : ∀ (m : Machine σ) queue processed,
  R m { m with solver := { m.solver with queue, processed } })

include htaken

/-- It holds when a fact is counted. -/
theorem count : Leads R (count env : MachineM σ Unit) := by
  have := h.preorder
  have hcounted : Leads R (Machine.modifySolver fun s => { s with processed := s.processed + 1 } :
      MachineM σ Unit) := fun m => htaken m m.solver.queue _
  refine Leads.bind hcounted fun _ => ?_
  split
  · exact Leads.bind .get fun _ => .ite (.throw _) (.pure _)
  · exact .pure _

/-- The relation holds across whole rounds if it does across the taking of a fact. -/
theorem process (w : WorkItem) : Leads R (process P env w) := by
  have := h.preorder
  refine (h.count htaken).bind fun _ => ?_
  cases w with
  | pointsTo ptr os => exact h.processPointsTo ptr os
  | call e => exact h.processCall e

/-- It holds across the main loop. -/
theorem drain (steps : Nat) (m : Machine σ) : R m (drain P env steps m).2 := by
  have := h.preorder
  induction steps generalizing m with
  | zero =>
      unfold Machine.drain
      split <;> exact refl_of R m
  | succ steps ih =>
      unfold Machine.drain
      split
      · exact refl_of R m
      · rename_i w rest hq
        have htake := htaken m rest m.solver.processed
        have hround := h.process htaken w { m with solver := { m.solver with queue := rest } }
        dsimp only
        split
        · rename_i n hn
          rw [hn] at hround
          exact trans_of R htake (trans_of R hround (ih n))
        · rename_i n hn
          rw [hn] at hround
          exact trans_of R htake hround

/-- It holds across a settling. -/
theorem settle (steps : Nat) {x : MachineM σ Unit} (hx : Leads R x) (m : Machine σ) :
    R m (settle P env steps x m).2 := by
  have := h.preorder
  have hleft := hx m
  unfold Machine.settle
  split
  · rename_i n hn
    rw [hn] at hleft
    exact trans_of R hleft (h.drain htaken steps n)
  · rename_i n hn
    rw [hn] at hleft
    exact hleft

/-- And it then holds across a whole run, however the run ends. -/
theorem solve (steps : Nat) (entries : List MethodId) (m : Machine σ) :
    R m (solve P env steps entries m).2 := by
  have := h.preorder
  have hfirst := h.settle htaken steps (h.enter entries) m
  unfold Machine.solve
  split
  · rename_i n hn
    rw [hn] at hfirst
    exact trans_of R hfirst (h.settle htaken steps (h.told .finish) n)
  · exact hfirst

end Runs

end Spans

/-! ## More steps -/

/-- The main loop that has ended within some number of steps ends in the same way within any
greater one. -/
theorem drain_of_le {k l : Nat} (hkl : k ≤ l) {m : Machine σ}
    (h : (drain P env k m).1 ≠ .unfinished) : drain P env l m = drain P env k m := by
  induction k generalizing l m with
  | zero =>
      unfold drain at h ⊢
      split at h
      · rfl
      · exact absurd rfl h
  | succ k ih =>
      obtain ⟨l, rfl⟩ := Nat.exists_eq_add_one_of_ne_zero (by omega : l ≠ 0)
      unfold drain at h ⊢
      split
      · rfl
      · rename_i hq
        simp only [hq] at h
        dsimp only
        split
        · rename_i hn
          simp only [hn] at h
          exact ih (by omega) h
        · rfl

/-- A settling that has ended is the same with more steps. -/
theorem settle_of_le {k l : Nat} (hkl : k ≤ l) {x : MachineM σ Unit} {m : Machine σ}
    (h : (settle P env k x m).1 ≠ .unfinished) : settle P env l x m = settle P env k x m := by
  unfold settle at h ⊢
  split
  · rename_i hn
    rw [hn] at h
    exact drain_of_le hkl h
  · rfl

/-- A run that has ended within some number of steps ends in the same way within any greater
one. -/
theorem solve_of_le {k l : Nat} (hkl : k ≤ l) {entries : List MethodId} {m : Machine σ}
    (h : (solve P env k entries m).1 ≠ .unfinished) :
    solve P env l entries m = solve P env k entries m := by
  have hfirst : (settle P env k (enter P env entries) m).1 ≠ .unfinished := by
    intro hunfinished
    refine h ?_
    unfold solve
    split
    · rename_i hn
      rw [hn] at hunfinished
      cases hunfinished
    · exact hunfinished
  unfold solve at h ⊢
  rw [settle_of_le hkl hfirst]
  split
  · rename_i hn
    rw [hn] at h
    exact settle_of_le hkl h
  · rfl

namespace Spans

variable {R : Machine σ → Machine σ → Prop} (h : Spans P env R)
  (htaken : ∀ (m : Machine σ) queue processed,
    R m { m with solver := { m.solver with queue, processed } })

include h htaken

/-- With more steps the main loop goes on from where it stopped. -/
theorem drain_mono {k l : Nat} (hkl : k ≤ l) (m : Machine σ) :
    R (Machine.drain P env k m).2 (Machine.drain P env l m).2 := by
  have := h.preorder
  induction k generalizing l m with
  | zero =>
      have hzero : (Machine.drain P env 0 m).2 = m := by
        unfold Machine.drain
        split <;> rfl
      rw [hzero]
      exact h.drain htaken l m
  | succ k ih =>
      obtain ⟨l, rfl⟩ := Nat.exists_eq_add_one_of_ne_zero (by omega : l ≠ 0)
      unfold Machine.drain
      split
      · exact refl_of R m
      · dsimp only
        split
        · exact ih (by omega) _
        · exact refl_of R _

/-- A settling with more steps goes on from one with fewer. -/
theorem settle_mono {k l : Nat} (hkl : k ≤ l) (x : MachineM σ Unit) (m : Machine σ) :
    R (Machine.settle P env k x m).2 (Machine.settle P env l x m).2 := by
  have := h.preorder
  unfold Machine.settle
  split
  · exact h.drain_mono htaken hkl _
  · exact refl_of R _

/-- And so does a whole run. -/
theorem solve_mono {k l : Nat} (hkl : k ≤ l) (entries : List MethodId) (m : Machine σ) :
    R (Machine.solve P env k entries m).2 (Machine.solve P env l entries m).2 := by
  have := h.preorder
  by_cases hend : (Machine.settle P env k (Machine.enter P env entries) m).1 = .unfinished
  · -- the run is stopped before the first fixpoint
    have hstopped : (Machine.solve P env k entries m).2 =
        (Machine.settle P env k (Machine.enter P env entries) m).2 := by
      unfold Machine.solve
      split
      · rename_i hn
        rw [hn] at hend
        cases hend
      · rfl
    have hmore := h.settle_mono htaken hkl (Machine.enter P env entries) m
    rw [hstopped]
    unfold Machine.solve
    split
    · rename_i n hn
      rw [hn] at hmore
      exact trans_of R hmore (h.settle htaken l (h.told .finish) n)
    · exact hmore
  · unfold Machine.solve
    rw [settle_of_le hkl hend]
    split
    · exact h.settle_mono htaken hkl _ _
    · exact refl_of R _

end Spans

end Machine

end PointsTo
