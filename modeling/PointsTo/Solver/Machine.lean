import PointsTo.Plugin
import PointsTo.Solver.Rules

/-!
# Running to a fixpoint

A machine is the state of a run together with the states of its plugins.  It
takes one fact at a time from the queue, works it in by the rules and tells the
plugins what has happened, until no fact is left.

Whether the queue ever runs empty depends on the plugins.  The loop therefore
takes a number of steps after which it stops unfinished; a run that ends within
some number of steps ends in the same way within any greater one.

Main definitions:

- {lit}`Machine.process`: work one fact in.
- {lit}`Machine.drain`: empty the queue.
- {lit}`Machine.solve`: a run from its entry methods.
-/

namespace PointsTo

/-- The state of a run and of the plugins that watch it. -/
structure Machine (σ : Type) where
  solver : Solver
  plugins : List σ

/-- Computations on a machine.  What was done before a failure stays. -/
abbrev MachineM (σ : Type) := EStateM Error (Machine σ)

/-- How a run ends. -/
inductive Outcome where
  | finished
  | failed (e : Error)
  /-- The queue was not empty after the given number of steps. -/
  | unfinished
deriving DecidableEq

namespace Machine

variable {σ : Type}

/-- A machine that has not run yet. -/
def new (plugins : List σ) : Machine σ := ⟨{}, plugins⟩

/-- A computation on the state of the run alone. -/
def onSolver {α : Type} (x : SolverM α) : MachineM σ α := fun m =>
  match x m.solver with
  | .ok a s => .ok a { m with solver := s }
  | .error e s => .error e { m with solver := s }

/-- A change of the solver beside the plugins. -/
def modifySolver (f : Solver → Solver) : MachineM σ Unit :=
  modify fun m => { m with solver := f m.solver }

/-- Tell all plugins of an event. -/
def tell (P : Plugin σ) (env : Setting) (e : Event) : MachineM σ Unit := fun m =>
  match P.tell env e m.plugins m.solver with
  | .ok _ (s, ps) => .ok () ⟨s, ps⟩
  | .error err (s, ps) => .error err ⟨s, ps⟩

/-! ## Working facts in -/

variable (P : Plugin σ) (env : Setting)

/-- A method is reachable under a context. -/
def reach (m : QMethod) : MachineM σ Unit := do
  let calls := (← get).solver.calls
  if calls.isReachableIn m then
    return ()
  modifySolver fun s => { s with calls := s.calls.addReachableIn m }
  unless calls.isReachable m.item do
    modifySolver fun s => { s with calls := s.calls.addReachable m.item }
    tell P env (.method m.item)
  onSolver (SolverM.executeBody env m)
  tell P env (.methodIn m)

/-- A call site is resolved on an object, by dispatch or else by the plugins. -/
def callOn (context : ContextId) (site : InvokeId) (o : QObj) : MachineM σ Unit := do
  let resolved ← onSolver (SolverM.dispatch env context site o)
  unless resolved do
    tell P env (.unresolved o context site)

/-- A variable may refer to the objects of {lit}`delta`, which are new to it. -/
def grow (v : QVar) (delta : ObjSet) : MachineM σ Unit := do
  modifySolver fun s =>
    s.addFlows env.program (delta.toList.flatMap (accessEdges env.program s.heap v))
  (env.program.var v.item).uses.invokes.forM fun site =>
    delta.toList.forM fun o => callOn P env v.context site o
  tell P env (.grown v delta)

/-- Objects reach a pointer. -/
def processPointsTo (ptr : Pointer) (os : ObjSet) : MachineM σ Unit := do
  let delta := (← get).solver.delta ptr os
  modifySolver fun s => s.propagate env.program ptr os
  match ptr with
  | .var v => unless delta.isEmpty do grow P env v delta
  | _ => return ()

/-- A call edge is found; a known one is passed over. -/
def processCall (e : CallEdge) : MachineM σ Unit := do
  if e ∈ (← get).solver.calls.edges then
    return ()
  modifySolver fun s => { s with calls := s.calls.addEdge e }
  reach P env e.callee
  if e.kind.isOrdinary then
    modifySolver fun s => s.addFlows env.program (ordinaryWiring env.program e)
  tell P env (.edge e)

/-- Count one fact; a run with a budget fails when it is exceeded. -/
def count : MachineM σ Unit := do
  modifySolver fun s => { s with processed := s.processed + 1 }
  match env.options.maxWorkItems with
  | some limit => if limit < (← get).solver.processed then throw (.budget limit)
  | none => return ()

/-- Work one fact in. -/
def process (w : WorkItem) : MachineM σ Unit := do
  count env
  match w with
  | .pointsTo ptr os => processPointsTo P env ptr os
  | .call e => processCall P env e

/-! ## Runs -/

/-- Work facts in until the queue is empty, in at most {lit}`steps` steps. -/
def drain : Nat → Machine σ → Outcome × Machine σ
  | steps, m =>
    match m.solver.queue with
    | [] => (.finished, m)
    | w :: rest =>
      match steps with
      | 0 => (.unfinished, m)
      | steps + 1 =>
        match process P env w { m with solver := { m.solver with queue := rest } } with
        | .ok _ m => drain steps m
        | .error e m => (.failed e, m)

/-- What precedes the first step: the entry methods are reachable under the
empty context. -/
def enter (entries : List MethodId) : MachineM σ Unit := do
  tell P env .start
  entries.forM fun m => reach P env ⟨emptyContext, m⟩

/-- A computation, and the queue emptied after it. -/
def settle (steps : Nat) (x : MachineM σ Unit) (m : Machine σ) : Outcome × Machine σ :=
  match x m with
  | .ok _ m => drain P env steps m
  | .error e m => (.failed e, m)

/-- Run from entry methods to a fixpoint, and on to another one after the plugins
were told that the first is reached. -/
def solve (steps : Nat) (entries : List MethodId) (m : Machine σ) : Outcome × Machine σ :=
  match settle P env steps (enter P env entries) m with
  | (.finished, m) => settle P env steps (tell P env .finish) m
  | stopped => stopped

/-! ## Small facts -/

/-- With an empty queue a run is finished. -/
theorem drain_of_queue_eq_nil {m : Machine σ} (h : m.solver.queue = []) (steps : Nat) :
    drain P env steps m = (.finished, m) := by
  unfold drain
  rw [h]

/-- A run is finished only when the queue is empty. -/
theorem queue_eq_nil_of_drain {steps : Nat} {m n : Machine σ}
    (h : drain P env steps m = (.finished, n)) : n.solver.queue = [] := by
  induction steps generalizing m with
  | zero =>
    unfold drain at h
    split at h
    · rename_i hq
      cases h
      exact hq
    · cases h
  | succ steps ih =>
    unfold drain at h
    split at h
    · rename_i hq
      cases h
      exact hq
    · dsimp only at h
      split at h
      · exact ih h
      · cases h

end Machine

/-- A number of steps that a run with these options does not exceed: that of the
budget, and without one what a 64-bit counter of work items can count. -/
def Options.steps (o : Options) : Nat :=
  match o.maxWorkItems with
  | some limit => limit + 1
  | none => bound64

end PointsTo
