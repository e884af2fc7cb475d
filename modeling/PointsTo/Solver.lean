import PointsTo.CallGraph
import PointsTo.FlowGraph
import PointsTo.Hierarchy
import PointsTo.PointsToMap
import PointsTo.Selector

/-!
# The state of a run

Everything that is known in the course of a run, and the elementary ways in which
it grows.  New points-to facts and new call edges are not worked in at once: they
wait in a queue and are taken from it in the order in which they came.

Main definitions:

- {lit}`Setting`: what is fixed for a run.
- {lit}`Solver`: what grows, with {lit}`addPointsTo`, {lit}`addFlow`, {lit}`addCall`.
- {lit}`Solver.propagate`: work one points-to fact in and pass on what is new.
- {lit}`SolverM`: computations on the state that may fail.
-/

namespace PointsTo

/-- What is fixed for a run. -/
structure Setting where
  program : Program
  options : Options
  selector : Selector

/-- A fact that waits to be worked in. -/
inductive WorkItem where
  | pointsTo (p : Pointer) (os : ObjSet)
  | call (e : CallEdge)

/-- What is known so far. -/
structure Solver where
  contexts : ContextTable := .new
  heap : Heap := .empty
  flow : FlowGraph := .empty
  calls : CallGraph := .empty
  pointsTo : PointsToMap := .empty
  /-- The facts that wait, oldest first. -/
  queue : List WorkItem := []
  /-- The number of facts taken from the queue. -/
  processed : Nat := 0
  /-- What plugins have reported, oldest first. -/
  notes : List String := []

/-- The size of a state, table by table. -/
structure Stats where
  workItems : Nat
  reachableMethods : Nat
  qualifiedMethods : Nat
  callEdges : Nat
  flowEdges : Nat
  objects : Nat
  contexts : Nat
  pointers : Nat
deriving DecidableEq

namespace Solver

instance : Inhabited Solver := ⟨{}⟩

/-- The sizes of what is known. -/
def stats (s : Solver) : Stats where
  workItems := s.processed
  reachableMethods := s.calls.reachable.size
  qualifiedMethods := s.calls.reachableIn.size
  callEdges := s.calls.edges.size
  flowEdges := s.flow.size
  objects := s.heap.size
  contexts := s.contexts.size
  pointers := s.pointsTo.entries.length

/-! ## Growing -/

/-- A fact is to be worked in later on. -/
def enqueue (s : Solver) (w : WorkItem) : Solver := { s with queue := s.queue ++ [w] }

/-- Objects reach a pointer; without objects nothing is queued. -/
def addPointsTo (s : Solver) (p : Pointer) (os : ObjSet) : Solver :=
  if os.isEmpty then s else s.enqueue (.pointsTo p os)

/-- One object reaches a pointer. -/
def addObj (s : Solver) (p : Pointer) (o : QObj) : Solver :=
  s.addPointsTo p (.singleton o)

/-- A call edge is to be worked in later on. -/
def addCall (s : Solver) (e : CallEdge) : Solver := s.enqueue (.call e)

/-- The objects that a filter lets pass: those of a subtype, or all. -/
def passing (s : Solver) (p : Program) (filter : Option JavaType) (os : ObjSet) : ObjSet :=
  match filter with
  | none => os
  | some t => os.filter fun o => p.isSubtype (s.heap.typeOf o.item) t

/-- Objects of the source of an edge reach its target, if the filter lets them. -/
def forward (s : Solver) (p : Program) (os : ObjSet) (e : FlowEdge) : Solver :=
  s.addPointsTo e.target (s.passing p e.filter os)

/-- Add a flow edge; a new one passes on what its source refers to already. -/
def addFlow (s : Solver) (p : Program) (e : FlowEdge) : Solver :=
  if s.flow.contains e then s
  else { s with flow := s.flow.add e }.forward p (s.pointsTo.get e.source) e

/-- Adds flow edges one by one. -/
def addFlows (s : Solver) (p : Program) (es : List FlowEdge) : Solver :=
  es.foldl (fun s e => s.addFlow p e) s

/-- The objects of {lit}`os` that {lit}`ptr` does not refer to yet. -/
def delta (s : Solver) (ptr : Pointer) (os : ObjSet) : ObjSet := os.newIn (s.pointsTo.get ptr)

/-- Merge objects into a pointer and pass the new ones on along its edges. -/
def propagate (s : Solver) (p : Program) (ptr : Pointer) (os : ObjSet) : Solver :=
  (s.flow.outgoing ptr).foldl (fun t e => t.forward p (s.delta ptr os) e)
    { s with pointsTo := s.pointsTo.merge ptr os }

/-- Notes a line. -/
def note (s : Solver) (line : String) : Solver := { s with notes := s.notes ++ [line] }

end Solver

/-! ## Computations that may fail -/

/-- Computations on the state of a run.  What was done before a failure stays. -/
abbrev SolverM := EStateM Error Solver

namespace SolverM

/-- The value of a computation that may fail by itself. -/
def ofExcept {α : Type} : Except Error α → SolverM α
  | .ok a => pure a
  | .error e => throw e

/-- The id of an object, which is new if the object is. -/
def internObj (o : Obj) : SolverM ObjId := do
  let s ← get
  let (i, heap) ← ofExcept (s.heap.intern o)
  set { s with heap }
  return i

/-- The context for a call at a site on a receiver. -/
def callContext (env : Setting) (site : QSite) (receiver : Option QObj) : SolverM ContextId := do
  let s ← get
  let (c, contexts) ← ofExcept
    (env.selector.callContext env.program s.heap s.contexts site receiver)
  set { s with contexts }
  return c

/-- The heap context for an allocation in a method. -/
def heapContext (env : Setting) (method : QMethod) : SolverM ContextId := do
  let s ← get
  let (c, contexts) ← ofExcept (env.selector.heapContext s.contexts method)
  set { s with contexts }
  return c

end SolverM

end PointsTo
