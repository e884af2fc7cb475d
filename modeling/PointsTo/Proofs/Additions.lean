import Mathlib.Logic.Relation
import PointsTo.Proofs.View

/-!
# Additions

Between two facts that are taken from the queue, a state changes only in that
something is added to it: an object, a context, objects on their way to a pointer, a
flow edge, a call edge.  A sequence of additions that follow some rules is the common
form of all that the rules of the analysis and its plugins do.

Main results:

- {lit}`Solver.Adds`, {lit}`Solver.Evolves`: one addition, and sequences of them.
- Theorem {lit}`Solver.Evolves.accretes`: additions leave points-to sets and the call
  graph alone, and put new facts at the end of the queue.
- Theorem {lit}`Solver.Evolves.keeps`: what every addition keeps, a sequence keeps.
-/

namespace PointsTo

/-- Something that is added to what is known. -/
inductive Addition where
  | object (o : Obj)
  | context (c : Context)
  | points (ptr : Pointer) (os : ObjSet)
  | flow (e : FlowEdge)
  /-- A method is called on an object, which reaches its receiver. -/
  | enter (receiver : Option VarId) (o : QObj) (e : CallEdge)
  | call (e : CallEdge)
  | note (line : String)

namespace Solver

variable {p : Program} {s t u : Solver}

/-- An object reaches the receiver of a method, if that has one, and an edge to the
method is queued right behind. -/
def enterOn (s : Solver) (receiver : Option VarId) (o : QObj) (e : CallEdge) : Solver :=
  match receiver with
  | some this => (s.addObj (varPointer e.callee.context this) o).addCall e
  | none => s.addCall e

/-- The second state is the first one after an addition. -/
def Adds (p : Program) : Addition → Solver → Solver → Prop
  | .object o, s, t => ∃ i heap, s.heap.intern o = .ok (i, heap) ∧ t = { s with heap }
  | .context c, s, t =>
      ∃ i contexts, s.contexts.intern c = .ok (i, contexts) ∧ t = { s with contexts }
  | .points ptr os, s, t => t = s.addPointsTo ptr os
  | .flow e, s, t => t = s.addFlow p e
  | .enter receiver o e, s, t => t = s.enterOn receiver o e
  | .call e, s, t => t = s.addCall e
  | .note line, s, t => t = s.note line

/-! ## What additions leave alone -/

/-- Points-to sets and call graph are the same, tables and flow have grown, and what
is new in the queue is at its end. -/
structure Accretes (s t : Solver) : Prop where
  heap : s.heap.Grows t.heap
  contexts : s.contexts.Grows t.contexts
  flow : ∀ {e}, e ∈ s.flow.edges → e ∈ t.flow.edges
  pointsTo : t.pointsTo = s.pointsTo
  calls : t.calls = s.calls
  processed : t.processed = s.processed
  queue : ∃ ws, t.queue = s.queue ++ ws

/-- A state accretes to itself. -/
@[refl] theorem Accretes.refl (s : Solver) : s.Accretes s :=
  ⟨.refl _, .refl _, id, rfl, rfl, rfl, [], (List.append_nil _).symm⟩

/-- Growing twice is growing. -/
theorem Accretes.trans (h : s.Accretes t) (k : t.Accretes u) : s.Accretes u := by
  obtain ⟨ws, hws⟩ := h.queue
  obtain ⟨xs, hxs⟩ := k.queue
  refine ⟨h.heap.trans k.heap, h.contexts.trans k.contexts, fun a => k.flow (h.flow a),
    k.pointsTo.trans h.pointsTo, k.calls.trans h.calls, k.processed.trans h.processed,
    ws ++ xs, ?_⟩
  rw [hxs, hws, List.append_assoc]

/-- What waits goes on waiting while a state accretes. -/
theorem Accretes.mem_queue (h : s.Accretes t) {w : WorkItem} (hw : w ∈ s.queue) :
    w ∈ t.queue := by
  obtain ⟨ws, hws⟩ := h.queue
  rw [hws]
  exact List.mem_append_left _ hw

/-- A state that has accreted facts can come later in a run. -/
theorem Accretes.extends (h : s.Accretes t) : s.Extends t := by
  have hreached : ∀ {m}, m ∈ s.calls.reachableIn → m ∈ t.calls.reachableIn := by
    intro m hm
    simpa only [h.calls] using hm
  refine ⟨⟨h.heap, h.contexts, ?_, h.flow, ?_, hreached⟩,
    ⟨h.heap, h.contexts, ?_, h.flow, ?_, hreached⟩, ?_⟩
  · intro ptr o ho
    simpa only [settled, h.pointsTo] using ho
  · intro e he
    simpa only [settled, h.calls] using he
  · rintro ptr o (ho | ⟨os, hos, ho⟩)
    · exact .inl (by simpa only [h.pointsTo] using ho)
    · exact .inr ⟨os, h.mem_queue hos, ho⟩
  · rintro e (he | he)
    · exact .inl (by simpa only [h.calls] using he)
    · exact .inr (h.mem_queue he)
  · intro m hm
    simpa only [h.calls] using hm

/-! ## Elementary additions -/

/-- A fact may join those that wait. -/
theorem accretes_enqueue (s : Solver) (w : WorkItem) : s.Accretes (s.enqueue w) :=
  ⟨.refl _, .refl _, id, rfl, rfl, rfl, [w], rfl⟩

/-- Objects on their way to a pointer join those that wait. -/
theorem accretes_addPointsTo (s : Solver) (ptr : Pointer) (os : ObjSet) :
    s.Accretes (s.addPointsTo ptr os) := by
  unfold addPointsTo
  split
  · exact .refl s
  · exact accretes_enqueue s _

/-- One object does so too. -/
theorem accretes_addObj (s : Solver) (ptr : Pointer) (o : QObj) : s.Accretes (s.addObj ptr o) :=
  accretes_addPointsTo s ptr _

/-- So does a call edge. -/
theorem accretes_addCall (s : Solver) (e : CallEdge) : s.Accretes (s.addCall e) :=
  accretes_enqueue s _

/-- A method that is entered on an object brings the object to its receiver, and an edge. -/
theorem accretes_enterOn (s : Solver) (receiver : Option VarId) (o : QObj) (e : CallEdge) :
    s.Accretes (s.enterOn receiver o e) := by
  cases receiver with
  | none => exact accretes_addCall s e
  | some this => exact (accretes_addObj s _ o).trans (accretes_addCall _ e)

/-- What passes the filter of an edge is on its way to the target. -/
theorem accretes_forward (s : Solver) (p : Program) (os : ObjSet) (e : FlowEdge) :
    s.Accretes (s.forward p os e) :=
  accretes_addPointsTo s _ _

/-- Objects on their way to a pointer make no new objects. -/
@[simp] theorem heap_addPointsTo (s : Solver) (ptr : Pointer) (os : ObjSet) :
    (s.addPointsTo ptr os).heap = s.heap := by
  unfold addPointsTo
  split <;> rfl

/-- They make no new contexts. -/
@[simp] theorem contexts_addPointsTo (s : Solver) (ptr : Pointer) (os : ObjSet) :
    (s.addPointsTo ptr os).contexts = s.contexts := by
  unfold addPointsTo
  split <;> rfl

/-- They add no flow. -/
@[simp] theorem flow_addPointsTo (s : Solver) (ptr : Pointer) (os : ObjSet) :
    (s.addPointsTo ptr os).flow = s.flow := by
  unfold addPointsTo
  split <;> rfl

/-- Entering a method adds no flow. -/
@[simp] theorem flow_enterOn (s : Solver) (receiver : Option VarId) (o : QObj) (e : CallEdge) :
    (s.enterOn receiver o e).flow = s.flow := by
  cases receiver with
  | none => rfl
  | some this => exact flow_addPointsTo s _ _

/-- It makes no new objects. -/
@[simp] theorem heap_enterOn (s : Solver) (receiver : Option VarId) (o : QObj) (e : CallEdge) :
    (s.enterOn receiver o e).heap = s.heap := by
  cases receiver with
  | none => rfl
  | some this => exact heap_addPointsTo s _ _

/-- It makes no new contexts. -/
@[simp] theorem contexts_enterOn (s : Solver) (receiver : Option VarId) (o : QObj)
    (e : CallEdge) : (s.enterOn receiver o e).contexts = s.contexts := by
  cases receiver with
  | none => rfl
  | some this => exact contexts_addPointsTo s _ _

/-- Flow edges make no contexts. -/
@[simp] theorem contexts_addFlow (s : Solver) (p : Program) (e : FlowEdge) :
    (s.addFlow p e).contexts = s.contexts := by
  unfold addFlow
  split
  · rfl
  · exact contexts_addPointsTo _ _ _

/-- They make no objects. -/
@[simp] theorem heap_addFlow (s : Solver) (p : Program) (e : FlowEdge) :
    (s.addFlow p e).heap = s.heap := by
  unfold addFlow
  split
  · rfl
  · exact heap_addPointsTo _ _ _

/-- A flow edge is added, and what its source refers to is on its way along it. -/
theorem accretes_addFlow (s : Solver) (p : Program) (e : FlowEdge) :
    s.Accretes (s.addFlow p e) := by
  unfold addFlow
  split
  · exact .refl s
  · have hadd : s.Accretes { s with flow := s.flow.add e } :=
      ⟨.refl _, .refl _, fun he => OrderedSet.mem_insert.2 (.inr he), rfl, rfl, rfl, [],
        (List.append_nil _).symm⟩
    exact hadd.trans (accretes_forward _ p _ e)

/-- Whatever is added, a state accretes. -/
theorem Adds.accretes {a : Addition} (h : s.Adds p a t) : s.Accretes t := by
  cases a with
  | object o =>
      obtain ⟨i, heap, hi, rfl⟩ := h
      exact ⟨Interned.grows_of_intern hi, .refl _, id, rfl, rfl, rfl, [],
        (List.append_nil _).symm⟩
  | context c =>
      obtain ⟨i, contexts, hi, rfl⟩ := h
      exact ⟨.refl _, Interned.grows_of_intern hi, id, rfl, rfl, rfl, [],
        (List.append_nil _).symm⟩
  | points ptr os =>
      obtain rfl := h
      exact accretes_addPointsTo s ptr os
  | flow e =>
      obtain rfl := h
      exact accretes_addFlow s p e
  | enter receiver o e =>
      obtain rfl := h
      exact accretes_enterOn s receiver o e
  | call e =>
      obtain rfl := h
      exact accretes_addCall s e
  | note line =>
      obtain rfl := h
      exact ⟨.refl _, .refl _, id, rfl, rfl, rfl, [], (List.append_nil _).symm⟩

/-! ## What additions achieve -/

/-- An addition of objects to a pointer is owed from then on. -/
theorem owes_addPointsTo (s : Solver) (ptr : Pointer) {os : ObjSet} {o : QObj} (ho : o ∈ os) :
    (s.addPointsTo ptr os).Owes ptr o := by
  unfold addPointsTo
  split
  · rename_i hempty
    rw [OrderedSet.isEmpty_iff.1 hempty] at ho
    exact absurd ho (OrderedSet.not_mem_empty o)
  · exact .inr ⟨os, List.mem_append_right _ List.mem_cons_self, ho⟩

/-- An object that was added is owed to its pointer. -/
theorem owes_addObj (s : Solver) (ptr : Pointer) (o : QObj) : (s.addObj ptr o).Owes ptr o :=
  owes_addPointsTo s ptr (OrderedSet.mem_singleton.2 rfl)

/-- A call edge that was added has been announced. -/
theorem announces_addCall (s : Solver) (e : CallEdge) : (s.addCall e).Announces e :=
  .inr (List.mem_append_right _ List.mem_cons_self)

/-- Entering a method announces the edge to it. -/
theorem announces_enterOn (s : Solver) (receiver : Option VarId) (o : QObj) (e : CallEdge) :
    (s.enterOn receiver o e).Announces e := by
  cases receiver with
  | none => exact announces_addCall s e
  | some this => exact announces_addCall _ e

/-- Entering a method owes the object to its receiver. -/
theorem owes_enterOn (s : Solver) {receiver : Option VarId} {this : VarId} (o : QObj)
    (e : CallEdge) (h : this ∈ receiver) :
    (s.enterOn receiver o e).Owes (varPointer e.callee.context this) o := by
  cases h
  exact (accretes_addCall _ e).extends.expected.points (owes_addObj s _ o)

/-- A flow edge that was added is there. -/
theorem mem_flow_addFlow (s : Solver) (p : Program) (e : FlowEdge) :
    e ∈ (s.addFlow p e).flow.edges := by
  unfold addFlow
  split
  · rename_i h
    exact of_decide_eq_true h
  · exact (accretes_forward _ p _ e).flow (OrderedSet.mem_insert.2 (.inl rfl))

/-- The edges of a list are added, and nothing else happens to the flow graph that
does not happen in general. -/
theorem accretes_addFlows (s : Solver) (p : Program) (es : List FlowEdge) :
    s.Accretes (s.addFlows p es) := by
  induction es generalizing s with
  | nil => exact .refl s
  | cons e es ih => exact (accretes_addFlow s p e).trans (ih (s.addFlow p e))

/-- So is every one of a list that was added. -/
theorem mem_flow_addFlows (s : Solver) (p : Program) {es : List FlowEdge} {e : FlowEdge}
    (he : e ∈ es) : e ∈ (s.addFlows p es).flow.edges := by
  induction es generalizing s with
  | nil => exact absurd he (by simp)
  | cons f es ih =>
      rcases List.mem_cons.1 he with rfl | he
      · exact (accretes_addFlows _ p es).flow (mem_flow_addFlow s p e)
      · exact ih (s.addFlow p f) he

/-! ## Sequences of additions -/

/-- The second state is reached from the first by additions that follow the rules. -/
def Evolves (p : Program) (rules : Solver → Addition → Prop) : Solver → Solver → Prop :=
  Relation.ReflTransGen fun s t => ∃ a, rules s a ∧ s.Adds p a t

variable {rules rules' : Solver → Addition → Prop}

/-- Doing nothing keeps to any rules. -/
@[refl] theorem Evolves.refl (s : Solver) : s.Evolves p rules s := Relation.ReflTransGen.refl

/-- Steps of a run follow each other. -/
theorem Evolves.trans (h : s.Evolves p rules t) (k : t.Evolves p rules u) :
    s.Evolves p rules u :=
  Relation.ReflTransGen.trans h k

/-- One addition is a sequence. -/
theorem Adds.evolves {a : Addition} (h : s.Adds p a t) (hr : rules s a) :
    s.Evolves p rules t :=
  Relation.ReflTransGen.single ⟨a, hr, h⟩

/-- Whoever keeps to rules keeps to weaker ones. -/
theorem Evolves.mono (h : s.Evolves p rules t) (hr : ∀ s a, rules s a → rules' s a) :
    s.Evolves p rules' t := by
  induction h with
  | refl => exact .refl s
  | tail _ hstep ih =>
      obtain ⟨a, ha, hadd⟩ := hstep
      exact ih.trans (hadd.evolves (hr _ a ha))

/-- What every addition that follows the rules keeps, a sequence of them keeps. -/
theorem Evolves.keeps {I : Solver → Prop} (h : s.Evolves p rules t)
    (hstep : ∀ {s a t}, I s → rules s a → s.Adds p a t → I t) (hs : I s) : I t := by
  induction h with
  | refl => exact hs
  | tail _ hstep' ih =>
      obtain ⟨a, ha, hadd⟩ := hstep'
      exact hstep ih ha hadd

/-- A state that evolves accretes. -/
theorem Evolves.accretes (h : s.Evolves p rules t) : s.Accretes t := by
  induction h with
  | refl => exact .refl s
  | tail _ hstep ih =>
      obtain ⟨a, _, hadd⟩ := hstep
      exact ih.trans hadd.accretes

/-- What is known for good stays so while a state evolves. -/
theorem Evolves.extends (h : s.Evolves p rules t) : s.Extends t := h.accretes.extends

/-- Flow edges that follow the rules in the state that they are added to, and in
every later one with the same objects, are added one after the other. -/
theorem evolves_addFlows {es : List FlowEdge}
    (hr : ∀ e ∈ es, ∀ {t}, s.Accretes t → t.heap = s.heap → rules t (.flow e)) :
    s.Evolves p rules (s.addFlows p es) := by
  induction es generalizing s with
  | nil => exact .refl s
  | cons e es ih =>
      have hfirst : s.Evolves p rules (s.addFlow p e) :=
        Adds.evolves (a := .flow e) rfl (hr e List.mem_cons_self (.refl s) rfl)
      refine hfirst.trans (ih ?_)
      intro f hf t ht hheap
      refine hr f (List.mem_cons_of_mem _ hf) ((accretes_addFlow s p e).trans ht) ?_
      rw [hheap, heap_addFlow]

end Solver

end PointsTo
