import PointsTo.Proofs.WorklistSteps

/-!
# Where facts come from

Every fact that is known or expected after a step of a run was so before, or is one of
the few that the step brings.  An invariant that speaks of all facts is therefore kept
if it holds of what a step brings.

Main results:

- {lit}`Addition.NewPoints`, {lit}`Addition.NewFlow`, {lit}`Addition.NewCall`: what an addition
  brings; theorems {lit}`Solver.Adds.owes_cases` and its like: nothing else is new.
- Theorems {lit}`Solver.owes_of_take`, {lit}`Solver.announces_of_take`,
  {lit}`Solver.reachableIn_of_take`: what the working in of a fact brings.
-/

namespace PointsTo

namespace Addition

/-- The addition brings an object on its way to a pointer. -/
def NewPoints (p : Program) (s : Solver) (a : Addition) (ptr : Pointer) (o : QObj) : Prop :=
  match a with
  | .points ptr' os => ptr = ptr' ∧ o ∈ os
  | .flow e => ptr = e.target ∧ o ∈ s.pointsTo.get e.source ∧ Solver.Passes p s.heap e.filter o
  | .enter receiver o' e =>
      o = o' ∧ ∃ this ∈ receiver, ptr = varPointer e.callee.context this
  | .object _ | .context _ | .call _ | .note _ => False

/-- The addition brings a flow edge. -/
def NewFlow (a : Addition) (e : FlowEdge) : Prop := a = .flow e

/-- The addition brings a call edge on its way to the call graph. -/
def NewCall (a : Addition) (e : CallEdge) : Prop :=
  match a with
  | .enter _ _ e' | .call e' => e = e'
  | .object _ | .context _ | .points .. | .flow _ | .note _ => False

end Addition

namespace Solver

variable {p : Program} {s t : Solver} {a : Addition} {ptr ptr' : Pointer} {o : QObj}
  {os : ObjSet} {e e' : CallEdge} {w : WorkItem} {rest : List WorkItem}

/-! ## Additions to the queue -/

/-- What is owed after an addition was owed before, or was added. -/
theorem owes_of_addPointsTo (h : (s.addPointsTo ptr' os).Owes ptr o) :
    s.Owes ptr o ∨ ptr = ptr' ∧ o ∈ os := by
  unfold addPointsTo at h
  split at h
  · exact .inl h
  · rcases h with h | ⟨os', hos, ho⟩
    · exact .inl (.inl h)
    · rcases List.mem_append.1 hos with hos | hos
      · exact .inl (.inr ⟨os', hos, ho⟩)
      · cases List.mem_singleton.1 hos
        exact .inr ⟨rfl, ho⟩

/-- Objects on their way announce no call. -/
theorem announces_of_addPointsTo (h : (s.addPointsTo ptr' os).Announces e) : s.Announces e := by
  unfold addPointsTo at h
  split at h
  · exact h
  · rcases h with h | h
    · exact .inl h
    · rcases List.mem_append.1 h with h | h
      · exact .inr h
      · cases List.mem_singleton.1 h

/-- A call edge owes no objects. -/
theorem owes_of_addCall (h : (s.addCall e).Owes ptr o) : s.Owes ptr o := by
  rcases h with h | ⟨os', hos, ho⟩
  · exact .inl h
  · rcases List.mem_append.1 hos with hos | hos
    · exact .inr ⟨os', hos, ho⟩
    · cases List.mem_singleton.1 hos

/-- What is announced after an addition was announced before, or is the new edge. -/
theorem announces_of_addCall (h : (s.addCall e').Announces e) : s.Announces e ∨ e = e' := by
  rcases h with h | h
  · exact .inl (.inl h)
  · rcases List.mem_append.1 h with h | h
    · exact .inl (.inr h)
    · cases List.mem_singleton.1 h
      exact .inr rfl

/-! ## What additions bring -/

/-- An object is on its way to a pointer only if it was before or the addition brings
it. -/
theorem Adds.owes_cases (h : s.Adds p a t) (ho : t.Owes ptr o) :
    s.Owes ptr o ∨ a.NewPoints p s ptr o := by
  cases a with
  | object | context =>
      obtain ⟨_, _, _, rfl⟩ := h
      exact .inl ho
  | points ptr' os =>
      obtain rfl := h
      exact owes_of_addPointsTo ho
  | flow f =>
      obtain rfl := h
      unfold addFlow at ho
      split at ho
      · exact .inl ho
      · rcases owes_of_addPointsTo ho with ho | ⟨hptr, ho⟩
        · exact .inl ho
        · exact .inr ⟨hptr, mem_passing.1 ho⟩
  | enter receiver o' e =>
      obtain rfl := h
      cases receiver with
      | none => exact .inl (owes_of_addCall ho)
      | some this =>
          rcases owes_of_addPointsTo (owes_of_addCall ho) with ho | ⟨hptr, ho⟩
          · exact .inl ho
          · exact .inr ⟨OrderedSet.mem_singleton.1 ho, this, rfl, hptr⟩
  | call e =>
      obtain rfl := h
      exact .inl (owes_of_addCall ho)
  | note line =>
      obtain rfl := h
      exact .inl ho

/-- An addition announces at most the edge that it brings. -/
theorem Adds.announces_cases (h : s.Adds p a t) (he : t.Announces e) :
    s.Announces e ∨ a.NewCall e := by
  cases a with
  | object | context =>
      obtain ⟨_, _, _, rfl⟩ := h
      exact .inl he
  | points ptr' os =>
      obtain rfl := h
      exact .inl (announces_of_addPointsTo he)
  | flow f =>
      obtain rfl := h
      unfold addFlow at he
      split at he
      · exact .inl he
      · exact .inl (announces_of_addPointsTo (s := { s with flow := s.flow.add f }) he)
  | enter receiver o' e' =>
      obtain rfl := h
      cases receiver with
      | none => exact announces_of_addCall he
      | some this => exact (announces_of_addCall he).imp announces_of_addPointsTo id
  | call e' =>
      obtain rfl := h
      exact announces_of_addCall he
  | note line =>
      obtain rfl := h
      exact .inl he

/-- An addition brings at most the flow edge that it is about. -/
theorem Adds.flow_cases {f : FlowEdge} (h : s.Adds p a t) (hf : f ∈ t.flow.edges) :
    f ∈ s.flow.edges ∨ a.NewFlow f := by
  cases a with
  | object | context =>
      obtain ⟨_, _, _, rfl⟩ := h
      exact .inl hf
  | flow f' =>
      obtain rfl := h
      unfold addFlow at hf
      split at hf
      · exact .inl hf
      · rw [forward, flow_addPointsTo] at hf
        rcases OrderedSet.mem_insert.1 hf with rfl | hf
        · exact .inr rfl
        · exact .inl hf
  | points ptr' os =>
      obtain rfl := h
      rw [flow_addPointsTo] at hf
      exact .inl hf
  | enter receiver o' e =>
      obtain rfl := h
      rw [flow_enterOn] at hf
      exact .inl hf
  | call | note =>
      obtain rfl := h
      exact .inl hf

/-- An object has an id only if it had one before or the addition is that object. -/
theorem Adds.heap_cases {i : ObjId} {x : Obj} (h : s.Adds p a t) (hi : t.heap.get? i = some x) :
    s.heap.get? i = some x ∨ a = .object x := by
  cases a with
  | object x' =>
      obtain ⟨_, _, hintern, rfl⟩ := h
      exact (Interned.get?_of_intern_cases hintern hi).imp id fun heq => by rw [heq]
  | context =>
      obtain ⟨_, _, _, rfl⟩ := h
      exact .inl hi
  | points ptr' os =>
      obtain rfl := h
      rw [heap_addPointsTo] at hi
      exact .inl hi
  | flow f =>
      obtain rfl := h
      rw [heap_addFlow] at hi
      exact .inl hi
  | enter receiver o' e =>
      obtain rfl := h
      rw [heap_enterOn] at hi
      exact .inl hi
  | call | note =>
      obtain rfl := h
      exact .inl hi

/-- A context has an id only if it had one before or the addition is that context. -/
theorem Adds.contexts_cases {i : ContextId} {c : Context} (h : s.Adds p a t)
    (hi : t.contexts.get? i = some c) : s.contexts.get? i = some c ∨ a = .context c := by
  cases a with
  | context c' =>
      obtain ⟨_, _, hintern, rfl⟩ := h
      exact (Interned.get?_of_intern_cases hintern hi).imp id fun heq => by rw [heq]
  | object =>
      obtain ⟨_, _, _, rfl⟩ := h
      exact .inl hi
  | points ptr' os =>
      obtain rfl := h
      rw [contexts_addPointsTo] at hi
      exact .inl hi
  | flow f =>
      obtain rfl := h
      rw [contexts_addFlow] at hi
      exact .inl hi
  | enter receiver o' e =>
      obtain rfl := h
      rw [contexts_enterOn] at hi
      exact .inl hi
  | call | note =>
      obtain rfl := h
      exact .inl hi

/-! ## What the working in of a fact brings -/

/-- Passing objects on owes them to the targets of edges whose filters they pass. -/
theorem owes_of_foldl_forward {es : List FlowEdge}
    (h : (es.foldl (fun t e => t.forward p os e) s).Owes ptr o) :
    s.Owes ptr o ∨ ∃ f ∈ es, f.target = ptr ∧ o ∈ os ∧ Passes p s.heap f.filter o := by
  induction es generalizing s with
  | nil => exact .inl h
  | cons f es ih =>
      rw [List.foldl_cons] at h
      have hheap : (s.forward p os f).heap = s.heap := heap_addPointsTo s _ _
      rcases ih h with h | ⟨f', hf', htarget, ho, hp⟩
      · rcases owes_of_addPointsTo h with h | ⟨rfl, ho⟩
        · exact .inl h
        · obtain ⟨ho, hp⟩ := mem_passing.1 ho
          exact .inr ⟨f, List.mem_cons_self, rfl, ho, hp⟩
      · rw [hheap] at hp
        exact .inr ⟨f', List.mem_cons_of_mem _ hf', htarget, ho, hp⟩

/-- It announces no call. -/
theorem announces_of_foldl_forward {es : List FlowEdge}
    (h : (es.foldl (fun t e => t.forward p os e) s).Announces e) : s.Announces e := by
  induction es generalizing s with
  | nil => exact h
  | cons f es ih => exact announces_of_addPointsTo (ih h)

/-- An object is on its way after a fact was worked in only if it was before, or has
come along a flow edge from where it was expected. -/
theorem owes_of_take (hq : s.queue = w :: rest) (h : (s.take p w rest).Owes ptr o) :
    s.Owes ptr o ∨
      ∃ f ∈ s.flow.edges, f.target = ptr ∧ s.Owes f.source o ∧ Passes p s.heap f.filter o := by
  cases w with
  | pointsTo ptr' os =>
      have hhead : ∀ {x}, x ∈ os → s.Owes ptr' x := by
        intro x hx
        exact .inr ⟨os, by rw [hq]; exact List.mem_cons_self, hx⟩
      rcases owes_of_foldl_forward h with h | ⟨f, hf, htarget, ho, hp⟩
      · rcases h with h | ⟨os', hos, ho⟩
        · rcases mem_pointsTo_merge.1 h with h | ⟨rfl, ho⟩
          · exact .inl (.inl h)
          · exact .inl (hhead ho)
        · exact .inl (.inr ⟨os', by rw [hq]; exact List.mem_cons_of_mem _ hos, ho⟩)
      · obtain ⟨hf, hsource⟩ := FlowGraph.mem_outgoing.1 hf
        have hx := hhead (OrderedSet.mem_newIn.1 ho).1
        exact .inr ⟨f, hf, htarget, hsource ▸ hx, hp⟩
  | call e =>
      rcases h with h | ⟨os', hos, ho⟩
      · rw [pointsTo_take] at h
        exact .inl (.inl h)
      · rw [queue_take_call] at hos
        exact .inl (.inr ⟨os', by rw [hq]; exact List.mem_cons_of_mem _ hos, ho⟩)

/-- Working a fact in announces no call. -/
theorem announces_of_take (hq : s.queue = w :: rest) (h : (s.take p w rest).Announces e) :
    s.Announces e := by
  cases w with
  | pointsTo ptr' os =>
      rcases announces_of_foldl_forward h with h | h
      · exact .inl h
      · exact .inr (by rw [hq]; exact List.mem_cons_of_mem _ h)
  | call e' =>
      rcases h with h | h
      · rcases mem_edges_take_call.1 h with rfl | h
        · exact .inr (by rw [hq]; exact List.mem_cons_self)
        · exact .inl h
      · rw [queue_take_call] at h
        exact .inr (by rw [hq]; exact List.mem_cons_of_mem _ h)

/-- A method is reachable after a fact was worked in only if it was before, or is the
callee of an edge that was expected. -/
theorem reachableIn_of_take {m : QMethod} (hq : s.queue = w :: rest)
    (h : m ∈ (s.take p w rest).calls.reachableIn) :
    m ∈ s.calls.reachableIn ∨ ∃ e, s.Announces e ∧ m = e.callee := by
  cases w with
  | pointsTo ptr' os =>
      rw [calls_take_pointsTo] at h
      exact .inl h
  | call e =>
      rcases mem_reachableIn_take_call.1 h with ⟨_, rfl⟩ | h
      · exact .inr ⟨e, .inr (by rw [hq]; exact List.mem_cons_self), rfl⟩
      · exact .inl h

end Solver

end PointsTo
