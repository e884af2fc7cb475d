import PointsTo.Proofs.Additions

/-!
# Taking a fact from the queue

The other way in which a state changes: the oldest waiting fact is worked in.  For
objects this means that they join the set of their pointer and that the new ones are
passed on; for a call edge that it joins the call graph and its callee is reachable.

Main results:

- {lit}`Solver.take`: the state after the oldest fact is worked in.
- Theorem {lit}`extends_take`: it can come later in a run.
- {lit}`Solver.FlowClosed`, kept by additions ({lit}`FlowClosed.of_adds`) and by taking a
  fact ({lit}`FlowClosed.of_take`): what an edge lets pass is at its target or on its
  way there.
-/

namespace PointsTo

/-- The call graph after a method was found to be reachable under a context. -/
def CallGraph.discover (g : CallGraph) (m : QMethod) : CallGraph :=
  if m ∈ g.reachableIn then g else (g.addReachableIn m).addReachable m.item

namespace CallGraph

variable {g : CallGraph} {m m' : QMethod}

/-- The check for methods looks at the set of them. -/
@[simp] theorem isReachable_iff {i : MethodId} : g.isReachable i = true ↔ i ∈ g.reachable :=
  decide_eq_true_iff

/-- The check for methods under a context looks at the set of those. -/
@[simp] theorem isReachableIn_iff : g.isReachableIn m = true ↔ m ∈ g.reachableIn :=
  decide_eq_true_iff

/-- A method is discovered only once under a context. -/
theorem discover_of_mem (h : m ∈ g.reachableIn) : g.discover m = g := if_pos h

/-- A new one is noted under its context, and in itself. -/
theorem discover_of_not_mem (h : m ∉ g.reachableIn) :
    g.discover m = (g.addReachableIn m).addReachable m.item := if_neg h

/-- To discover a method adds no call edges. -/
@[simp] theorem edges_discover (g : CallGraph) (m : QMethod) :
    (g.discover m).edges = g.edges := by
  unfold discover
  split <;> rfl

/-- It does not matter whether an edge is added before or after its callee is reached. -/
theorem discover_addEdge (g : CallGraph) (e : CallEdge) (m : QMethod) :
    (g.addEdge e).discover m = (g.discover m).addEdge e := by
  by_cases hm : m ∈ g.reachableIn
  · rw [discover_of_mem hm, discover_of_mem (g := g.addEdge e) hm]
  · rw [discover_of_not_mem hm, discover_of_not_mem (g := g.addEdge e) hm]
    rfl

/-- What is reachable under a context afterwards is what was, and the new method. -/
theorem mem_reachableIn_discover :
    m' ∈ (g.discover m).reachableIn ↔ m' = m ∨ m' ∈ g.reachableIn := by
  unfold discover
  split
  · rename_i h
    exact ⟨.inr, fun hm => hm.elim (fun e => e ▸ h) id⟩
  · exact OrderedSet.mem_insert

/-- What is reachable in some context afterwards is what was, and perhaps the new method. -/
theorem mem_reachable_discover {i : MethodId} (hi : i ∈ (g.discover m).reachable) :
    i = m.item ∨ i ∈ g.reachable := by
  unfold discover at hi
  split at hi
  · exact .inr hi
  · exact OrderedSet.mem_insert.1 hi

/-- A method that is new under a context is reachable from then on. -/
theorem item_mem_discover (h : m ∉ g.reachableIn) : m.item ∈ (g.discover m).reachable := by
  rw [discover_of_not_mem h]
  exact OrderedSet.mem_insert.2 (.inl rfl)

/-- What is reachable stays reachable. -/
theorem reachable_discover {i : MethodId} (hi : i ∈ g.reachable) :
    i ∈ (g.discover m).reachable := by
  unfold discover
  split
  · exact hi
  · exact OrderedSet.mem_insert.2 (.inr hi)

end CallGraph

namespace Solver

variable {p : Program} {s t : Solver} {w : WorkItem} {rest : List WorkItem}

/-- The state after a fact was taken from the queue, of which {lit}`rest` is left, and
worked in. -/
def take (s : Solver) (p : Program) (w : WorkItem) (rest : List WorkItem) : Solver :=
  let s := { s with queue := rest, processed := s.processed + 1 }
  match w with
  | .pointsTo ptr os => s.propagate p ptr os
  | .call e =>
    if e ∈ s.calls.edges then s
    else { s with calls := (s.calls.addEdge e).discover e.callee }

/-! ## Passing objects on -/

/-- The filter of an edge lets the object pass. -/
def Passes (p : Program) (heap : Heap) (filter : Option JavaType) (o : QObj) : Prop :=
  ∀ t ∈ filter, p.isSubtype (heap.typeOf o.item) t = true

/-- What is passed on along an edge is what passes its filter. -/
theorem mem_passing {filter : Option JavaType} {os : ObjSet} {o : QObj} :
    o ∈ s.passing p filter os ↔ o ∈ os ∧ Passes p s.heap filter o := by
  cases filter with
  | none => simp [passing, Passes]
  | some t => simp [passing, Passes]

/-- What passes a filter passes it later on. -/
theorem Passes.mono {heap heap' : Heap} {filter : Option JavaType} {o : QObj}
    (h : Passes p heap filter o) (ho : heap.Has o.item) (hg : heap.Grows heap') :
    Passes p heap' filter o := by
  intro t ht
  rw [Heap.typeOf_of_grows ho hg]
  exact h t ht

/-- Whether an object passes a filter is known as soon as the object is on the heap. -/
theorem Passes.of_grows {heap heap' : Heap} {filter : Option JavaType} {o : QObj}
    (h : Passes p heap' filter o) (ho : heap.Has o.item) (hg : heap.Grows heap') :
    Passes p heap filter o := by
  intro t ht
  rw [← Heap.typeOf_of_grows ho hg]
  exact h t ht

/-- What passes the filter of an edge is owed to its target. -/
theorem owes_forward {os : ObjSet} {e : FlowEdge} {o : QObj} (ho : o ∈ os)
    (hp : Passes p s.heap e.filter o) : (s.forward p os e).Owes e.target o :=
  owes_addPointsTo s e.target (mem_passing.2 ⟨ho, hp⟩)

/-- The same objects are passed on along each of several edges. -/
theorem accretes_foldl_forward (s : Solver) (os : ObjSet) (es : List FlowEdge) :
    s.Accretes (es.foldl (fun t e => t.forward p os e) s) := by
  induction es generalizing s with
  | nil => exact .refl s
  | cons e es ih => exact (accretes_forward s p os e).trans (ih _)

/-- Passing objects on makes no objects. -/
theorem heap_foldl_forward (s : Solver) (os : ObjSet) (es : List FlowEdge) :
    (es.foldl (fun t e => t.forward p os e) s).heap = s.heap := by
  induction es generalizing s with
  | nil => rfl
  | cons e es ih =>
      rw [List.foldl_cons, ih]
      exact heap_addPointsTo s _ _

/-- It makes no contexts. -/
theorem contexts_foldl_forward (s : Solver) (os : ObjSet) (es : List FlowEdge) :
    (es.foldl (fun t e => t.forward p os e) s).contexts = s.contexts := by
  induction es generalizing s with
  | nil => rfl
  | cons e es ih =>
      rw [List.foldl_cons, ih]
      exact contexts_addPointsTo s _ _

/-- It adds no flow. -/
theorem flow_foldl_forward (s : Solver) (os : ObjSet) (es : List FlowEdge) :
    (es.foldl (fun t e => t.forward p os e) s).flow = s.flow := by
  induction es generalizing s with
  | nil => rfl
  | cons e es ih =>
      rw [List.foldl_cons, ih]
      exact flow_addPointsTo s _ _

/-- Along each of the edges, the objects that pass its filter are owed to its target. -/
theorem owes_foldl_forward {os : ObjSet} {es : List FlowEdge} {e : FlowEdge} {o : QObj}
    (he : e ∈ es) (ho : o ∈ os) (hp : Passes p s.heap e.filter o) :
    (es.foldl (fun t e => t.forward p os e) s).Owes e.target o := by
  induction es generalizing s with
  | nil => exact absurd he (by simp)
  | cons f es ih =>
      rw [List.foldl_cons]
      rcases List.mem_cons.1 he with rfl | he
      · exact (accretes_foldl_forward _ os es).extends.expected.points (owes_forward ho hp)
      · refine ih he ?_
        rw [show (s.forward p os f).heap = s.heap from heap_addPointsTo s _ _]
        exact hp

/-! ## The state after a fact was worked in -/

/-- Working objects in changes one set, and then only passes objects on. -/
theorem accretes_propagate (s : Solver) (p : Program) (ptr : Pointer) (os : ObjSet) :
    Accretes { s with pointsTo := s.pointsTo.merge ptr os } (s.propagate p ptr os) :=
  accretes_foldl_forward _ _ _

/-- Only objects that reach a pointer change what pointers refer to. -/
@[simp] theorem pointsTo_take (s : Solver) (p : Program) (w : WorkItem) (rest : List WorkItem) :
    (s.take p w rest).pointsTo =
      match w with
      | .pointsTo ptr os => s.pointsTo.merge ptr os
      | .call _ => s.pointsTo := by
  cases w with
  | pointsTo ptr os => exact (accretes_propagate _ p ptr os).pointsTo
  | call e =>
      unfold take
      dsimp only
      split <;> rfl

/-- Objects that reach a pointer are merged with what it refers to. -/
theorem pointsTo_take_pointsTo (s : Solver) (p : Program) (ptr : Pointer) (os : ObjSet)
    (rest : List WorkItem) :
    (s.take p (.pointsTo ptr os) rest).pointsTo = s.pointsTo.merge ptr os :=
  pointsTo_take s p (.pointsTo ptr os) rest

/-- They add no calls. -/
@[simp] theorem calls_take_pointsTo (s : Solver) (p : Program) (ptr : Pointer) (os : ObjSet)
    (rest : List WorkItem) : (s.take p (.pointsTo ptr os) rest).calls = s.calls :=
  (accretes_propagate _ p ptr os).calls

/-- After a merge, a pointer refers to what it did, and to what was merged if it was meant. -/
theorem mem_pointsTo_merge {m : PointsToMap} {ptr ptr' : Pointer} {os : ObjSet} {o : QObj} :
    o ∈ (m.merge ptr os).get ptr' ↔ o ∈ m.get ptr' ∨ ptr' = ptr ∧ o ∈ os := by
  rw [PointsToMap.get_merge]
  split
  · rename_i h
    simp [h]
  · rename_i h
    simp [h]

/-- After objects were worked in, a pointer refers to what it referred to before, and their own
pointer to those that were new as well. -/
theorem mem_pointsTo_take_pointsTo {ptr ptr' : Pointer} {os : ObjSet} {o : QObj} :
    o ∈ (s.take p (.pointsTo ptr os) rest).pointsTo.get ptr' ↔
      o ∈ s.pointsTo.get ptr' ∨ ptr' = ptr ∧ o ∈ s.delta ptr os := by
  rw [pointsTo_take_pointsTo, mem_pointsTo_merge, delta, OrderedSet.mem_newIn]
  constructor
  · rintro (ho | ⟨rfl, ho⟩)
    · exact .inl ho
    · by_cases hold : o ∈ s.pointsTo.get ptr'
      · exact .inl hold
      · exact .inr ⟨rfl, ho, hold⟩
  · rintro (ho | ⟨rfl, ho, _⟩)
    · exact .inl ho
    · exact .inr ⟨rfl, ho⟩

/-- To work a fact in makes no objects. -/
@[simp] theorem heap_take (s : Solver) (p : Program) (w : WorkItem) (rest : List WorkItem) :
    (s.take p w rest).heap = s.heap := by
  cases w with
  | pointsTo ptr os => exact heap_foldl_forward _ _ _
  | call e =>
      unfold take
      dsimp only
      split <;> rfl

/-- It makes no contexts. -/
@[simp] theorem contexts_take (s : Solver) (p : Program) (w : WorkItem)
    (rest : List WorkItem) : (s.take p w rest).contexts = s.contexts := by
  cases w with
  | pointsTo ptr os => exact contexts_foldl_forward _ _ _
  | call e =>
      unfold take
      dsimp only
      split <;> rfl

/-- It adds no flow. -/
@[simp] theorem flow_take (s : Solver) (p : Program) (w : WorkItem) (rest : List WorkItem) :
    (s.take p w rest).flow = s.flow := by
  cases w with
  | pointsTo ptr os => exact flow_foldl_forward _ _ _
  | call e =>
      unfold take
      dsimp only
      split <;> rfl

/-- To work a call edge in adds nothing that waits. -/
theorem queue_take_call (s : Solver) (p : Program) (e : CallEdge) (rest : List WorkItem) :
    (s.take p (.call e) rest).queue = rest := by
  unfold take
  dsimp only
  split <;> rfl

/-- The edge is there afterwards, beside those that were. -/
theorem mem_edges_take_call {e e' : CallEdge} :
    e' ∈ (s.take p (.call e) rest).calls.edges ↔ e' = e ∨ e' ∈ s.calls.edges := by
  unfold take
  dsimp only
  split
  · rename_i h
    exact ⟨.inr, fun he => he.elim (fun heq => heq ▸ h) id⟩
  · simp [CallGraph.addEdge]

/-- If the edge is new, its callee has become reachable. -/
theorem mem_reachableIn_take_call {e : CallEdge} {m : QMethod} :
    m ∈ (s.take p (.call e) rest).calls.reachableIn ↔
      (e ∉ s.calls.edges ∧ m = e.callee) ∨ m ∈ s.calls.reachableIn := by
  unfold take
  dsimp only
  split
  · rename_i h
    simp [h]
  · rename_i h
    rw [CallGraph.mem_reachableIn_discover]
    simp [CallGraph.addEdge, h]

/-- Objects are worked in, and nothing that was known or expected is lost. -/
theorem extends_take_pointsTo (p : Program) {ptr : Pointer} {os : ObjSet}
    (hq : s.queue = .pointsTo ptr os :: rest) : s.Extends (s.take p (.pointsTo ptr os) rest) := by
  have hpoints : ∀ {ptr' o}, o ∈ s.pointsTo.get ptr' → o ∈ (s.pointsTo.merge ptr os).get ptr' :=
    fun ho => mem_pointsTo_merge.2 (.inl ho)
  have hmerge : s.Extends
      { s with queue := rest, processed := s.processed + 1,
               pointsTo := s.pointsTo.merge ptr os } := by
    refine ⟨⟨.refl _, .refl _, hpoints, id, id, id⟩, ⟨.refl _, .refl _, ?_, id, ?_, id⟩, id⟩
    · rintro ptr' o (ho | ⟨os', hos, ho⟩)
      · exact .inl (hpoints ho)
      · rw [hq] at hos
        rcases List.mem_cons.1 hos with heq | hos
        · cases heq
          exact .inl (mem_pointsTo_merge.2 (.inr ⟨rfl, ho⟩))
        · exact .inr ⟨os', hos, ho⟩
    · rintro e (he | he)
      · exact .inl he
      · rw [hq] at he
        rcases List.mem_cons.1 he with heq | he
        · cases heq
        · exact .inr he
  have hpropagate := accretes_propagate
    { s with queue := rest, processed := s.processed + 1 } p ptr os
  exact hmerge.trans hpropagate.extends

/-- A call edge is worked in, and nothing that was known or expected is lost. -/
theorem extends_take_call (p : Program) {e : CallEdge} (hq : s.queue = .call e :: rest) :
    s.Extends (s.take p (.call e) rest) := by
  have hqueue := queue_take_call s p e rest
  have hedges : ∀ {e'}, e' ∈ s.calls.edges → e' ∈ (s.take p (.call e) rest).calls.edges :=
    fun he => mem_edges_take_call.2 (.inr he)
  have hreached : ∀ {m}, m ∈ s.calls.reachableIn →
      m ∈ (s.take p (.call e) rest).calls.reachableIn :=
    fun hm => mem_reachableIn_take_call.2 (.inr hm)
  have hpoints := pointsTo_take s p (.call e) rest
  refine ⟨⟨?_, ?_, ?_, ?_, hedges, hreached⟩, ⟨?_, ?_, ?_, ?_, ?_, hreached⟩, ?_⟩
  · exact fun i o h => by simpa [settled] using h
  · exact fun i o h => by simpa [settled] using h
  · exact fun h => by simpa [settled] using h
  · exact fun h => by simpa [settled] using h
  · exact fun i o h => by simpa [expected] using h
  · exact fun i o h => by simpa [expected] using h
  · rintro ptr o (ho | ⟨os, hos, ho⟩)
    · exact .inl (by rw [hpoints]; exact ho)
    · rw [hq] at hos
      rcases List.mem_cons.1 hos with heq | hos
      · cases heq
      · exact .inr ⟨os, by rw [hqueue]; exact hos, ho⟩
  · exact fun h => by simpa [expected] using h
  · rintro e' (he | he)
    · exact .inl (hedges he)
    · rw [hq] at he
      rcases List.mem_cons.1 he with heq | he
      · cases heq
        exact .inl (mem_edges_take_call.2 (.inl rfl))
      · exact .inr (by rw [hqueue]; exact he)
  · intro m hm
    unfold take
    dsimp only
    split
    · exact hm
    · exact CallGraph.reachable_discover hm

/-- The oldest fact is worked in, and nothing that was known or expected is lost. -/
theorem extends_take (p : Program) (hq : s.queue = w :: rest) :
    s.Extends (s.take p w rest) := by
  cases w with
  | pointsTo ptr os => exact extends_take_pointsTo p hq
  | call e => exact extends_take_call p hq

/-- Nothing is lost when a method is found to be reachable. -/
theorem extends_discover (s : Solver) (q : QMethod) :
    s.Extends { s with calls := s.calls.discover q } := by
  have hedges : ∀ {e}, e ∈ s.calls.edges → e ∈ (s.calls.discover q).edges := by
    intro e he
    rw [CallGraph.edges_discover]
    exact he
  have hreached : ∀ {m}, m ∈ s.calls.reachableIn → m ∈ (s.calls.discover q).reachableIn :=
    fun hm => CallGraph.mem_reachableIn_discover.2 (.inr hm)
  refine ⟨⟨.refl _, .refl _, id, id, hedges, hreached⟩,
    ⟨.refl _, .refl _, id, id, ?_, hreached⟩, CallGraph.reachable_discover⟩
  exact fun he => he.imp hedges id

/-! ## Ids that exist -/

/-- Every object that a pointer refers to exists. -/
def Rooted (s : Solver) : Prop := ∀ ptr, ∀ o ∈ s.pointsTo.get ptr, s.settled.HasObj o

/-- A state goes on being rooted while it accretes. -/
theorem Rooted.of_accretes (h : s.Rooted) (ht : s.Accretes t) : t.Rooted := by
  intro ptr o ho
  rw [ht.pointsTo] at ho
  exact (h ptr o ho).mono ht.extends.settled

/-- The facts that have been worked in mention only objects and contexts that exist. -/
structure Grounded (s : Solver) : Prop where
  empty : s.contexts.Has emptyContext
  points : s.Rooted
  var : ∀ v, ∀ o ∈ s.pointsTo.get (.var v), s.contexts.Has v.context
  reached : ∀ m ∈ s.calls.reachableIn, s.contexts.Has m.context

/-- A state goes on being grounded while it accretes. -/
theorem Grounded.of_accretes (h : s.Grounded) (ht : s.Accretes t) : t.Grounded where
  empty := h.empty.of_grows ht.contexts
  points := h.points.of_accretes ht
  var := by
    intro v o ho
    rw [ht.pointsTo] at ho
    exact (h.var v o ho).of_grows ht.contexts
  reached := by
    intro m hm
    rw [ht.calls] at hm
    exact (h.reached m hm).of_grows ht.contexts

/-- A fact that mentions only what exists can be worked in. -/
theorem Grounded.of_take (h : s.Grounded) (hq : s.queue = w :: rest)
    (hw : w.Exists s.settled) : (s.take p w rest).Grounded := by
  have hext := extends_take p hq
  refine ⟨h.empty.of_grows hext.settled.contexts, ?_, ?_, ?_⟩
  · intro ptr o ho
    rw [pointsTo_take] at ho
    refine View.HasObj.mono ?_ hext.settled
    cases w with
    | call e => exact h.points ptr o ho
    | pointsTo ptr' os =>
        rcases mem_pointsTo_merge.1 ho with ho | ⟨_, ho⟩
        · exact h.points ptr o ho
        · exact (hw o ho).1
  · intro v o ho
    rw [pointsTo_take] at ho
    refine Interned.Has.of_grows ?_ hext.settled.contexts
    cases w with
    | call e => exact h.var v o ho
    | pointsTo ptr' os =>
        rcases mem_pointsTo_merge.1 ho with ho | ⟨hptr, ho⟩
        · exact h.var v o ho
        · exact (hw o ho).2 v hptr.symm
  · intro m hm
    refine Interned.Has.of_grows ?_ hext.settled.contexts
    cases w with
    | pointsTo ptr' os =>
        rw [calls_take_pointsTo] at hm
        exact h.reached m hm
    | call e =>
        rcases mem_reachableIn_take_call.1 hm with ⟨_, rfl⟩ | hm
        · exact hw
        · exact h.reached m hm

/-- A method under a context that exists may be found to be reachable. -/
theorem Grounded.of_discover (h : s.Grounded) {q : QMethod} (hq : s.contexts.Has q.context) :
    Grounded { s with calls := s.calls.discover q } := by
  refine ⟨h.empty, h.points, h.var, ?_⟩
  intro q' hq'
  rcases CallGraph.mem_reachableIn_discover.1 hq' with rfl | hq'
  · exact hq
  · exact h.reached q' hq'

/-! ## Closure under flow -/

/-- Whatever the filter of an edge lets pass is at the target of the edge or on its
way there. -/
def FlowClosed (p : Program) (s : Solver) : Prop :=
  ∀ e ∈ s.flow.edges, ∀ o ∈ s.pointsTo.get e.source, Passes p s.heap e.filter o →
    s.Owes e.target o

/-- Closure under flow is kept if every new edge passes on what its source refers to. -/
theorem FlowClosed.of_accretes (h : s.FlowClosed p) (hr : s.Rooted) (ht : s.Accretes t)
    (hnew : ∀ e ∈ t.flow.edges, e ∉ s.flow.edges → ∀ o ∈ s.pointsTo.get e.source,
      Passes p s.heap e.filter o → t.Owes e.target o) : t.FlowClosed p := by
  intro e he o ho hp
  rw [ht.pointsTo] at ho
  have hps : Passes p s.heap e.filter o := hp.of_grows (hr _ o ho).2 ht.heap
  by_cases hes : e ∈ s.flow.edges
  · exact ht.extends.expected.points (h e hes o ho hps)
  · exact hnew e he hes o ho hps

/-- Additions keep closure under flow: a new edge passes on at once. -/
theorem FlowClosed.of_adds {a : Addition} (h : s.FlowClosed p) (hr : s.Rooted)
    (ha : s.Adds p a t) : t.FlowClosed p := by
  refine h.of_accretes hr ha.accretes ?_
  intro e he hes o ho hp
  cases a with
  | flow e' =>
      obtain rfl := ha
      unfold addFlow at he ⊢
      split at he
      · exact absurd he hes
      · rename_i hcontains
        rw [if_neg hcontains]
        rw [forward, flow_addPointsTo] at he
        rcases OrderedSet.mem_insert.1 he with rfl | he
        · exact owes_forward ho hp
        · exact absurd he hes
  | object o' =>
      obtain ⟨_, _, _, rfl⟩ := ha
      exact absurd he hes
  | context c =>
      obtain ⟨_, _, _, rfl⟩ := ha
      exact absurd he hes
  | points ptr os =>
      obtain rfl := ha
      rw [flow_addPointsTo] at he
      exact absurd he hes
  | enter receiver o' e' =>
      obtain rfl := ha
      rw [flow_enterOn] at he
      exact absurd he hes
  | call e' =>
      obtain rfl := ha
      exact absurd he hes
  | note line =>
      obtain rfl := ha
      exact absurd he hes

/-- Working a fact in keeps closure under flow: what is new is passed on. -/
theorem FlowClosed.of_take (h : s.FlowClosed p) (hq : s.queue = w :: rest) :
    (s.take p w rest).FlowClosed p := by
  intro e he o ho hp
  rw [flow_take] at he
  rw [heap_take] at hp
  have hle := (extends_take p hq).expected
  cases w with
  | call e' =>
      rw [pointsTo_take] at ho
      exact hle.points (h e he o ho hp)
  | pointsTo ptr os =>
      rcases mem_pointsTo_take_pointsTo.1 ho with hold | ⟨hsource, hnew⟩
      · exact hle.points (h e he o hold hp)
      · exact owes_foldl_forward (FlowGraph.mem_outgoing.2 ⟨he, hsource⟩) hnew hp

/-- Sequences of additions keep closure under flow. -/
theorem FlowClosed.of_evolves {rules : Solver → Addition → Prop} (h : s.FlowClosed p)
    (hr : s.Rooted) (he : s.Evolves p rules t) : t.FlowClosed p := by
  have hboth : t.FlowClosed p ∧ t.Rooted := by
    refine he.keeps (I := fun u => u.FlowClosed p ∧ u.Rooted) ?_ ⟨h, hr⟩
    rintro u a v ⟨hc, hr⟩ _ hadd
    exact ⟨hc.of_adds hr hadd, hr.of_accretes hadd.accretes⟩
  exact hboth.1

end Solver

end PointsTo
