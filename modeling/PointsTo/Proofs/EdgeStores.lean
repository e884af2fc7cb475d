import PointsTo.CallGraph
import PointsTo.FlowGraph
import PointsTo.Proofs.FirstOccurrences

/-!
# Edge stores

The two graphs of a run keep what was added to them more than once: a list of edges for their
order, an index in which an addition is recognised as a repetition, and tables in which the edges
of a call site or of a pointer are found.  Every addition changes all of them.  After any sequence
of additions they still tell the same, and each of them is a function of what was added: the first
occurrences among it, all of them or those that belong to one site or pointer.

Main results:

- {lit}`CallGraph.Addition`, {lit}`CallGraph.perform`: additions to a call graph, with answers.
- {lit}`CallGraph.Consistent`: what a call graph holds after additions.
- Theorem {lit}`CallGraph.Consistent.perform`: one addition.
- {lit}`FlowGraph.Consistent`: what a flow graph holds after additions.
- Theorem {lit}`stores_consistent`: all sequences of additions to both graphs.
-/

namespace PointsTo

/-! ## Call graphs -/

namespace CallGraph

/-- What is added to a call graph: a reachable method, such a method under a context, or an
edge. -/
inductive Addition where
  | method (m : MethodId)
  | methodIn (m : QMethod)
  | edge (e : CallEdge)
deriving DecidableEq

namespace Addition

/-- The method that an addition makes reachable. -/
def method? : Addition → Option MethodId
  | method m => some m
  | _ => none

/-- The method that an addition makes reachable under a context. -/
def methodIn? : Addition → Option QMethod
  | methodIn m => some m
  | _ => none

/-- The call edge that an addition brings. -/
def edge? : Addition → Option CallEdge
  | edge e => some e
  | _ => none

end Addition

/-- Make an addition, and answer whether it is new. -/
def perform (g : CallGraph) : Addition → Bool × CallGraph
  | .method m => (!g.isReachable m, g.addReachable m)
  | .methodIn m => (!g.isReachableIn m, g.addReachableIn m)
  | .edge e => (decide (e ∉ g.edges), g.addEdge e)

/-- The call graph after additions one after another. -/
def after (as : List Addition) : CallGraph := as.foldl (fun g a => (g.perform a).2) empty

/-- The graph holds the additions that were made, and its parts agree. -/
structure Consistent (g : CallGraph) (as : List Addition) : Prop where
  edges : g.edges.Collects (as.filterMap Addition.edge?)
  methods : g.reachable.Collects (as.filterMap Addition.method?)
  methodsIn : g.reachableIn.Collects (as.filterMap Addition.methodIn?)
  isReachable : ∀ m, g.isReachable m = true ↔ m ∈ g.reachable.toList
  isReachableIn : ∀ m, g.isReachableIn m = true ↔ m ∈ g.reachableIn.toList
  /-- A call site has the positions of its edges. -/
  positions : ∀ site i, i ∈ g.bySite.get site ↔ ∃ e, g.edges.toList[i]? = some e ∧ e.site = site
  edgesOutOf : ∀ site, g.edgesOutOf site = g.edges.toList.filter fun e => e.site = site
  calleesOf : ∀ i, g.calleesOf i =
    ((g.edges.toList.filter fun e => e.site.item = i).map fun e => e.callee.item).eraseDups
  /-- A further addition is answered by whether it has not been made before. -/
  answer : ∀ a, (g.perform a).1 = true ↔ a ∉ as

/-- The positions of a call site are those of its edges. -/
theorem mem_sitePositions {es : List CallEdge} {site : QSite} {i : Nat} :
    i ∈ sitePositions es site ↔ ∃ e, es[i]? = some e ∧ e.site = site := by
  simp only [sitePositions, List.mem_map, List.mem_filter, decide_eq_true_eq, Prod.exists,
    List.mk_mem_zipIdx_iff_getElem?]
  constructor
  · rintro ⟨e, j, ⟨he, hsite⟩, rfl⟩
    exact ⟨e, he, hsite⟩
  · rintro ⟨e, he, hsite⟩
    exact ⟨e, i, ⟨he, hsite⟩, rfl⟩

namespace Addition

/-- An addition of a method is about that method. -/
theorem method?_eq_some_iff {a : Addition} {m : MethodId} :
    a.method? = some m ↔ a = .method m := by
  cases a <;> simp [method?]

/-- An addition of a method under a context is about both. -/
theorem methodIn?_eq_some_iff {a : Addition} {m : QMethod} :
    a.methodIn? = some m ↔ a = .methodIn m := by
  cases a <;> simp [methodIn?]

/-- An addition of a call edge is about that edge. -/
theorem edge?_eq_some_iff {a : Addition} {e : CallEdge} : a.edge? = some e ↔ a = .edge e := by
  cases a <;> simp [edge?]

end Addition

/-- What the parts of a graph hold decides what is read from them. -/
theorem consistent_of_collects {g : CallGraph} {as : List Addition}
    (hedges : g.edges.Collects (as.filterMap Addition.edge?))
    (hmethods : g.reachable.Collects (as.filterMap Addition.method?))
    (hmethodsIn : g.reachableIn.Collects (as.filterMap Addition.methodIn?)) :
    g.Consistent as where
  edges := hedges
  methods := hmethods
  methodsIn := hmethodsIn
  isReachable _ := decide_eq_true_iff
  isReachableIn _ := decide_eq_true_iff
  positions site i := by rw [g.sited, mem_sitePositions]
  edgesOutOf := g.edgesOutOf_eq
  calleesOf _ := OrderedSet.toList_ofList _
  answer a := by
    cases a with
    | method m =>
        simp [perform, CallGraph.isReachable, hmethods.mem, Addition.method?_eq_some_iff]
    | methodIn m =>
        simp [perform, CallGraph.isReachableIn, hmethodsIn.mem, Addition.methodIn?_eq_some_iff]
    | edge e => simp [perform, hedges.mem, Addition.edge?_eq_some_iff]

/-- The empty graph answers that nothing was added. -/
theorem consistent_empty : empty.Consistent [] :=
  consistent_of_collects (OrderedSet.collects_ofList []) (OrderedSet.collects_ofList [])
    (OrderedSet.collects_ofList [])

/-- An addition is taken by one part of the graph and passes the others. -/
theorem Consistent.perform {g : CallGraph} {as : List Addition} (h : g.Consistent as)
    (a : Addition) : (g.perform a).2.Consistent (as ++ [a]) := by
  cases a with
  | method m =>
      exact consistent_of_collects (h.edges.pass rfl) (h.methods.take rfl) (h.methodsIn.pass rfl)
  | methodIn m =>
      exact consistent_of_collects (h.edges.pass rfl) (h.methods.pass rfl) (h.methodsIn.take rfl)
  | edge e =>
      exact consistent_of_collects (h.edges.take rfl) (h.methods.pass rfl) (h.methodsIn.pass rfl)

/-- After any additions the answers are consistent with them. -/
theorem consistent_after (as : List Addition) : (after as).Consistent as :=
  history_induction (motive := Consistent) consistent_empty Consistent.perform as

end CallGraph

/-! ## Flow graphs -/

namespace FlowGraph

/-- Add an edge, and answer whether it is new. -/
def perform (g : FlowGraph) (e : FlowEdge) : Bool × FlowGraph := (!g.contains e, g.add e)

/-- The flow graph after additions one after another. -/
def after (es : List FlowEdge) : FlowGraph := es.foldl (fun g e => (g.perform e).2) empty

/-- The graph holds the edges that were added, and its parts agree. -/
structure Consistent (g : FlowGraph) (es : List FlowEdge) : Prop where
  edges : g.edges.Collects es
  /-- A pointer has its edges in the order in which they were added first. -/
  outgoing : ∀ p, g.outgoing p = (es.filter fun e => e.source = p).eraseDups
  contains : ∀ e, g.contains e = true ↔ ∃ p, e ∈ g.outgoing p
  /-- The edges of all pointers together, none of them twice. -/
  all : ∀ e, e ∈ g.all ↔ ∃ p, e ∈ g.outgoing p
  nodup : g.all.Nodup
  size : g.size = g.all.length
  /-- A further edge is answered by whether it has not been added before. -/
  answer : ∀ e, (g.perform e).1 = true ↔ e ∉ es

/-- A graph whose edges are those that were added answers consistently. -/
theorem consistent_of_collects {g : FlowGraph} {es : List FlowEdge} (h : g.edges.Collects es) :
    g.Consistent es where
  edges := h
  outgoing p := by rw [outgoing_eq, h.toList, ← eraseDups_filter]
  contains e := by
    simp [FlowGraph.contains, mem_outgoing]
  all e := by simp [mem_all, mem_outgoing]
  nodup := g.nodup_all
  size := by
    have hperm : g.edges.toList.Perm g.all :=
      (List.perm_ext_iff_of_nodup g.edges.nodup g.nodup_all).2 fun _ => mem_all.symm
    exact hperm.length_eq
  answer e := by simp [perform, FlowGraph.contains, h.mem]

/-- One more edge is answered for as it should. -/
theorem Consistent.perform {g : FlowGraph} {es : List FlowEdge} (h : g.Consistent es)
    (e : FlowEdge) : (g.perform e).2.Consistent (es ++ [e]) :=
  consistent_of_collects (h.edges.insert e)

/-- After any additions the answers are consistent with them. -/
theorem consistent_after (es : List FlowEdge) : (after es).Consistent es :=
  history_induction (motive := Consistent) (consistent_of_collects (OrderedSet.collects_ofList []))
    Consistent.perform es

end FlowGraph

/-! ## All sequences -/

/-- After any additions to a call graph, and after any to a flow graph, all parts of the graph
agree on what was added. -/
theorem stores_consistent :
    (∀ as, (CallGraph.after as).Consistent as) ∧ ∀ es, (FlowGraph.after es).Consistent es :=
  ⟨CallGraph.consistent_after, FlowGraph.consistent_after⟩

end PointsTo
