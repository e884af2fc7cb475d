import PointsTo.Multimap
import PointsTo.OrderedSet
import PointsTo.Pointer

/-!
# The pointer flow graph

The flow edges of a run.  An edge is stored once; its kind and its filter belong
to it, so two pointers may be joined by several edges.  The edges are kept in the
order of their addition, and for every pointer those that leave it.

Main statements:

- {lit}`outgoing_eq`, {lit}`outgoing_add`: the edges that leave a pointer.
- {lit}`mem_all`, {lit}`nodup_all`: the edges of all pointers together.
-/

namespace PointsTo

/-- Flow edges in the order of their addition. -/
structure FlowGraph where
  edges : OrderedSet FlowEdge
  /-- The edges that leave a pointer. -/
  successors : Multimap Pointer FlowEdge
  /-- They are those edges that have it as their source. -/
  sourced : ∀ p, successors.get p = edges.toList.filter fun e => e.source = p

namespace FlowGraph

/-- The graph of nothing. -/
def empty : FlowGraph := ⟨.empty, .empty, fun _ => rfl⟩

instance : Inhabited FlowGraph := ⟨empty⟩

/-- An edge is in the graph. -/
def contains (g : FlowGraph) (e : FlowEdge) : Bool := decide (e ∈ g.edges)

/-- Add an edge; it is put with those of its source only the first time. -/
def add (g : FlowGraph) (e : FlowEdge) : FlowGraph where
  edges := g.edges.insert e
  successors := if g.contains e then g.successors else g.successors.push e.source e
  sourced := by
    intro p
    by_cases h : e ∈ g.edges
    · rw [contains, decide_eq_true h, if_pos rfl, OrderedSet.insert_of_mem h, g.sourced]
    · rw [contains, decide_eq_false h, if_neg Bool.false_ne_true, Multimap.get_push,
        OrderedSet.toList_insert_of_not_mem h, List.filter_append, g.sourced]
      by_cases hp : p = e.source
      · simp [hp]
      · simp [hp, Ne.symm hp]

/-- The number of edges. -/
def size (g : FlowGraph) : Nat := g.edges.size

/-- The edges that leave a pointer, in the order of their addition. -/
def outgoing (g : FlowGraph) (p : Pointer) : List FlowEdge := g.successors.get p

/-- All edges, source by source. -/
def all (g : FlowGraph) : List FlowEdge := g.successors.values

/-- All edges sorted by source; those of one source keep their order. -/
def sorted (g : FlowGraph) : List FlowEdge :=
  g.all.mergeSort fun a b => a.source.le b.source

/-- The edges that leave a pointer are in the order of their addition. -/
theorem outgoing_eq (g : FlowGraph) (p : Pointer) :
    g.outgoing p = g.edges.toList.filter fun e => e.source = p := g.sourced p

/-- An edge leaves its source. -/
theorem mem_outgoing {g : FlowGraph} {p : Pointer} {e : FlowEdge} :
    e ∈ g.outgoing p ↔ e ∈ g.edges ∧ e.source = p := by
  simp [outgoing_eq, OrderedSet.mem_def]

/-- A new edge becomes the last one of its source. -/
theorem outgoing_add (g : FlowGraph) (e : FlowEdge) (p : Pointer) :
    (g.add e).outgoing p =
      g.outgoing p ++ if ¬ e ∈ g.edges ∧ e.source = p then [e] else [] := by
  rw [outgoing_eq, outgoing_eq, add, OrderedSet.toList_insert]
  by_cases h : e ∈ g.edges
  · simp [h]
  · by_cases hp : e.source = p <;> simp [h, hp]

/-- All edges are in the graph, and no others. -/
theorem mem_all {g : FlowGraph} {e : FlowEdge} : e ∈ g.all ↔ e ∈ g.edges := by
  rw [all, Multimap.mem_values]
  constructor
  · rintro ⟨p, he⟩
    exact (mem_outgoing.1 he).1
  · intro he
    exact ⟨e.source, mem_outgoing.2 ⟨he, rfl⟩⟩

/-- Every edge has one source, so that it comes once among the edges of all pointers. -/
theorem nodup_all (g : FlowGraph) : g.all.Nodup := by
  refine Multimap.nodup_values (fun p => ?_) fun p q e hp hq => ?_
  · rw [g.sourced]
    exact g.edges.nodup.sublist List.filter_sublist
  · exact (mem_outgoing.1 hp).2.symm.trans (mem_outgoing.1 hq).2

end FlowGraph

end PointsTo
