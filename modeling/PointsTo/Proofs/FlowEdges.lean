import PointsTo.Solver.Rules

/-!
# Flow edges, one by one

The rules give flow edges as lists.  Here is what is in these lists: for an access, an edge for each
use of the variable; for a call, an edge for each argument that has a parameter and for each
variable that is returned.

Main results:

- {lit}`Accesses`, and theorem {lit}`mem_accessEdges`: flow through the fields and elements of an
  object.
- Theorems {lit}`mem_argumentEdges`, {lit}`mem_returnEdges`: flow along an ordinary call edge.
-/

namespace PointsTo

variable {f : FlowEdge}

/-- The flow through the fields and elements of an object, by the uses of the variable that refers
to it. -/
inductive Accesses (p : Program) (heap : Heap) (v : QVar) (o : QObj) : FlowEdge → Prop
  /-- A field is loaded. -/
  | load {lhs field} (huse : (lhs, field) ∈ (p.var v.item).uses.loads) :
      Accesses p heap v o ⟨.field o field, varPointer v.context lhs, .instanceLoad, none⟩
  /-- A field is stored to. -/
  | store {field rhs} (huse : (field, rhs) ∈ (p.var v.item).uses.stores) :
      Accesses p heap v o ⟨varPointer v.context rhs, .field o field, .instanceStore, none⟩
  /-- An element of an array is loaded. -/
  | loadArray {lhs} (huse : lhs ∈ (p.var v.item).uses.arrayLoads) :
      Accesses p heap v o ⟨.array o, varPointer v.context lhs, .arrayLoad, none⟩
  /-- An element is stored, which has to be of the element type. -/
  | storeArray {rhs} (huse : rhs ∈ (p.var v.item).uses.arrayStores) :
      Accesses p heap v o ⟨varPointer v.context rhs, .array o, .arrayStore,
        (heap.typeOf o.item).element?.bind JavaType.reference?⟩

/-- The edges of an access are those of the uses. -/
theorem mem_accessEdges {p : Program} {heap : Heap} {v : QVar} {o : QObj} :
    f ∈ accessEdges p heap v o ↔ Accesses p heap v o f := by
  simp only [accessEdges, List.mem_append, List.mem_map]
  constructor
  · rintro (((⟨⟨lhs, field⟩, huse, rfl⟩ | ⟨⟨field, rhs⟩, huse, rfl⟩) | ⟨lhs, huse, rfl⟩) |
      ⟨rhs, huse, rfl⟩)
    · exact .load huse
    · exact .store huse
    · exact .loadArray huse
    · exact .storeArray huse
  · intro h
    cases h with
    | load huse => exact .inl (.inl (.inl ⟨_, huse, rfl⟩))
    | store huse => exact .inl (.inl (.inr ⟨_, huse, rfl⟩))
    | loadArray huse => exact .inl (.inr ⟨_, huse, rfl⟩)
    | storeArray huse => exact .inr ⟨_, huse, rfl⟩

/-- There is an edge for each argument that has a parameter, if that holds references. -/
theorem mem_argumentEdges {call : Invoke} {callee : Method} {caller target : ContextId} :
    f ∈ argumentEdges call callee caller target ↔ ∃ arg param type,
      (arg, param, type) ∈ call.args.zip callee.typedParams ∧ type.isReference = true ∧
        f = ⟨varPointer caller arg, varPointer target param, .parameterPassing, none⟩ := by
  simp only [argumentEdges, List.mem_map, List.mem_filter]
  constructor
  · rintro ⟨⟨arg, param, type⟩, ⟨hmem, htype⟩, rfl⟩
    exact ⟨arg, param, type, hmem, htype, rfl⟩
  · rintro ⟨arg, param, type, hmem, htype, rfl⟩
    exact ⟨(arg, param, type), ⟨hmem, htype⟩, rfl⟩

/-- There is an edge for each variable that is returned, if the call has a result. -/
theorem mem_returnEdges {result : Option VarId} {callee : Method} {caller target : ContextId} :
    f ∈ returnEdges result callee caller target ↔ ∃ r v, result = some r ∧
      v ∈ callee.returnVars ∧ f = ⟨varPointer target v, varPointer caller r, .ret, none⟩ := by
  cases result with
  | none => simp [returnEdges]
  | some r => simp [returnEdges, eq_comm]

end PointsTo
