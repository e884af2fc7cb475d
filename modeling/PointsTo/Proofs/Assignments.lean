import PointsTo.Proofs.Origins

/-!
# How objects come to variables

Where an object that a variable refers to comes from can be told from the variable alone: some
statement assigns the variable, a call returns to it or passes values to it, or it is the receiver
of a method.

Main results:

- {lit}`Stmt.lhs?`: the variable that a statement assigns.
- {lit}`View.Supplies`, and theorem {lit}`Solver.Warranted.supplies`: what brings an object to a
  variable.
-/

namespace PointsTo

/-- The variable that a statement assigns.  The result of a call is not assigned by the
statement. -/
def Stmt.lhs? : Stmt → Option VarId
  | .new lhs _ | .copy lhs _ | .cast lhs .. | .literal lhs _ | .loadField lhs .. | .loadStatic lhs _
  | .loadArray lhs _ => some lhs
  | .storeField .. | .storeStatic .. | .storeArray .. | .invoke _ | .ret _ => none

variable {env : Setting} {k : View} {c : ContextId} {v : VarId} {o : QObj}

/-- What brings an object to a variable under a context. -/
inductive View.Supplies (env : Setting) (k : View) (c : ContextId) (v : VarId) (o : QObj) : Prop
  /-- A statement assigns the variable; if it is a cast, the object has the type. -/
  | stmt {stmt} (hstmt : env.program.HasStmt stmt) (hlhs : stmt.lhs? = some v)
      (hcast : ∀ rhs type, stmt = .cast v rhs type →
        Solver.Passes env.program k.heap type.reference? o)
  /-- A call returns to it. -/
  | result {site} (hv : v ∈ (env.program.invoke site).result)
  /-- A call passes values to it. -/
  | param {m} (hv : v ∈ (env.program.method m).params)
  /-- A method is run on the object under the context that is selected for it. -/
  | receiver {site m} (hthis : v ∈ (env.program.method m).receiver)
      (hsite : k.contexts.Has site.context) (hc : k.Selects env site (some o) c)
  /-- A reference to a method takes its receiver from another variable. -/
  | reference {edge call} (hedge : k.call edge) (hk : edge.kind = .lambda call)
      (hno : (env.program.method edge.callee.item).isConstructor = false)
      (hthis : v ∈ (env.program.method edge.callee.item).receiver) (hc : edge.callee.context = c)

theorem Stmt.lhs?_of_obj? {method : MethodId} {index : Nat} {stmt : Stmt} {x : Obj} {onHeap : Bool}
    (h : stmt.obj? method index = some (v, x, onHeap)) :
    stmt.lhs? = some v ∧ ∀ lhs rhs type, stmt ≠ .cast lhs rhs type := by
  cases stmt with
  | new => cases h; exact ⟨rfl, by simp⟩
  | literal _ value => cases value <;> cases h <;> exact ⟨rfl, by simp⟩
  | copy | cast | loadField | storeField | loadStatic | storeStatic | loadArray | storeArray
    | invoke | ret => cases h

/-- What flows to a variable by a statement has the type of the cast if that is one. -/
theorem Stmt.supplies_of_flow? {stmt : Stmt} {c' : ContextId} {e : FlowEdge}
    (hstmt : env.program.HasStmt stmt) (he : stmt.flow? c' = some e)
    (htarget : e.target = varPointer c v) (hp : Solver.Passes env.program k.heap e.filter o) :
    k.Supplies env c v o := by
  cases stmt with
  | copy | loadStatic =>
      cases he
      cases htarget
      exact .stmt hstmt rfl (by simp)
  | cast =>
      cases he
      cases htarget
      refine .stmt hstmt rfl ?_
      rintro _ _ ⟨⟩
      exact hp
  | storeStatic =>
      cases he
      cases htarget
  | new | literal | loadField | storeField | loadArray | storeArray | invoke | ret => cases he

/-- What flows to a variable from the heap is loaded by a statement. -/
theorem FlowEdge.supplies_of_accessEdges (hb : env.program.Built) {w : QVar} {o' : QObj}
    {e : FlowEdge} (he : e ∈ accessEdges env.program k.heap w o')
    (htarget : e.target = varPointer c v) : k.Supplies env c v o := by
  cases mem_accessEdges.1 he with
  | load huse =>
      cases htarget
      exact .stmt (hb.mem_loads.1 huse) rfl (by simp)
  | loadArray huse =>
      cases htarget
      exact .stmt (hb.mem_arrayLoads.1 huse) rfl (by simp)
  | store | storeArray => cases htarget

/-- What an edge brings to a variable is supplied by what the edge comes from. -/
theorem FlowEdge.Origin.supplies (hb : env.program.Built) {e : FlowEdge} (h : e.Origin env k)
    (htarget : e.target = varPointer c v) (hp : Solver.Passes env.program k.heap e.filter o) :
    k.Supplies env c v o := by
  cases h with
  | stmt hstmt he => exact Stmt.supplies_of_flow? hstmt he htarget hp
  | access _ he => exact supplies_of_accessEdges hb he htarget
  | param hv he =>
      cases he.symm.trans htarget
      exact .param hv
  | result hv he =>
      cases he.symm.trans htarget
      exact .result hv
  | receiver hedge hk hno hthis he =>
      cases he.symm.trans htarget
      exact .reference hedge hk hno hthis rfl

/-- In a state where everything has an origin, what a variable refers to, or will refer to, was
brought to it. -/
theorem Solver.Warranted.supplies {s : Solver} (h : s.Warranted env) (hb : env.program.Built)
    (ho : s.Owes (varPointer c v) o) : s.settled.Supplies env c v o := by
  have horigin := h.points ho
  generalize hptr : varPointer c v = ptr at horigin
  cases horigin with
  | assigned hstmt hx =>
      cases hptr
      obtain ⟨hlhs, hcast⟩ := Stmt.lhs?_of_obj? hx
      exact .stmt ⟨_, List.mem_of_getElem? hstmt⟩ hlhs fun _ _ h => absurd h (hcast _ _ _)
  | result hv =>
      cases hptr
      exact .result hv
  | receiver hthis hsite hc =>
      cases hptr
      exact .receiver hthis hsite hc
  | flow he hp => exact (h.flow he).supplies hb hptr.symm hp

end PointsTo
