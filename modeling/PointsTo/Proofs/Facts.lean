import PointsTo.Proofs.View

/-!
# Facts without ids

A run numbers its objects and contexts as it meets them.  What it finds out about a
program does not depend on the numbers: objects are told apart by what they are, and
contexts by what their elements stand for.  This file describes facts in such terms,
says what it means that a family of facts is closed under the rules of the analysis, and
how the facts of a state are read off its tables.

Main definitions:

- {lit}`Mark`, {lit}`Under`: what context elements stand for, and things under contexts.
- {lit}`Facts`: families of facts, ordered by inclusion ({lit}`Facts.Le`).
- {lit}`Facts.Closed`: the rules of the analysis, for families of facts.
- {lit}`Reading`: tables that give ids their meaning; {lit}`Reading.facts`.
-/

namespace PointsTo

/-! ## Things under contexts -/

/-- What an element of a context stands for. -/
inductive Mark where
  | site (i : InvokeId)
  | obj (o : Obj)
  /-- The class of this number, or all undeclared ones. -/
  | cls (index : Nat)

/-- A thing under a context that is given by what its elements stand for, oldest first. -/
structure Under (α : Type) where
  context : List Mark
  item : α

/-- A place that holds references. -/
inductive Place where
  | var (v : Under VarId)
  | field (o : Under Obj) (f : FieldId)
  | static (f : FieldId)
  | array (o : Under Obj)

/-- References flow from one place to another, unless the filter holds them back. -/
structure Flow where
  source : Place
  target : Place
  kind : FlowKind
  filter : Option JavaType

/-- A call site runs a method. -/
structure Call where
  site : Under InvokeId
  callee : Under MethodId
  kind : CallKind

/-- A family of facts about a program. -/
structure Facts where
  reached : Under MethodId → Prop
  points : Place → Under Obj → Prop
  flow : Flow → Prop
  call : Call → Prop

/-- The second family contains the first one. -/
structure Facts.Le (F G : Facts) : Prop where
  reached : ∀ {m}, F.reached m → G.reached m
  points : ∀ {place o}, F.points place o → G.points place o
  flow : ∀ {e}, F.flow e → G.flow e
  call : ∀ {e}, F.call e → G.call e

/-! ## Chosen contexts -/

/-- The last {lit}`limit` elements of a context. -/
def lastMarks (limit : Nat) (marks : List Mark) : List Mark := marks.drop (marks.length - limit)

namespace Selector

/-- The context for a call. -/
def callMarks (s : Selector) (p : Program) (site : Under InvokeId) (receiver : Option (Under Obj)) :
    List Mark :=
  match s.strategy, receiver with
  | .insensitive, _ => []
  | .callSite, _ => lastMarks s.k (site.context ++ [.site site.item])
  | .object, some o => lastMarks s.k (o.context ++ [.obj o.item])
  | .type, some o => lastMarks s.k (o.context ++ [.cls (typeElement p o.item)])
  | .object, none | .type, none => site.context

/-- The heap context for an allocation in a method under a context. -/
def heapMarks (s : Selector) (context : List Mark) : List Mark :=
  if s.strategy = .insensitive ∨ s.heapDepth = 0 then [] else lastMarks s.heapDepth context

end Selector

/-! ## The rules -/

/-- The method with a body that a call runs on an object of a type. -/
def targetOn? (p : Program) (call : Invoke) (type : JavaType) : Option MethodId :=
  p.concrete? <|
    match call.kind with
    | .special => p.resolve? call.target
    | _ => p.dispatch? type call.target

namespace Facts

variable (p : Program) (s : Selector) (F : Facts)

/-- A filter lets an object pass. -/
def Passes (filter : Option JavaType) (o : Under Obj) : Prop :=
  ∀ t ∈ filter, p.isSubtype o.item.type t = true

/-- Statement number {lit}`index` of a method has its effect under the context of the
method. -/
def Effect (m : Under MethodId) (index : Nat) : Stmt → Prop
  | .new lhs type => F.points (.var ⟨m.context, lhs⟩)
      ⟨s.heapMarks m.context, .alloc m.item index type⟩
  | .literal lhs (.str value) => F.points (.var ⟨m.context, lhs⟩) ⟨[], .stringConstant value⟩
  | .literal lhs (.cls type) => F.points (.var ⟨m.context, lhs⟩) ⟨[], .classConstant type⟩
  | .copy lhs rhs => F.flow ⟨.var ⟨m.context, rhs⟩, .var ⟨m.context, lhs⟩, .localAssign, none⟩
  | .cast lhs rhs type =>
      F.flow ⟨.var ⟨m.context, rhs⟩, .var ⟨m.context, lhs⟩, .cast, type.reference?⟩
  | .loadStatic lhs f => F.flow ⟨.static f, .var ⟨m.context, lhs⟩, .staticLoad, none⟩
  | .storeStatic f rhs => F.flow ⟨.var ⟨m.context, rhs⟩, .static f, .staticStore, none⟩
  | .invoke site => ∀ callee, staticTarget? p (p.invoke site) = some callee →
      F.call ⟨⟨m.context, site⟩, ⟨s.callMarks p ⟨m.context, site⟩ none, callee⟩, .static⟩
  | .literal _ .null | .loadField .. | .storeField .. | .loadArray .. | .storeArray .. | .ret _ =>
      True

/-- A call site is resolved on an object: the method to run is called under the chosen
context, and the object reaches its receiver. -/
def Called (site : Under InvokeId) (o : Under Obj) : Prop :=
  ∀ callee kind, targetOn? p (p.invoke site.item) o.item.type = some callee →
    CallKind.ofInvoke? (p.invoke site.item).kind = some kind →
    F.call ⟨site, ⟨s.callMarks p site (some o), callee⟩, kind⟩ ∧
      ∀ this ∈ (p.method callee).receiver,
        F.points (.var ⟨s.callMarks p site (some o), this⟩) o

/-- What a statement asks for when {lit}`v`, as its base, refers to {lit}`o`. -/
def Access (v : Under VarId) (o : Under Obj) : Stmt → Prop
  | .loadField lhs base f => base = v.item →
      F.flow ⟨.field o f, .var ⟨v.context, lhs⟩, .instanceLoad, none⟩
  | .storeField base f rhs => base = v.item →
      F.flow ⟨.var ⟨v.context, rhs⟩, .field o f, .instanceStore, none⟩
  | .loadArray lhs base => base = v.item →
      F.flow ⟨.array o, .var ⟨v.context, lhs⟩, .arrayLoad, none⟩
  | .storeArray base rhs => base = v.item →
      F.flow ⟨.var ⟨v.context, rhs⟩, .array o, .arrayStore,
        o.item.type.element?.bind JavaType.reference?⟩
  | .invoke site => (p.invoke site).base = some v.item →
      (p.invoke site).kind.isInstance = true → F.Called p s ⟨v.context, site⟩ o
  | .new .. | .copy .. | .cast .. | .literal .. | .loadStatic .. | .storeStatic .. | .ret _ => True

/-- Arguments flow to the parameters that hold references, and returned variables to the
result. -/
structure Wired (e : Call) : Prop where
  argument : ∀ arg param type,
    (arg, param, type) ∈ (p.invoke e.site.item).args.zip (p.method e.callee.item).typedParams →
    type.isReference = true →
    F.flow ⟨.var ⟨e.site.context, arg⟩, .var ⟨e.callee.context, param⟩, .parameterPassing, none⟩
  result : ∀ r ∈ (p.invoke e.site.item).result, ∀ v ∈ (p.method e.callee.item).returnVars,
    F.flow ⟨.var ⟨e.callee.context, v⟩, .var ⟨e.site.context, r⟩, .ret, none⟩

/-- The family contains the entry methods under the empty context and is closed under all
rules of the analysis. -/
structure Closed (entries : List MethodId) : Prop where
  entry : ∀ i ∈ entries, F.reached ⟨[], i⟩
  body : ∀ m, F.reached m → ∀ index stmt, (p.method m.item).stmts[index]? = some stmt →
    F.Effect p s m index stmt
  flow : ∀ e, F.flow e → ∀ o, F.points e.source o → Passes p e.filter o → F.points e.target o
  access : ∀ v o, F.points (.var v) o → ∀ m, ∀ stmt ∈ (p.method m).stmts, F.Access p s v o stmt
  callee : ∀ e, F.call e → F.reached e.callee
  wiring : ∀ e, F.call e → e.kind.isOrdinary = true → F.Wired p e

end Facts

/-! ## Reading ids -/

/-- Tables that give ids their meaning. -/
structure Reading where
  strategy : Strategy
  heap : Heap
  contexts : ContextTable

namespace Reading

variable (r : Reading)

/-- What an element of a context stands for. -/
def mark (element : Nat) : Mark :=
  match r.strategy with
  | .insensitive | .callSite => .site ⟨element⟩
  | .object => .obj (r.heap.get ⟨element⟩)
  | .type => .cls element

def marks (c : ContextId) : List Mark := (r.contexts.get c).elements.map r.mark

def obj (o : QObj) : Under Obj := ⟨r.marks o.context, r.heap.get o.item⟩

/-- An entity of the program under a context. -/
def under {e : Entity} (q : Qualified e) : Under (Id e) := ⟨r.marks q.context, q.item⟩

def place : Pointer → Place
  | .var v => .var (r.under v)
  | .field o f => .field (r.obj o) f
  | .static f => .static f
  | .array o => .array (r.obj o)

def flow (e : FlowEdge) : Flow := ⟨r.place e.source, r.place e.target, e.kind, e.filter⟩

def call (e : CallEdge) : Call := ⟨r.under e.site, r.under e.callee, e.kind⟩

/-- What has been worked in, without ids. -/
def facts (s : Solver) : Facts where
  reached := fun m => ∃ q ∈ s.calls.reachableIn, r.under q = m
  points := fun place o => ∃ ptr q, q ∈ s.pointsTo.get ptr ∧ r.place ptr = place ∧ r.obj q = o
  flow := fun e => ∃ f ∈ s.flow.edges, r.flow f = e
  call := fun e => ∃ c ∈ s.calls.edges, r.call c = e

end Reading

end PointsTo
