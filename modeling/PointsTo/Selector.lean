import PointsTo.Context
import PointsTo.Heap
import PointsTo.Options
import PointsTo.Program

/-!
# Choosing contexts

A selector says under which context a call is analysed and under which heap
context an allocation is recorded.  A context is extended by one element per
call: the call site, the receiver object, or the class in which the receiver was
allocated.  Calls without a receiver keep the context of the caller where
elements are taken from receivers.
-/

namespace PointsTo

/-- A strategy with the lengths of contexts and heap contexts. -/
structure Selector where
  strategy : Strategy
  k : Nat
  heapDepth : Nat
deriving DecidableEq

/-- The selector that options describe. -/
def Options.selector (o : Options) : Selector :=
  { strategy := o.context, k := o.k, heapDepth := o.heapDepth }

namespace Selector

def name (s : Selector) : String := s.strategy.text

/-- The class that stands for an object in a context of classes: that of the
method that allocates it, or its own if no method does. -/
def allocatingClass? (p : Program) (o : Obj) : Option String :=
  let container :=
    match o.kind with
    | .alloc method _ => some method
    | _ => o.container
  match container with
  | some m => some (p.method m).className
  | none => o.type.className?

/-- The context element for the class of an object; undeclared classes share the
largest number. -/
def typeElement (p : Program) (o : Obj) : Nat :=
  match (allocatingClass? p o).bind p.classId? with
  | some c => c.index
  | none => lastId

/-- The context for a call, and the table that holds it. -/
def callContext (s : Selector) (p : Program) (heap : Heap) (table : ContextTable) (site : QSite)
    (receiver : Option QObj) : Except Error (ContextId × ContextTable) :=
  match s.strategy, receiver with
  | .insensitive, _ => .ok (emptyContext, table)
  | .callSite, _ => table.intern ((table.get site.context).push site.item.index s.k)
  | .object, some o => table.intern ((table.get o.context).push o.item.index s.k)
  | .type, some o =>
    table.intern ((table.get o.context).push (typeElement p (heap.get o.item)) s.k)
  | .object, none | .type, none => .ok (site.context, table)

/-- The heap context for an allocation in a method, and the table that holds it. -/
def heapContext (s : Selector) (table : ContextTable) (method : QMethod) :
    Except Error (ContextId × ContextTable) :=
  if s.strategy = .insensitive ∨ s.heapDepth = 0 then .ok (emptyContext, table)
  else table.intern ((table.get method.context).truncate s.heapDepth)

end Selector

end PointsTo
