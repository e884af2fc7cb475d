import PointsTo.Id
import PointsTo.JavaType

/-!
# Pointers and flow edges

A pointer is whatever holds references: a variable under a context, a field of
an object, a static field, or all elements of an array object together.  A flow
edge says that whatever its source may refer to, its target may refer to as well,
unless the filter of the edge holds it back.
-/

namespace PointsTo

/-- A place that holds references. -/
inductive Pointer where
  | var (v : QVar)
  | field (o : QObj) (f : FieldId)
  | static (f : FieldId)
  | array (o : QObj)
deriving DecidableEq

namespace Pointer

def var? : Pointer → Option QVar
  | var v => some v
  | _ => none

/-- The written form of a pointer. -/
def text : Pointer → String
  | var v => v.text
  | field o f => o.text ++ "." ++ f.text
  | static f => "static." ++ f.text
  | array o => o.text ++ "[*]"

/-- The numbers that pointers are sorted by, the first of which is the kind. -/
def rank : Pointer → List Nat
  | var v => [0, v.context.index, v.item.index]
  | field o f => [1, o.context.index, o.item.index, f.index]
  | static f => [2, f.index]
  | array o => [3, o.context.index, o.item.index]

/-- The order of rows of numbers in which the first difference decides, and a row comes
before what goes on from it. -/
def rankLe : List Nat → List Nat → Bool
  | [], _ => true
  | _ :: _, [] => false
  | a :: as, b :: bs => decide (a < b) || (decide (a = b) && rankLe as bs)

/-- Variables come before fields, then static fields, then arrays; within a kind
the ids decide, read from the left. -/
def le (p q : Pointer) : Bool := rankLe p.rank q.rank

end Pointer

/-- The pointer of a variable under a context. -/
def varPointer (context : ContextId) (v : VarId) : Pointer := .var ⟨context, v⟩

/-! ## Flow edges -/

/-- Why references flow from one pointer to another. -/
inductive FlowKind where
  | localAssign
  | cast
  | instanceLoad
  | instanceStore
  | staticLoad
  | staticStore
  | arrayLoad
  | arrayStore
  | parameterPassing
  | ret
  | other
deriving DecidableEq

namespace FlowKind

def all : List FlowKind :=
  [localAssign, cast, instanceLoad, instanceStore, staticLoad, staticStore, arrayLoad,
    arrayStore, parameterPassing, ret, other]

/-- The written form of a kind of flow. -/
def text : FlowKind → String
  | localAssign => "LOCAL_ASSIGN"
  | cast => "CAST"
  | instanceLoad => "INSTANCE_LOAD"
  | instanceStore => "INSTANCE_STORE"
  | staticLoad => "STATIC_LOAD"
  | staticStore => "STATIC_STORE"
  | arrayLoad => "ARRAY_LOAD"
  | arrayStore => "ARRAY_STORE"
  | parameterPassing => "PARAMETER_PASSING"
  | ret => "RETURN"
  | other => "OTHER"

end FlowKind

/-- References flow from {lit}`source` to {lit}`target`; with a filter, only those
to objects of a subtype of it. -/
structure FlowEdge where
  source : Pointer
  target : Pointer
  kind : FlowKind
  filter : Option JavaType
deriving DecidableEq

/-- The written form of a flow edge, followed by its filter in brackets. -/
def FlowEdge.text (e : FlowEdge) : String :=
  e.source.text ++ " --" ++ e.kind.text ++ "--> " ++ e.target.text ++
    match e.filter with
    | some t => " [" ++ t.text ++ "]"
    | none => ""

end PointsTo
