import PointsTo.Id
import PointsTo.MethodRef

/-!
# Statements and call sites

The body of a method is a list of statements over its variables.  A call is a
statement that names a call site; the call site holds the reference, the
receiver, the arguments and the variable for the result.  A dynamic call site
also holds its bootstrap method and arguments: for a lambda expression these
name the method that implements it.
-/

namespace PointsTo

/-- A constant that is assigned to a variable. -/
inductive Literal where
  | str (value : String)
  | cls (type : JavaType)
  | null
deriving DecidableEq

/-- A statement of a method body. -/
inductive Stmt where
  | new (lhs : VarId) (type : JavaType)
  | copy (lhs rhs : VarId)
  | cast (lhs rhs : VarId) (type : JavaType)
  | literal (lhs : VarId) (value : Literal)
  | loadField (lhs base : VarId) (field : FieldId)
  | storeField (base : VarId) (field : FieldId) (rhs : VarId)
  | loadStatic (lhs : VarId) (field : FieldId)
  | storeStatic (field : FieldId) (rhs : VarId)
  | loadArray (lhs base : VarId)
  | storeArray (base rhs : VarId)
  | invoke (site : InvokeId)
  | ret (value : Option VarId)
deriving DecidableEq

/-! ## Method handles and dynamic calls -/

/-- How a method handle reaches its member. -/
inductive HandleKind where
  | getField
  | getStatic
  | putField
  | putStatic
  | invokeVirtual
  | invokeStatic
  | invokeSpecial
  | newInvokeSpecial
  | invokeInterface
deriving DecidableEq

namespace HandleKind

/-- All kinds of handles. -/
def all : List HandleKind :=
  [getField, getStatic, putField, putStatic, invokeVirtual, invokeStatic,
    invokeSpecial, newInvokeSpecial, invokeInterface]

/-- The written form of a handle kind. -/
def text : HandleKind → String
  | getField => "REF_getField"
  | getStatic => "REF_getStatic"
  | putField => "REF_putField"
  | putStatic => "REF_putStatic"
  | invokeVirtual => "REF_invokeVirtual"
  | invokeStatic => "REF_invokeStatic"
  | invokeSpecial => "REF_invokeSpecial"
  | newInvokeSpecial => "REF_newInvokeSpecial"
  | invokeInterface => "REF_invokeInterface"

/-- Every kind of handle is in the list of all. -/
theorem mem_all (k : HandleKind) : k ∈ all := by
  cases k <;> decide

end HandleKind

/-- A constant that stands for a member of a class. -/
structure MethodHandle where
  kind : HandleKind
  target : MethodRef
deriving DecidableEq

/-- Parameter types and return type, without class and name. -/
structure MethodType where
  params : List JavaType
  ret : JavaType
deriving DecidableEq, Inhabited

/-- A static argument of a bootstrap method. -/
inductive BootstrapArg where
  | methodType (type : MethodType)
  | handle (handle : MethodHandle)
  | str (value : String)
  | int (value : Int)
  | cls (type : JavaType)
deriving DecidableEq

/-- What makes a call site dynamic: the bootstrap method, the method name and
type that the site asks for, and the static arguments. -/
structure DynamicCall where
  bootstrap : MethodRef
  methodName : String
  methodType : MethodType
  bootstrapArgs : List BootstrapArg
deriving DecidableEq, Inhabited

/-- The method handle at position {lit}`i` of the static arguments, if there is
one there. -/
def DynamicCall.handle? (d : DynamicCall) (i : Nat) : Option MethodHandle :=
  match d.bootstrapArgs[i]? with
  | some (.handle h) => some h
  | _ => none

/-- The method that a dynamic site asks for, as a reference: the bootstrap
method lends its class. -/
def DynamicCall.methodRef (d : DynamicCall) : MethodRef :=
  { className := d.bootstrap.className
    name := d.methodName
    params := d.methodType.params
    ret := d.methodType.ret }

/-! ## Call sites -/

/-- The kind of call instruction at a site. -/
inductive InvokeKind where
  | static
  | virtual
  | interface
  | special
  | dynamic
deriving DecidableEq, Inhabited

/-- Virtual, interface and special calls have a receiver to dispatch on. -/
def InvokeKind.isInstance : InvokeKind → Bool
  | virtual | interface | special => true
  | static | dynamic => false

/-- A call site.  At a dynamic site the arguments are the captured values. -/
structure Invoke where
  id : InvokeId
  container : MethodId
  kind : InvokeKind
  target : MethodRef
  base : Option VarId
  args : List VarId
  result : Option VarId
  line : Option Nat
  dynamic : Option DynamicCall
deriving DecidableEq, Inhabited

end PointsTo
