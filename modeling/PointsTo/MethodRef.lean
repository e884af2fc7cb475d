import PointsTo.JavaType

/-!
# References to methods

A call names its target by declaring class, name, parameter types and return
type.  Two written forms matter: the full signature, which identifies a method of
the program, and the dispatch key, by which overriding methods find each other
and which leaves out the return type.
-/

namespace PointsTo

/-- The name that all constructors carry. -/
def constructorName : String := "<init>"

/-- The key by which a method overrides another: name and parameter types. -/
def dispatchKeyOf (name : String) (params : List JavaType) : String :=
  name ++ "(" ++ JavaType.listText params ++ ")"

/-- A method by declaring class, name, parameter types and return type. -/
structure MethodRef where
  className : String
  name : String
  params : List JavaType
  ret : JavaType
deriving DecidableEq, Inhabited

namespace MethodRef

/-- The written form without the class: return type, name, parameter types. -/
def subsignature (r : MethodRef) : String :=
  r.ret.text ++ " " ++ r.name ++ "(" ++ JavaType.listText r.params ++ ")"

/-- The full written form, in angle brackets. -/
def signature (r : MethodRef) : String :=
  "<" ++ r.className ++ ": " ++ r.subsignature ++ ">"

/-- What tells instance methods of one class apart, and overrides in others. -/
def dispatchKey (r : MethodRef) : String :=
  dispatchKeyOf r.name r.params

/-- The reference is to a constructor. -/
def isConstructor (r : MethodRef) : Bool :=
  r.name == constructorName

/-- The subsignature is the return type in front of the dispatch key. -/
theorem subsignature_eq (r : MethodRef) :
    r.subsignature = r.ret.text ++ " " ++ r.dispatchKey := by
  simp [subsignature, dispatchKey, dispatchKeyOf, String.append_assoc]

end MethodRef

end PointsTo
