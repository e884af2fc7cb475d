/-!
# Types of the analysed programs

The types that variables, fields, parameters and objects carry.  Class types
hold a name and nothing more: whether the class is declared is a question to the
program, not to the type.
-/

namespace PointsTo

/-- The primitive types. -/
inductive Primitive where
  | boolean
  | byte
  | char
  | short
  | int
  | long
  | float
  | double
deriving DecidableEq

namespace Primitive

/-- All primitive types. -/
def all : List Primitive := [boolean, byte, char, short, int, long, float, double]

/-- The name of a primitive type in signatures. -/
def name : Primitive → String
  | boolean => "boolean"
  | byte => "byte"
  | char => "char"
  | short => "short"
  | int => "int"
  | long => "long"
  | float => "float"
  | double => "double"

/-- The primitive type of a name. -/
def ofName? (s : String) : Option Primitive :=
  all.find? fun p => p.name == s

/-- Every primitive type is in the list of all. -/
theorem mem_all (p : Primitive) : p ∈ all := by
  cases p <;> decide

end Primitive

/-- A type: no value, a primitive, a class by name, an array, or the type of
the null reference. -/
inductive JavaType where
  | void
  | primitive (p : Primitive)
  | cls (name : String)
  | array (element : JavaType)
  | null
deriving DecidableEq, Inhabited

namespace JavaType

/-! ## Classes with a fixed role -/

/-- The root of the class hierarchy. -/
def objectName : String := "java.lang.Object"

/-- The class of string constants. -/
def stringName : String := "java.lang.String"

/-- The class of class literals. -/
def classClassName : String := "java.lang.Class"

/-- One of the two interfaces that every array implements. -/
def cloneableName : String := "java.lang.Cloneable"

/-- One of the two interfaces that every array implements. -/
def serializableName : String := "java.io.Serializable"

/-- The type of texts. -/
def string : JavaType := cls stringName

/-- The type of classes. -/
def classClass : JavaType := cls classClassName

/-! ## Queries -/

/-- Reference types are the class types, the array types and the null type. -/
def isReference : JavaType → Bool
  | cls _ | array _ | null => true
  | void | primitive _ => false

/-- The type is primitive. -/
def isPrimitive : JavaType → Bool
  | primitive _ => true
  | _ => false

/-- The name of a class type. -/
def className? : JavaType → Option String
  | cls name => some name
  | _ => none

/-- The type of the elements of an array. -/
def element? : JavaType → Option JavaType
  | array t => some t
  | _ => none

/-- The type is one of arrays. -/
def isArray : JavaType → Bool
  | array _ => true
  | _ => false

/-- The type itself when it is a reference type: what an edge may filter by. -/
def reference? (t : JavaType) : Option JavaType :=
  if t.isReference then some t else none

/-- The written form of a type, as it stands in signatures. -/
def text : JavaType → String
  | void => "void"
  | primitive p => p.name
  | cls name => name
  | array t => t.text ++ "[]"
  | null => "null"

/-- A parameter list: the written types, separated by commas. -/
def listText (ts : List JavaType) : String :=
  ",".intercalate (ts.map text)

/-- Only reference types are taken for reference types. -/
@[simp] theorem reference?_eq_some_iff {t u : JavaType} :
    t.reference? = some u ↔ t.isReference = true ∧ t = u := by
  unfold reference?
  split <;> simp_all

end JavaType

end PointsTo
