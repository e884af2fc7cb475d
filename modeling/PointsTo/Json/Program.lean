import PointsTo.Json.Codec
import PointsTo.Program

/-!
# The JSON forms of programs

Types, references, statements, call sites and the entries of the tables of a
program.
-/

namespace PointsTo.Codec

open Fields

def primitive : Codec Primitive := named (Primitive.all.map fun p => (p.name, p))

/-! ## Types -/

/-- The form of a type. -/
def encodeType : JavaType → Json
  | .void => .str "Void"
  | .primitive p => tag "Primitive" (some (primitive.encode p))
  | .cls name => tag "Class" (some (.str name))
  | .array t => tag "Array" (some (encodeType t))
  | .null => .str "Null"

/-- The forms of the types that contain no type. -/
def flatType : Codec JavaType := tagged
  [.unit "Void" .void,
    .content "Primitive" (fun | .primitive p => some p | _ => none) .primitive primitive,
    .content "Class" (fun | .cls name => some name | _ => none) .cls string,
    .unit "Null" .null]

/-- The type of a form: array tags around a type that contains none. -/
def decodeType : Json → Option JavaType
  | .obj [(name, content)] =>
    if name = "Array" then (decodeType content).map .array
    else flatType.decode (.obj [(name, content)])
  | j => flatType.decode j

def javaType : Codec JavaType := ⟨encodeType, decodeType⟩

/-! ## References -/

def methodRef : Codec MethodRef := record <|
  MethodRef.mk <$> required "class_name" (·.className) string
    <*> required "name" (·.name) string
    <*> required "params" (·.params) (list javaType)
    <*> required "ret" (·.ret) javaType

def handleKind : Codec HandleKind := named
  [("GetField", .getField), ("GetStatic", .getStatic), ("PutField", .putField),
    ("PutStatic", .putStatic), ("InvokeVirtual", .invokeVirtual),
    ("InvokeStatic", .invokeStatic), ("InvokeSpecial", .invokeSpecial),
    ("NewInvokeSpecial", .newInvokeSpecial), ("InvokeInterface", .invokeInterface)]

def methodHandle : Codec MethodHandle := record <|
  MethodHandle.mk <$> required "kind" (·.kind) handleKind
    <*> required "method_ref" (·.target) methodRef

def methodType : Codec MethodType := record <|
  MethodType.mk <$> required "params" (·.params) (list javaType)
    <*> required "ret" (·.ret) javaType

def bootstrapArg : Codec BootstrapArg := tagged
  [.content "MethodType" (fun | .methodType t => some t | _ => none) .methodType methodType,
    .content "MethodHandle" (fun | .handle h => some h | _ => none) .handle methodHandle,
    .content "Str" (fun | .str s => some s | _ => none) .str string,
    .content "Int" (fun | .int n => some n | _ => none) .int
      (int (-9223372036854775808) 9223372036854775808),
    .content "Class" (fun | .cls t => some t | _ => none) .cls javaType]

def dynamicCall : Codec DynamicCall := record <|
  DynamicCall.mk <$> required "bootstrap" (·.bootstrap) methodRef
    <*> required "method_name" (·.methodName) string
    <*> required "method_type" (·.methodType) methodType
    <*> required "bootstrap_args" (·.bootstrapArgs) (list bootstrapArg)

/-! ## Statements and call sites -/

def literal : Codec Literal := tagged
  [.content "Str" (fun | .str s => some s | _ => none) .str string,
    .content "Class" (fun | .cls t => some t | _ => none) .cls javaType,
    .unit "Null" .null]

/-- Two required fields. -/
def two {α β : Type} (name : String) (c : Codec α) (name' : String) (d : Codec β) :
    Fields (α × β) (α × β) :=
  Prod.mk <$> required name (·.1) c <*> required name' (·.2) d

/-- Three required fields. -/
def three {α β γ : Type} (name : String) (c : Codec α) (name' : String) (d : Codec β)
    (name'' : String) (e : Codec γ) : Fields (α × β × γ) (α × β × γ) :=
  (fun a b c => (a, b, c)) <$> required name (·.1) c <*> required name' (·.2.1) d
    <*> required name'' (·.2.2) e

def stmt : Codec Stmt := tagged
  [.record "New" (fun | .new l t => some (l, t) | _ => none)
      (fun (l, t) => .new l t) (two "lhs" id "ty" javaType),
    .record "Copy" (fun | .copy l r => some (l, r) | _ => none)
      (fun (l, r) => .copy l r) (two "lhs" id "rhs" id),
    .record "Cast" (fun | .cast l r t => some (l, r, t) | _ => none)
      (fun (l, r, t) => .cast l r t) (three "lhs" id "rhs" id "ty" javaType),
    .record "AssignLiteral" (fun | .literal l v => some (l, v) | _ => none)
      (fun (l, v) => .literal l v) (two "lhs" id "literal" literal),
    .record "LoadField" (fun | .loadField l b f => some (l, b, f) | _ => none)
      (fun (l, b, f) => .loadField l b f) (three "lhs" id "base" id "field" id),
    .record "StoreField" (fun | .storeField b f r => some (b, f, r) | _ => none)
      (fun (b, f, r) => .storeField b f r) (three "base" id "field" id "rhs" id),
    .record "LoadStatic" (fun | .loadStatic l f => some (l, f) | _ => none)
      (fun (l, f) => .loadStatic l f) (two "lhs" id "field" id),
    .record "StoreStatic" (fun | .storeStatic f r => some (f, r) | _ => none)
      (fun (f, r) => .storeStatic f r) (two "field" id "rhs" id),
    .record "LoadArray" (fun | .loadArray l b => some (l, b) | _ => none)
      (fun (l, b) => .loadArray l b) (two "lhs" id "base" id),
    .record "StoreArray" (fun | .storeArray b r => some (b, r) | _ => none)
      (fun (b, r) => .storeArray b r) (two "base" id "rhs" id),
    .content "Invoke" (fun | .invoke i => some i | _ => none) .invoke id,
    .content "Return" (fun | .ret v => some v | _ => none) .ret (nullable id)]

def invokeKind : Codec InvokeKind := named
  [("Static", .static), ("Virtual", .virtual), ("Interface", .interface),
    ("Special", .special), ("Dynamic", .dynamic)]

def invoke : Codec Invoke := record <|
  Invoke.mk <$> required "id" (·.id) id
    <*> required "container" (·.container) id
    <*> required "kind" (·.kind) invokeKind
    <*> required "method_ref" (·.target) methodRef
    <*> optional "base" (·.base) id
    <*> required "args" (·.args) (list id)
    <*> optional "result" (·.result) id
    <*> optional "line" (·.line) nat32
    <*> optional "dynamic" (·.dynamic) dynamicCall

/-! ## Tables -/

/-- The form of a variable leaves out how it is used. -/
def var : Codec Var := record <|
  (fun id name type method => { id, name, type, method }) <$> required "id" Var.id id
    <*> required "name" Var.name string
    <*> required "ty" Var.type javaType
    <*> required "method" Var.method id

def field : Codec Field := record <|
  Field.mk <$> required "id" (·.id) id
    <*> required "class_name" (·.className) string
    <*> required "name" (·.name) string
    <*> required "ty" (·.type) javaType
    <*> required "is_static" (·.isStatic) bool

def method : Codec Method := record <|
  Method.mk <$> required "id" (·.id) id
    <*> required "class_name" (·.className) string
    <*> required "name" (·.name) string
    <*> required "param_types" (·.paramTypes) (list javaType)
    <*> required "ret" (·.ret) javaType
    <*> required "params" (·.params) (list id)
    <*> optional "this" (·.receiver) id
    <*> required "return_vars" (·.returnVars) (list id)
    <*> required "stmts" (·.stmts) (list stmt)
    <*> required "is_static" (·.isStatic) bool
    <*> required "is_abstract" (·.isAbstract) bool
    <*> required "is_public" (·.isPublic) bool

def cls : Codec Class := record <|
  Class.mk <$> required "id" (·.id) id
    <*> required "name" (·.name) string
    <*> optional "super_class" (·.superClass) string
    <*> required "interfaces" (·.interfaces) (list string)
    <*> required "is_interface" (·.isInterface) bool
    <*> required "is_abstract" (·.isAbstract) bool
    <*> required "methods" (·.methods) (list id)
    <*> required "fields" (·.fields) (list id)

end PointsTo.Codec
