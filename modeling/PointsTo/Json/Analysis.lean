import PointsTo.Json.Program
import PointsTo.Solver

/-!
# The JSON forms of what a run yields

Contexts, objects, pointers, flow edges, call edges and the counts of a run.
-/

namespace PointsTo.Codec

open Fields

/-- An entity under a context; {lit}`name` is what the entity is called. -/
def qualified {e : Entity} (name : String) : Codec (Qualified e) := record <|
  Qualified.mk <$> required "context" (·.context) id <*> required name (·.item) id

def qvar : Codec QVar := qualified "var"

def qobj : Codec QObj := qualified "obj"

def context : Codec Context := record <|
  Context.mk <$> required "elements" (·.elements) (list nat32)

/-! ## Objects -/

def mockKind : Codec MockKind := named (MockKind.all.map fun k => (k.text, k))

def mockSite : Codec MockSite := tagged
  [.content "Invoke" (fun | .invoke i => some i | _ => none) .invoke id,
    .content "Type" (fun | .type t => some t | _ => none) .type javaType,
    .content "Method" (fun | .method m => some m | _ => none) .method id]

def mockObj : Codec MockObj := record <|
  MockObj.mk <$> required "desc" (·.kind) mockKind
    <*> required "alloc" (·.site) mockSite
    <*> required "ty" (·.type) javaType
    <*> optional "container" (·.container) id

def objKind : Codec ObjKind := tagged
  [.record "Alloc" (fun | .alloc m s => some (m, s) | _ => none)
      (fun (m, s) => .alloc m s) (two "method" id "stmt" nat32),
    .content "StringConstant" (fun | .stringConstant s => some s | _ => none) .stringConstant
      string,
    .content "ClassConstant" (fun | .classConstant t => some t | _ => none) .classConstant
      javaType,
    .record "Mock" (fun | .mock k s => some (k, s) | _ => none)
      (fun (k, s) => .mock k s) (two "desc" mockKind "alloc" mockSite)]

def obj : Codec Obj := record <|
  Obj.mk <$> required "kind" (·.kind) objKind
    <*> required "ty" (·.type) javaType
    <*> optional "container" (·.container) id

/-! ## Flow -/

def pointer : Codec Pointer := tagged
  [.content "Var" (fun | .var v => some v | _ => none) .var qvar,
    .content "InstanceField" (fun | .field o f => some (o, f) | _ => none)
      (fun (o, f) => .field o f) (pair qobj id),
    .content "StaticField" (fun | .static f => some f | _ => none) .static id,
    .content "ArrayIndex" (fun | .array o => some o | _ => none) .array qobj]

def flowKind : Codec FlowKind := named
  [("LocalAssign", .localAssign), ("Cast", .cast), ("InstanceLoad", .instanceLoad),
    ("InstanceStore", .instanceStore), ("StaticLoad", .staticLoad),
    ("StaticStore", .staticStore), ("ArrayLoad", .arrayLoad), ("ArrayStore", .arrayStore),
    ("ParameterPassing", .parameterPassing), ("Return", .ret), ("Other", .other)]

def flowEdge : Codec FlowEdge := record <|
  FlowEdge.mk <$> required "source" (·.source) pointer
    <*> required "target" (·.target) pointer
    <*> required "kind" (·.kind) flowKind
    <*> optional "type_filter" (·.filter) javaType

/-! ## Calls -/

def reflectiveApi : Codec ReflectiveApi := named
  [("ClassNewInstance", .classNewInstance), ("ConstructorNewInstance", .constructorNewInstance),
    ("MethodInvoke", .methodInvoke)]

def lambdaCall : Codec LambdaCall := record <|
  LambdaCall.mk <$> required "captured" (·.captured) (list id)
    <*> required "lambda_context" (·.lambdaContext) id
    <*> optional "invoke_result" (·.result) id

def reflectiveCall : Codec ReflectiveCall := record <|
  ReflectiveCall.mk <$> required "api" (·.api) reflectiveApi
    <*> optional "args" (·.args) id

def callKind : Codec CallKind := tagged
  [.unit "Static" .static,
    .unit "Virtual" .virtual,
    .unit "Interface" .interface,
    .unit "Special" .special,
    .content "Lambda" (fun | .lambda c => some c | _ => none) .lambda lambdaCall,
    .content "Reflective" (fun | .reflective c => some c | _ => none) .reflective
      reflectiveCall]

def callEdge : Codec CallEdge := record <|
  CallEdge.mk <$> required "call_site" (·.site) (qualified "invoke")
    <*> required "callee" (·.callee) (qualified "method")
    <*> required "kind" (·.kind) callKind

/-! ## Counts -/

def stats : Codec Stats := record <|
  Stats.mk <$> required "work_items" (·.workItems) nat64
    <*> required "reachable_methods" (·.reachableMethods) nat64
    <*> required "cs_methods" (·.qualifiedMethods) nat64
    <*> required "call_edges" (·.callEdges) nat64
    <*> required "pfg_edges" (·.flowEdges) nat64
    <*> required "objects" (·.objects) nat64
    <*> required "contexts" (·.contexts) nat64
    <*> required "pointers" (·.pointers) nat64

end PointsTo.Codec
