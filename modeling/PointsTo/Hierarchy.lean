import PointsTo.Program

/-!
# The class hierarchy

Walks over superclasses and interfaces, and the questions they answer: is one
type a subtype of another, which method does a call on an object run, which
method does a reference name.

Classes may be missing and superclasses may form a cycle.  A walk therefore
stops at a name that it has met before and treats an undeclared class as one
without superclass and interfaces.  Each walk takes a bound on its length that is
read off the program and is never reached before the walk is complete.

Main definitions:

- {lit}`Program.superclassChain`, {lit}`Program.interfacesOf`: the walks.
- {lit}`Program.isSubtype`, {lit}`Program.dispatch?`, {lit}`Program.resolve?`.
- {lit}`Program.constructors`, {lit}`Program.methodsNamed`: methods by class and name.
-/

namespace PointsTo

namespace Program

/-! ## Walks -/

/-- The superclass that a class declares. -/
def superclass? (p : Program) (name : String) : Option String :=
  (p.class? name).bind Class.superClass

/-- The interfaces that a class names itself. -/
def ownInterfaces (p : Program) (name : String) : List String :=
  match p.class? name with
  | some c => c.interfaces
  | none => []

/-- A class and its superclasses up to the first that was {lit}`seen`, nearest
first. -/
def chainFrom (p : Program) : Nat → List String → String → List String
  | 0, _, _ => []
  | bound + 1, seen, name =>
    if name ∈ seen then []
    else
      name :: match p.superclass? name with
        | some s => chainFrom p bound (name :: seen) s
        | none => []

/-- A class and its superclasses, nearest first.  Only the last of them can be
undeclared, so there are at most one more of them than classes. -/
def superclassChain (p : Program) (name : String) : List String :=
  p.chainFrom (p.classes.size + 1) [] name

/-- The interfaces reached from a queue, breadth first, without those seen. -/
def interfacesFrom (p : Program) : Nat → List String → List String → List String
  | 0, _, _ => []
  | _, _, [] => []
  | bound + 1, seen, i :: queue =>
    if i ∈ seen then interfacesFrom p bound seen queue
    else i :: interfacesFrom p bound (i :: seen) (queue ++ p.ownInterfaces i)

/-- All interfaces that the classes of a chain implement, breadth first.  Beside
what is queued at first, every declared class queues its interfaces once. -/
def interfacesOf (p : Program) (chain : List String) : List String :=
  let queue := chain.flatMap p.ownInterfaces
  let named := p.classes.toList.flatMap Class.interfaces
  p.interfacesFrom (queue.length + named.length + 1) [] queue

/-! ## Subtypes -/

/-- A class is below itself, the root, its superclasses and the interfaces that
any of these implement. -/
def isSubclass (p : Program) (sub sup : String) : Bool :=
  sub == sup || sup == JavaType.objectName ||
    (let chain := p.superclassChain sub
     chain.contains sup || (p.interfacesOf chain).contains sup)

/-- A value of type {lit}`sub` may stand where {lit}`sup` is asked for. -/
def isSubtype (p : Program) : JavaType → JavaType → Bool
  | .void, sup => sup == .void
  | .primitive a, sup => sup == .primitive a
  | .null, sup => sup.isReference
  | .cls a, .cls b => p.isSubclass a b
  | .cls _, _ => false
  | .array _, .cls b =>
    b == JavaType.objectName || b == JavaType.cloneableName || b == JavaType.serializableName
  | .array a, .array b => if a.isReference && b.isReference then p.isSubtype a b else a == b
  | .array _, _ => false

/-! ## Dispatch and resolution -/

/-- The first method with a key that a class declares. -/
def declared? (p : Program) (className key : String) : Option MethodId :=
  match p.class? className with
  | some c => c.methods.find? fun m => (p.method m).dispatchKey == key
  | none => none

/-- The nearest instance method with a key in a chain of classes. -/
def nearestInstance? (p : Program) (key : String) (chain : List String) : Option MethodId :=
  chain.findSome? fun c => (p.declared? c key).filter fun m => !(p.method m).isStatic

/-- The class in which dispatch on an object of a type begins. -/
def dispatchClass? : JavaType → Option String
  | .cls name => some name
  | .array _ => some JavaType.objectName
  | _ => none

/-- The method that a call of {lit}`r` runs on an object of a type.  The nearest
instance method decides; if it is abstract there is none.  Without one the first
interface method with a body is taken. -/
def dispatch? (p : Program) (type : JavaType) (r : MethodRef) : Option MethodId :=
  match dispatchClass? type with
  | none => none
  | some c =>
    let chain := p.superclassChain c
    match p.nearestInstance? r.dispatchKey chain with
    | some m => if (p.method m).isAbstract then none else some m
    | none =>
      ((p.interfacesOf chain).filterMap fun i => p.declared? i r.dispatchKey).find? fun m =>
        !(p.method m).isAbstract

/-- The method that a reference names.  Constructors are looked for in their own
class, other methods in the class, its superclasses and their interfaces. -/
def resolve? (p : Program) (r : MethodRef) : Option MethodId :=
  if r.isConstructor then p.declared? r.className r.dispatchKey
  else
    let chain := p.superclassChain r.className
    (chain.findSome? fun c => p.declared? c r.dispatchKey).or
      ((p.interfacesOf chain).findSome? fun i => p.declared? i r.dispatchKey)

/-- The method unless it is abstract. -/
def concrete? (p : Program) (m : Option MethodId) : Option MethodId :=
  m.filter fun m => !(p.method m).isAbstract

/-! ## Methods of a class -/

/-- The constructors that a class declares. -/
def constructors (p : Program) (className : String) : List MethodId :=
  match p.class? className with
  | some c => c.methods.filter fun m => (p.method m).isConstructor
  | none => []

/-- The constructor without parameters. -/
def defaultConstructor? (p : Program) (className : String) : Option MethodId :=
  (p.constructors className).find? fun m => (p.method m).paramTypes.isEmpty

/-- The methods of a class by name, public ones only if so asked. -/
def ownMethodsNamed (p : Program) (name : String) (publicOnly : Bool) (className : String) :
    List MethodId :=
  match p.class? className with
  | some c => c.methods.filter fun m =>
      (p.method m).name == name && (!publicOnly || (p.method m).isPublic)
  | none => []

/-- The methods whose key no earlier one has. -/
def firstOfKey (p : Program) : List String → List MethodId → List MethodId
  | _, [] => []
  | seen, m :: ms =>
    let key := (p.method m).dispatchKey
    if key ∈ seen then firstOfKey p seen ms else m :: firstOfKey p (key :: seen) ms

/-- The methods of a name, in the class alone or in its superclasses too; a
method hides those of the same key further up. -/
def methodsNamed (p : Program) (className name : String) (publicOnly inherited : Bool) :
    List MethodId :=
  let chain := if inherited then p.superclassChain className else [className]
  p.firstOfKey [] (chain.flatMap (p.ownMethodsNamed name publicOnly))

/-! ## Small facts -/

/-- No class is on a chain twice, or again after it was seen. -/
theorem chainFrom_nodup (p : Program) (bound : Nat) (seen : List String) (name : String) :
    (p.chainFrom bound seen name).Nodup ∧ ∀ c ∈ p.chainFrom bound seen name, c ∉ seen := by
  induction bound generalizing seen name with
  | zero => simp [chainFrom]
  | succ bound ih =>
    unfold chainFrom
    by_cases h : name ∈ seen
    · simp [h]
    · rw [if_neg h]
      cases p.superclass? name with
      | none => simpa using h
      | some s =>
        obtain ⟨hn, hs⟩ := ih (name :: seen) s
        refine ⟨List.nodup_cons.2 ⟨fun hm => hs name hm List.mem_cons_self, hn⟩, ?_⟩
        intro c hc
        rcases List.mem_cons.1 hc with rfl | hc
        · exact h
        · exact fun hcs => hs c hc (List.mem_cons_of_mem _ hcs)

/-- No class occurs twice among its superclasses. -/
theorem superclassChain_nodup (p : Program) (name : String) : (p.superclassChain name).Nodup :=
  (p.chainFrom_nodup _ _ _).1

/-- The walk begins with the class itself. -/
theorem superclassChain_head (p : Program) (name : String) :
    (p.superclassChain name).head? = some name := by
  simp [superclassChain, chainFrom]

end Program

end PointsTo
