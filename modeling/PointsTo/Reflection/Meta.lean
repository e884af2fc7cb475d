import PointsTo.Heap
import PointsTo.Reflection.Api

/-!
# Meta objects

The objects by which a program handles classes, methods and constructors.  There
is one for each class, method or constructor, whatever call yields it.

Main statements: {lit}`denotedMethod?_eq_some`, {lit}`denotedConstructor?_eq_some`: only a meta
object denotes a method or a constructor; {lit}`denotedType?_classMeta` and its like: it denotes
what it was made for.
-/

namespace PointsTo.Reflection

/-- The meta object of a type. -/
def classMeta (type : JavaType) : MockObj where
  kind := .classMeta
  site := .type type
  type := .classClass
  container := none

/-- The meta object of a method. -/
def methodMeta (m : MethodId) : MockObj where
  kind := .methodMeta
  site := .method m
  type := Api.methodClass
  container := none

/-- The meta object of a constructor. -/
def constructorMeta (m : MethodId) : MockObj where
  kind := .constructorMeta
  site := .method m
  type := Api.constructorClass
  container := none

/-- The type that an object denotes: a class literal or a meta object of a type
does. -/
def denotedType? (o : Obj) : Option JavaType :=
  match o.kind with
  | .classConstant t => some t
  | .mock .classMeta (.type t) => some t
  | _ => none

/-- The class that an object denotes. -/
def denotedClass? (o : Obj) : Option String := (denotedType? o).bind JavaType.className?

/-- The method that an object denotes. -/
def denotedMethod? (o : Obj) : Option MethodId :=
  match o.kind with
  | .mock .methodMeta (.method m) => some m
  | _ => none

/-- The constructor that an object denotes. -/
def denotedConstructor? (o : Obj) : Option MethodId :=
  match o.kind with
  | .mock .constructorMeta (.method m) => some m
  | _ => none

/-- An object denotes a method if it is the meta object of the method. -/
theorem denotedMethod?_eq_some {o : Obj} {m : MethodId} :
    denotedMethod? o = some m ↔ o.kind = .mock .methodMeta (.method m) := by
  unfold denotedMethod?
  constructor
  · intro h
    split at h
    · rename_i hkind
      cases h
      exact hkind
    · cases h
  · intro h
    rw [h]

/-- So it is with constructors. -/
theorem denotedConstructor?_eq_some {o : Obj} {m : MethodId} :
    denotedConstructor? o = some m ↔ o.kind = .mock .constructorMeta (.method m) := by
  unfold denotedConstructor?
  constructor
  · intro h
    split at h
    · rename_i hkind
      cases h
      exact hkind
    · cases h
  · intro h
    rw [h]

/-- The meta object of a type denotes it. -/
@[simp] theorem denotedType?_classMeta (t : JavaType) :
    denotedType? (classMeta t).obj = some t := rfl

/-- The literal of a type denotes it, too. -/
@[simp] theorem denotedType?_classConstant (t : JavaType) :
    denotedType? (Obj.classConstant t) = some t := rfl

/-- The meta object of a method denotes it. -/
@[simp] theorem denotedMethod?_methodMeta (m : MethodId) :
    denotedMethod? (methodMeta m).obj = some m := rfl

/-- The meta object of a constructor denotes it. -/
@[simp] theorem denotedConstructor?_constructorMeta (m : MethodId) :
    denotedConstructor? (constructorMeta m).obj = some m := rfl

end PointsTo.Reflection
