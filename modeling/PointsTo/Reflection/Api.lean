import PointsTo.MethodRef

/-!
# Reflective calls

The methods of the platform by which a program names classes and methods at run
time.  A call is one of them by its full signature; {lit}`getClass` counts on
whatever class it is called.
-/

namespace PointsTo.Reflection

/-- A reflective method of the platform. -/
inductive Api where
  | forName
  | loadClass
  | getClass
  | getConstructor
  | getDeclaredConstructor
  | getMethod
  | getDeclaredMethod
  | classNewInstance
  | constructorNewInstance
  | methodInvoke
deriving DecidableEq

namespace Api

def constructorClass : JavaType := .cls "java.lang.reflect.Constructor"

def methodClass : JavaType := .cls "java.lang.reflect.Method"

def object : JavaType := .cls JavaType.objectName

/-- A method of the class of class objects. -/
def ofClass (name : String) (params : List JavaType) (ret : JavaType) : MethodRef :=
  { className := JavaType.classClassName, name, params, ret }

/-- The methods that a call is told apart from by its full signature. -/
def table : List (MethodRef × Api) :=
  [(ofClass "forName" [.string] .classClass, forName),
    (ofClass "forName" [.string, .primitive .boolean, .cls "java.lang.ClassLoader"] .classClass,
      forName),
    ({ className := "java.lang.ClassLoader", name := "loadClass", params := [.string]
       ret := .classClass }, loadClass),
    (ofClass "getConstructor" [.array .classClass] constructorClass, getConstructor),
    (ofClass "getDeclaredConstructor" [.array .classClass] constructorClass,
      getDeclaredConstructor),
    (ofClass "getMethod" [.string, .array .classClass] methodClass, getMethod),
    (ofClass "getDeclaredMethod" [.string, .array .classClass] methodClass, getDeclaredMethod),
    (ofClass "newInstance" [] object, classNewInstance),
    ({ className := "java.lang.reflect.Constructor", name := "newInstance"
       params := [.array object], ret := object }, constructorNewInstance),
    ({ className := "java.lang.reflect.Method", name := "invoke"
       params := [object, .array object], ret := object }, methodInvoke)]

/-- The method by which every object names its class. -/
def getClassRef : MethodRef := ofClass "getClass" [] .classClass

/-- The reflective method that a call is written like. -/
def classify (r : MethodRef) : Option Api :=
  if r.subsignature = getClassRef.subsignature then some getClass
  else (table.find? fun e => e.1.signature == r.signature).map Prod.snd

/-! ## Names in reflection logs -/

/-- The name of a reflective method in logs. -/
def logName : Api → String
  | forName => "Class.forName"
  | loadClass => "ClassLoader.loadClass"
  | getClass => "Object.getClass"
  | getConstructor => "Class.getConstructor"
  | getDeclaredConstructor => "Class.getDeclaredConstructor"
  | getMethod => "Class.getMethod"
  | getDeclaredMethod => "Class.getDeclaredMethod"
  | classNewInstance => "Class.newInstance"
  | constructorNewInstance => "Constructor.newInstance"
  | methodInvoke => "Method.invoke"

/-- The reflective methods that logs report. -/
def logged : List Api := [forName, classNewInstance, constructorNewInstance, methodInvoke]

/-- The reflective method that a log names. -/
def ofLogName? (name : String) : Option Api := logged.find? fun a => a.logName == name

/-- A logged method is found under its name. -/
theorem ofLogName?_logName {a : Api} (h : a ∈ logged) : ofLogName? a.logName = some a := by
  revert h
  cases a <;> decide

end Api

end PointsTo.Reflection
