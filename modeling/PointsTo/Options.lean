import PointsTo.Id
import PointsTo.Options.Error

/-!
# Options of an analysis

What a run can be told: how contexts are chosen and how long they may be, how
reflection is resolved, how much work is allowed, and where the program starts.
Options are checked before a run; the first fault found is the one reported.
-/

namespace PointsTo

/-- How contexts are chosen. -/
inductive Strategy where
  /-- One context for everything. -/
  | insensitive
  /-- The latest call sites. -/
  | callSite
  /-- The latest receiver objects. -/
  | object
  /-- The classes that allocate the latest receiver objects. -/
  | type
deriving DecidableEq, Inhabited

namespace Strategy

/-- All strategies. -/
def all : List Strategy := [insensitive, callSite, object, type]

def text : Strategy → String
  | insensitive => "insensitive"
  | callSite => "call_site"
  | object => "object"
  | type => "type"

/-- The strategy of a name. -/
def ofText? (s : String) : Option Strategy := all.find? fun x => x.text == s

/-- Reading the written form of a strategy gives the strategy. -/
@[simp] theorem ofText?_text (s : Strategy) : ofText? s.text = some s := by
  cases s <;> decide

end Strategy

/-- How targets of reflective calls are inferred without a log. -/
inductive Inference where
  | disabled
  /-- Class and method names are taken from string constants. -/
  | stringConstant
deriving DecidableEq

namespace Inference

def text : Inference → String
  | disabled => "disabled"
  | stringConstant => "string-constant"

/-- The names that an inference mode can have. -/
def names : List String := [disabled.text, stringConstant.text]

/-- The mode of a name; without a name inference is disabled. -/
def parse : Option String → Except ConfigError Inference
  | none => .ok disabled
  | some s =>
    if s = disabled.text then .ok disabled
    else if s = stringConstant.text then .ok stringConstant
    else .error (.unknownInferenceOf s names)

/-- The name of an inference is read as that inference. -/
@[simp] theorem parse_text (i : Inference) : parse (some i.text) = .ok i := by
  cases i <;> rfl

end Inference

/-- The options of one run. -/
structure Options where
  context : Strategy
  /-- The greatest length of a context. -/
  k : Nat
  /-- The greatest length of a heap context. -/
  heapDepth : Nat
  /-- The file with the log of reflective calls. -/
  reflectionLog : Option String
  /-- The name of the inference mode. -/
  reflectionInference : Option String
  lambda : Bool
  reflection : Bool
  /-- The number of work items after which a run is given up. -/
  maxWorkItems : Option Nat
  /-- The signatures of the methods that the program starts with. -/
  entryMethods : List String
deriving DecidableEq

namespace Options

/-! ## Changing single options -/

/-- Choose strategy and context length; the heap contexts become shorter than
the contexts if they were not. -/
def withContext (o : Options) (s : Strategy) (k : Nat) : Options :=
  { o with context := s, k, heapDepth := min o.heapDepth (k - 1) }

def withK (o : Options) (k : Nat) : Options := { o with k }

def withHeapDepth (o : Options) (n : Nat) : Options := { o with heapDepth := n }

def withReflectionLog (o : Options) (path : String) : Options :=
  { o with reflectionLog := some path }

def withReflectionInference (o : Options) (mode : String) : Options :=
  { o with reflectionInference := some mode }

def withLambda (o : Options) (b : Bool) : Options := { o with lambda := b }

def withReflection (o : Options) (b : Bool) : Options := { o with reflection := b }

def withMaxWorkItems (o : Options) (n : Option Nat) : Options := { o with maxWorkItems := n }

/-- Name one more entry method. -/
def withEntry (o : Options) (signature : String) : Options :=
  { o with entryMethods := o.entryMethods ++ [signature] }

/-! ## Validation -/

/-- The largest number that an option can hold. -/
def maxNumber : Nat := bound64 - 1

/-- The inference mode that the options name. -/
def inference (o : Options) : Except ConfigError Inference :=
  Inference.parse o.reflectionInference

/-- Contexts must have between one and four elements, and heap contexts no more
than those; this is not asked where contexts play no part. -/
def checkDepths (o : Options) : Except ConfigError Unit :=
  if o.context = .insensitive then .ok ()
  else if o.k < 1 ∨ 4 < o.k then
    .error (.range "k" (toString o.k) "1" "4"
      "Context depth must be at least 1 for context-sensitive strategies")
  else if o.k < o.heapDepth then
    .error (.range "heap_depth" (toString o.heapDepth) "0" (toString o.k)
      "Heap context cannot be longer than method context")
  else .ok ()

/-- A budget, if there is one, allows some work. -/
def checkBudget (o : Options) : Except ConfigError Unit :=
  if o.maxWorkItems = some 0 then
    .error (.range "max_work_items" "0" "1" (toString maxNumber) "Use None for unlimited")
  else .ok ()

/-- The inference mode exists and does not compete with a log. -/
def checkReflection (o : Options) : Except ConfigError Unit := do
  let mode ← o.inference
  match o.reflectionLog, mode with
  | some log, .stringConstant => .error (.conflictingModels log mode.text)
  | _, _ => .ok ()

/-- The first fault of the options, if they have one. -/
def validate (o : Options) : Except ConfigError Unit := do
  o.checkDepths
  o.checkBudget
  o.checkReflection

end Options

end PointsTo
