import PointsTo.Options.Preset

/-!
# Patches of options

A patch sets some options and leaves the others as they are.
-/

namespace PointsTo

/-- Options to be set; what is absent is left alone. -/
structure Patch where
  context : Option Strategy := none
  k : Option Nat := none
  heapDepth : Option Nat := none
  reflectionLog : Option String := none
  reflectionInference : Option String := none
  lambda : Option Bool := none
  reflection : Option Bool := none
  maxWorkItems : Option Nat := none
  entryMethods : Option (List String) := none
deriving DecidableEq, Inhabited

namespace Patch

/-- Set every option that the patch holds. -/
def apply (p : Patch) (base : Options) : Options where
  context := p.context.getD base.context
  k := p.k.getD base.k
  heapDepth := p.heapDepth.getD base.heapDepth
  reflectionLog := p.reflectionLog.or base.reflectionLog
  reflectionInference := p.reflectionInference.or base.reflectionInference
  lambda := p.lambda.getD base.lambda
  reflection := p.reflection.getD base.reflection
  maxWorkItems := p.maxWorkItems.or base.maxWorkItems
  entryMethods := p.entryMethods.getD base.entryMethods

/-- The patch that sets everything that is set in {lit}`o`. -/
def ofOptions (o : Options) : Patch where
  context := some o.context
  k := some o.k
  heapDepth := some o.heapDepth
  reflectionLog := o.reflectionLog
  reflectionInference := o.reflectionInference
  lambda := some o.lambda
  reflection := some o.reflection
  maxWorkItems := o.maxWorkItems
  entryMethods := some o.entryMethods

/-- An empty patch changes nothing. -/
@[simp] theorem apply_empty (o : Options) : apply {} o = o := rfl

end Patch

end PointsTo
