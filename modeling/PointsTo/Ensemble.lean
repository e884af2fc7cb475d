import PointsTo.Lambda
import PointsTo.Reflection
import PointsTo.Script

/-!
# Plugins of different kinds in one run

The plugins of a run in the order of their registration, each of one of the kinds
that the library provides.
-/

namespace PointsTo

/-- A plugin of one of the provided kinds, with its state. -/
inductive Member where
  | lambda (state : Lambda.State)
  | reflection (state : Reflection.State)
  | script (script : Script)

namespace Member

/-- The plugin for lambdas before a run. -/
def newLambda : Member := lambda {}

/-- The name that results give to a member. -/
def name : Member → String
  | lambda st => Lambda.plugin.name st
  | reflection st => Reflection.plugin.name st
  | script s => Script.plugin.name s

/-- Each member reacts as the plugin of its kind. -/
def react (env : Setting) (e : Event) : Member → Service Member
  | lambda st => do return lambda (← Lambda.plugin.react env e st)
  | reflection st => do return reflection (← Reflection.plugin.react env e st)
  | script s => do return script (← Script.plugin.react env e s)

/-- Plugins of any provided kind. -/
def plugin : Plugin Member where
  name := name
  react := react

end Member

/-- The registered plugins, in the order in which they hear of events. -/
structure Ensemble where
  members : List Member

namespace Ensemble

/-- No members. -/
def empty : Ensemble := ⟨[]⟩

/-- The name of a group of plugins. -/
def name : String := "composite"

/-- One more member, behind the others. -/
def add (e : Ensemble) (m : Member) : Ensemble := ⟨e.members ++ [m]⟩

/-- The number of members. -/
def size (e : Ensemble) : Nat := e.members.length

/-- There are no members. -/
def isEmpty (e : Ensemble) : Bool := e.members.isEmpty

/-- The names of the members, in their order. -/
def names (e : Ensemble) : List String := e.members.map Member.name

/-- A member that is added has its name at the end. -/
@[simp] theorem names_add (e : Ensemble) (m : Member) :
    (e.add m).names = e.names ++ [m.name] := by
  simp [names, add]

end Ensemble

end PointsTo
