import PointsTo.Service

/-!
# Plugins

A plugin watches a run.  At every event it holds a conversation with the state of
the run and comes out of it with a new state of its own.  Several plugins hear of
an event one after the other, in the order of their registration; the first that
fails ends the run, and later ones do not hear of the event.

Main definitions:

- {lit}`Event`: what plugins are told.
- {lit}`Plugin`: a name and a reaction to every event.
- {lit}`Plugin.tell`: one event told to a list of plugins.
-/

namespace PointsTo

/-- What happens in a run. -/
inductive Event where
  | start
  | finish
  /-- A method became reachable under its first context. -/
  | method (m : MethodId)
  /-- A method became reachable under a context. -/
  | methodIn (m : QMethod)
  /-- A call on an object has no target among the methods of its class. -/
  | unresolved (receiver : QObj) (context : ContextId) (site : InvokeId)
  /-- An edge was added to the call graph. -/
  | edge (e : CallEdge)
  /-- A variable may refer to further objects. -/
  | grown (v : QVar) (delta : ObjSet)

/-- Plugins with states of type {lit}`σ`. -/
structure Plugin (σ : Type) where
  name : σ → String
  react : Setting → Event → σ → Service σ

namespace Plugin

variable {σ : Type}

/-- Tell one event to plugins in turn.  The states of those that have heard it
are updated, also when a later one fails. -/
def tell (P : Plugin σ) (env : Setting) (e : Event) :
    List σ → Solver → EStateM.Result Error (Solver × List σ) Unit
  | [], s => .ok () (s, [])
  | p :: ps, s =>
    match (P.react env e p).run env s with
    | .error err s => .error err (s, p :: ps)
    | .ok p s =>
      match P.tell env e ps s with
      | .error err (s, ps) => .error err (s, p :: ps)
      | .ok _ (s, ps) => .ok () (s, p :: ps)

/-- The plugin that takes no notice of anything. -/
def silent (σ : Type) (name : String) : Plugin σ where
  name := fun _ => name
  react := fun _ _ p => pure p

end Plugin

end PointsTo
