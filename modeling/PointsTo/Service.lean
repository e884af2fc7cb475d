import PointsTo.Solver

/-!
# Services for plugins

A plugin does not touch the state of a run.  It asks for things from a fixed list
of requests and goes on with the answers: a {lit}`Service` is such a conversation,
which ends with a value or a failure.  Whatever every request keeps is therefore
kept by every plugin.

Main definitions:

- {lit}`Request`, {lit}`Request.Answer`: what can be asked for.
- {lit}`Service`: conversations, which form a monad.
- {lit}`Service.run`: the conversation carried out on a state.
-/

namespace PointsTo

/-- What a plugin can ask for. -/
inductive Request where
  /-- The id of a stand-in object. -/
  | mock (m : MockObj)
  /-- The context for a call at a site on a receiver. -/
  | callContext (site : QSite) (receiver : Option QObj)
  /-- The heap context for an allocation in a method. -/
  | heapContext (method : QMethod)
  /-- The object of an id. -/
  | obj (o : ObjId)
  /-- What a pointer refers to so far. -/
  | pointsTo (p : Pointer)
  /-- Let objects reach a pointer. -/
  | addPointsTo (p : Pointer) (os : ObjSet)
  | addFlow (e : FlowEdge)
  | addCall (e : CallEdge)
  /-- Leave a line in the notes of the run. -/
  | note (line : String)

namespace Request

/-- The type of the answer to a request. -/
@[reducible] def Answer : Request → Type
  | mock _ => ObjId
  | callContext _ _ => ContextId
  | heapContext _ => ContextId
  | obj _ => Obj
  | pointsTo _ => ObjSet
  | addPointsTo _ _ => Unit
  | addFlow _ => Unit
  | addCall _ => Unit
  | note _ => Unit

/-- How a state answers a request. -/
def answer (env : Setting) : (r : Request) → SolverM r.Answer
  | mock m => SolverM.internObj m.obj
  | callContext site receiver => SolverM.callContext env site receiver
  | heapContext method => SolverM.heapContext env method
  | obj o => do return (← get).heap.get o
  | pointsTo p => do return (← get).pointsTo.get p
  | addPointsTo p os => modify fun s => s.addPointsTo p os
  | addFlow e => modify fun s => s.addFlow env.program e
  | addCall e => modify fun s => s.addCall e
  | note line => modify fun s => s.note line

end Request

/-- A conversation that ends with a value of type {lit}`α`, or fails. -/
inductive Service (α : Type) : Type where
  | done (a : α)
  | fail (e : Error)
  | ask (r : Request) (next : r.Answer → Service α)

namespace Service

variable {α β γ : Type}

/-- Go on with the value that a conversation ends with. -/
def bind : Service α → (α → Service β) → Service β
  | done a, f => f a
  | fail e, _ => fail e
  | ask r next, f => ask r fun answer => (next answer).bind f

instance : Monad Service where
  pure := done
  bind := bind

/-- A conversation that has ended goes on with what comes next. -/
@[simp] theorem done_bind (a : α) (f : α → Service β) : (done a).bind f = f a := rfl

/-- A conversation that has failed does not go on. -/
@[simp] theorem fail_bind (e : Error) (f : α → Service β) : (fail e).bind f = fail e := rfl

/-- A request is made first, and the rest goes on with its answer. -/
@[simp] theorem ask_bind (r : Request) (next : r.Answer → Service α) (f : α → Service β) :
    (ask r next).bind f = ask r fun answer => (next answer).bind f := rfl

/-- Binding conversations in {lit}`do` blocks is the same thing. -/
@[simp] theorem bind_eq (x : Service α) (f : α → Service β) : x >>= f = x.bind f := rfl

/-- Returning a value ends a conversation. -/
@[simp] theorem pure_eq (a : α) : (pure a : Service α) = done a := rfl

/-- To go on with nothing changes nothing. -/
theorem bind_done (x : Service α) : x.bind done = x := by
  induction x with
  | done a => rfl
  | fail e => rfl
  | ask r next ih => simp [ih]

/-- What goes on and on may be put together in either way. -/
theorem bind_assoc (x : Service α) (f : α → Service β) (g : β → Service γ) :
    (x.bind f).bind g = x.bind fun a => (f a).bind g := by
  induction x with
  | done a => rfl
  | fail e => rfl
  | ask r next ih => simp [ih]

instance : LawfulMonad Service := LawfulMonad.mk'
  Service
  (fun x => by
    show x.bind (fun a => done a) = x
    exact bind_done x)
  (fun _ _ => rfl)
  (fun x f g => bind_assoc x f g)

/-! ## Requests as conversations -/

/-- Asks for the id of a stand-in. -/
def mock (m : MockObj) : Service ObjId := ask (.mock m) done

/-- Asks for the context of a call at a site. -/
def callContext (site : QSite) (receiver : Option QObj) : Service ContextId :=
  ask (.callContext site receiver) done

/-- Asks for the heap context of an allocation in a method. -/
def heapContext (method : QMethod) : Service ContextId := ask (.heapContext method) done

/-- Asks what an object is. -/
def obj (o : ObjId) : Service Obj := ask (.obj o) done

/-- Asks what a pointer refers to. -/
def pointsTo (p : Pointer) : Service ObjSet := ask (.pointsTo p) done

/-- Asks what a variable refers to. -/
def varPointsTo (v : QVar) : Service ObjSet := pointsTo (.var v)

/-- Asks for objects to reach a pointer. -/
def addPointsTo (p : Pointer) (os : ObjSet) : Service Unit := ask (.addPointsTo p os) done

/-- Let one object reach a variable. -/
def addVarObj (context : ContextId) (v : VarId) (o : QObj) : Service Unit :=
  addPointsTo (varPointer context v) (.singleton o)

/-- Asks for a flow edge. -/
def addFlow (e : FlowEdge) : Service Unit := ask (.addFlow e) done

/-- Asks for several flow edges. -/
def addFlows (es : List FlowEdge) : Service Unit := es.forM addFlow

/-- Asks for a call edge. -/
def addCall (e : CallEdge) : Service Unit := ask (.addCall e) done

/-- Asks for a line to be noted. -/
def note (line : String) : Service Unit := ask (.note line) done

/-! ## Carrying a conversation out -/

/-- Answer every request from the state of a run. -/
def run (env : Setting) : Service α → SolverM α
  | done a => pure a
  | fail e => throw e
  | ask r next => do
    let answer ← r.answer env
    (next answer).run env

/-- To carry out a conversation that has ended is to return its value. -/
@[simp] theorem run_done (env : Setting) (a : α) : (done a).run env = pure a := rfl

/-- To carry out one that has failed is to fail. -/
@[simp] theorem run_fail (env : Setting) (e : Error) :
    (fail e : Service α).run env = throw e := rfl

/-- To carry out a request is to answer it, and to go on with the answer. -/
@[simp] theorem run_ask (env : Setting) (r : Request) (next : r.Answer → Service α) :
    (ask r next).run env = r.answer env >>= fun answer => (next answer).run env := rfl

/-- A conversation after another is carried out after it. -/
theorem run_bind (env : Setting) (x : Service α) (f : α → Service β) :
    (x.bind f).run env = x.run env >>= fun a => (f a).run env := by
  induction x with
  | done a => rfl
  | fail e => rfl
  | ask r next ih => simp only [ask_bind, run_ask, ih, LawfulMonad.bind_assoc]

end Service

end PointsTo
