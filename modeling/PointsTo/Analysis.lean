import PointsTo.Ascending
import PointsTo.Ensemble
import PointsTo.Solver.Machine

/-!
# Points-to analyses

An analysis is a set of valid options together with the plugins of the client.
Run on a program it yields a fixpoint, which answers questions about aliasing,
call targets and reachability.

Main definitions:

- {lit}`Analysis.new`, {lit}`Analysis.runFrom`, {lit}`Analysis.run`.
- {lit}`Result`: a fixpoint, with {lit}`Result.pointsTo`, {lit}`Result.mayAlias`,
  {lit}`Result.calleesOf`, {lit}`Result.isReachable`.
-/

namespace PointsTo

/-- Options that were found valid, and the plugins that a client adds. -/
structure Analysis where
  options : Options
  extra : List Member := []

/-- A fixpoint. -/
structure Result where
  solver : Solver
  strategy : Strategy

/-- How an analysis ends.  A failed run leaves what its plugins have noted. -/
inductive Verdict where
  | finished (result : Result)
  | failed (e : Error) (notes : List String)
  /-- The queue was not empty after the given number of steps. -/
  | unfinished

namespace Analysis

/-- An analysis with the given options, if they are valid. -/
def new (o : Options) : Except Error Analysis :=
  match o.validate with
  | .ok _ => .ok { options := o }
  | .error e => .error (.config e)

/-- Register a plugin behind the others. -/
def withPlugin (a : Analysis) (m : Member) : Analysis := { a with extra := a.extra ++ [m] }

/-- The plugins of a run: lambdas, reflection, those of the client. -/
def members (a : Analysis) (p : Program) (files : Reflection.Files) :
    Except Error (List Member) := do
  let lambda := if a.options.lambda then [Member.newLambda] else []
  let reflection ←
    if a.options.reflection then
      (Reflection.State.new a.options p files).map fun st => [Member.reflection st]
    else .ok []
  return lambda ++ reflection ++ a.extra

/-- What a run of the analysis on a program looks up. -/
def setting (a : Analysis) (p : Program) : Setting :=
  { program := p, options := a.options, selector := a.options.selector }

/-- Run from given entry methods, in at most {lit}`steps` steps from one fixpoint
to the next. -/
def runFrom (a : Analysis) (steps : Nat) (p : Program) (files : Reflection.Files)
    (entries : List MethodId) : Verdict :=
  match a.members p files with
  | .error e => .failed e []
  | .ok members =>
    match Machine.solve Member.plugin (a.setting p) steps entries (.new members) with
    | (.finished, m) => .finished { solver := m.solver, strategy := a.options.context }
    | (.failed e, m) => .failed e m.solver.notes
    | (.unfinished, _) => .unfinished

/-- The methods with the signatures that the options name as entries. -/
def entries (o : Options) (p : Program) : Except Error (List MethodId) :=
  o.entryMethods.mapM fun signature =>
    match p.methodBySignature? signature with
    | some m => .ok m
    | none => .error (.unknownEntry signature)

/-- Run from the entry methods that the options name. -/
def run (a : Analysis) (steps : Nat) (p : Program) (files : Reflection.Files) : Verdict :=
  match entries a.options p with
  | .error e => .failed e []
  | .ok ms => a.runFrom steps p files ms

end Analysis

/-! ## Questions to a fixpoint -/

namespace Result

/-- The objects that a variable may refer to under any context, in ascending
order. -/
def pointsTo (r : Result) (v : VarId) : List ObjId :=
  Id.ascending <| r.solver.pointsTo.entries.flatMap fun (ptr, os) =>
    match ptr.var? with
    | some q => if q.item = v then os.toList.map Qualified.item else []
    | none => []

/-- The objects that a variable may refer to under one context. -/
def pointsToIn (r : Result) (v : QVar) : ObjSet := r.solver.pointsTo.get (.var v)

/-- Two variables may refer to one object. -/
def mayAlias (r : Result) (a b : VarId) : Bool :=
  let objs := r.pointsTo a
  (r.pointsTo b).any fun o => (Id.search? objs o).isSome

/-- The object that an id stands for. -/
def obj (r : Result) (o : ObjId) : Obj := r.solver.heap.get o

/-- The methods that a call site runs under any context, in the order in which
they were found. -/
def calleesOf (r : Result) (i : InvokeId) : List MethodId := r.solver.calls.calleesOf i

/-- A method is reachable under some context. -/
def isReachable (r : Result) (m : MethodId) : Bool := r.solver.calls.isReachable m

/-- The sizes of what the run has found. -/
def stats (r : Result) : Stats := r.solver.stats

end Result

end PointsTo
