import PointsTo.Proofs.Failures
import PointsTo.Proofs.ToldEvents

/-!
# Runs side by side

Two machines on the same program may differ in their plugins, and in options that only plugins
look at.  If the plugins of the two answer every event alike, then so do the machines everything
else: both make the same choices, they fail at the same point or not at all, and end in the same
state.  How far plugins answer alike may depend on what the state is like, as long as this is
something that the rules of the analysis keep.

Main results:

- {lit}`Machine.Alike`, {lit}`Machine.Agree`: results that are alike, and computations that come
  to such results on related machines.
- {lit}`Solver.Kept`: what the rules keep of a state; {lit}`Machine.Abreast`: machines in the same
  state, of which this holds.
- Theorem {lit}`Machine.agree_process`: one round of the main loop.
- Theorem {lit}`Machine.alongside_solve`: where plugins answer events alike, whole runs agree.
-/

namespace PointsTo

variable {σ τ α β : Type}

/-! ## Settings -/

/-- The rules of the analysis do the same in both settings, and runs have the same budget. -/
structure Setting.SameRules (env env' : Setting) : Prop where
  program : env'.program = env.program
  selector : env'.selector = env.selector
  budget : env'.options.maxWorkItems = env.options.maxWorkItems

namespace Setting.SameRules

variable {env env' : Setting}

theorem refl (env : Setting) : SameRules env env := ⟨rfl, rfl, rfl⟩

/-- The body of a method is executed alike under the same rules. -/
theorem executeBody (h : SameRules env env') (m : QMethod) :
    SolverM.executeBody env' m = SolverM.executeBody env m := by
  obtain ⟨p, o, selector⟩ := env
  obtain ⟨p', o', selector'⟩ := env'
  obtain ⟨rfl, rfl, -⟩ := h
  rfl

/-- A call is dispatched alike under the same rules. -/
theorem dispatch (h : SameRules env env') (context : ContextId) (site : InvokeId) (o : QObj) :
    SolverM.dispatch env' context site o = SolverM.dispatch env context site o := by
  obtain ⟨p, o, selector⟩ := env
  obtain ⟨p', o', selector'⟩ := env'
  obtain ⟨rfl, rfl, -⟩ := h
  rfl

end Setting.SameRules

/-! ## What the rules keep -/

/-- A property of the objects and of the queue of a state that plain additions keep; call edges
that are taken from the queue are as {lit}`C` says. -/
structure Solver.Kept (p : Program) (C : CallEdge → Prop) (I : Solver → Prop) : Prop where
  adds : ∀ {s a t}, I s → Addition.Plain a → s.Adds p a t → I t
  frame : ∀ {s t : Solver}, I s → t.heap = s.heap → t.queue = s.queue → I t
  take : ∀ {s w rest}, I s → s.queue = w :: rest → I { s with queue := rest }
  next : ∀ {s e rest}, I s → s.queue = .call e :: rest → C e

namespace Solver.Kept

variable {p : Program} {C : CallEdge → Prop} {I : Solver → Prop} {s : Solver}

/-- Nothing needs to be kept where nothing is asked for. -/
theorem always (p : Program) : Kept p (fun _ => True) fun _ => True :=
  ⟨fun _ _ _ => .intro, fun _ _ _ => .intro, fun _ _ => .intro, fun _ _ => .intro⟩

/-- What is kept by plain additions is kept while a state evolves by them. -/
theorem evolves (h : Kept p C I) {t : Solver} (hst : s.Evolves p plainly t) (hs : I s) : I t :=
  hst.keeps (fun hs ha hadd => h.adds hs ha hadd) hs

/-- It is kept when flow edges are added. -/
theorem addFlows (h : Kept p C I) (hs : I s) (es : List FlowEdge) : I (s.addFlows p es) :=
  h.evolves (Solver.evolves_addFlows fun _ _ _ _ _ => .intro) hs

/-- It is kept when objects pass on along the edges of a pointer. -/
theorem propagate (h : Kept p C I) (hs : I s) (ptr : Pointer) (os : ObjSet) :
    I (s.propagate p ptr os) := by
  refine List.foldlRecOn (motive := I) (s.flow.outgoing ptr) _ (h.frame hs rfl rfl) ?_
  exact fun u hu e _ => h.adds (a := .points e.target _) hu .intro rfl

end Solver.Kept

/-- The event is not about a call edge, or about one that is as {lit}`C` says. -/
def Event.Respects (C : CallEdge → Prop) : Event → Prop
  | .edge e => C e
  | .start | .finish | .method _ | .methodIn _ | .unresolved .. | .grown .. => True

namespace Machine

/-! ## Results that are alike -/

/-- Two computations have succeeded with the same value, or failed in the same way, and the
machines that they have left are related. -/
inductive Alike (R : Machine σ → Machine τ → Prop) :
    EStateM.Result Error (Machine σ) α → EStateM.Result Error (Machine τ) α → Prop
  | ok {a m n} (h : R m n) : Alike R (.ok a m) (.ok a n)
  | error {e m n} (h : R m n) : Alike R (.error e m) (.error e n)

/-- On related machines the computations come to results that are alike. -/
def Agree (R : Machine σ → Machine τ → Prop) (x : MachineM σ α) (y : MachineM τ α) : Prop :=
  ∀ m n, R m n → Alike R (x m) (y n)

/-- The machines are in the same state, which is as {lit}`I` says, and their plugins are as
{lit}`K` says. -/
structure Abreast (I : Solver → Prop) (K : List σ → List τ → Prop) (m : Machine σ)
    (n : Machine τ) : Prop where
  solver : n.solver = m.solver
  state : I m.solver
  plugins : K m.plugins n.plugins

namespace Agree

variable {R : Machine σ → Machine τ → Prop}

/-- Equal results agree. -/
theorem pure (a : α) : Agree R (Pure.pure a) (Pure.pure a) := fun _ _ h => .ok h

/-- Equal errors agree. -/
theorem throw (e : Error) :
    Agree R (MonadExcept.throw e : MachineM σ α) (MonadExcept.throw e) := fun _ _ h => .error h

/-- Computations agree if their first parts do, and their second parts on every value. -/
theorem bind {x : MachineM σ α} {y : MachineM τ α} {f : α → MachineM σ β} {k : α → MachineM τ β}
    (h : Agree R x y) (hf : ∀ a, Agree R (f a) (k a)) : Agree R (x >>= f) (y >>= k) := by
  intro m n hmn
  show Alike R (EStateM.bind x f m) (EStateM.bind y k n)
  unfold EStateM.bind
  have hxy := h m n hmn
  generalize x m = x' at hxy ⊢
  generalize y n = y' at hxy ⊢
  cases hxy with
  | ok h => exact hf _ _ _ h
  | error h => exact .error h

/-- Branches on the same condition agree if the branches do. -/
theorem ite {c : Prop} [Decidable c] {x x' : MachineM σ α} {y y' : MachineM τ α}
    (h : Agree R x y) (h' : Agree R x' y') :
    Agree R (if c then x else x') (if c then y else y') := by
  split
  · exact h
  · exact h'

/-- Loops over the same list agree if their steps do. -/
theorem forM {f : β → MachineM σ PUnit} {k : β → MachineM τ PUnit} (h : ∀ b, Agree R (f b) (k b))
    (l : List β) : Agree R (l.forM f) (l.forM k) := by
  induction l with
  | nil => exact pure _
  | cons b l ih => exact (h b).bind fun _ => ih

variable {I : Solver → Prop} {K : List σ → List τ → Prop}

/-- Machines are read alike when only the state of the run is. -/
theorem get {f : Machine σ → MachineM σ α} {k : Machine τ → MachineM τ α}
    (h : ∀ m n, n.solver = m.solver → Agree (Abreast I K) (f m) (k n)) :
    Agree (Abreast I K) (MonadState.get >>= f) (MonadState.get >>= k) :=
  fun m n hmn => h m n hmn.solver m n hmn

/-- A computation on the solver alone is the same beside any plugins. -/
theorem onSolver {x : SolverM α} (hx : Leads (fun s t => I s → I t) x) :
    Agree (Abreast I K) (Machine.onSolver x) (Machine.onSolver x) := by
  intro m n hmn
  have hI := hx m.solver hmn.state
  unfold Machine.onSolver
  rw [hmn.solver]
  generalize x m.solver = result at hI ⊢
  cases result with
  | ok a s => exact .ok ⟨rfl, hI, hmn.plugins⟩
  | error e s => exact .error ⟨rfl, hI, hmn.plugins⟩

/-- So is a change of the solver. -/
theorem modifySolver {f : Solver → Solver} (hf : ∀ s, I s → I (f s)) :
    Agree (Abreast I K) (Machine.modifySolver f) (Machine.modifySolver f) :=
  fun _ _ hmn => .ok ⟨congrArg f hmn.solver, hf _ hmn.state, hmn.plugins⟩

end Agree

/-! ## Rounds -/

section Runs

variable {P : Plugin σ} {Q : Plugin τ} {env env' : Setting} {C : CallEdge → Prop}
  {I : Solver → Prop} {K : List σ → List τ → Prop}
  (hrules : env.SameRules env') (hI : Solver.Kept env.program C I)
  (htell : ∀ e, e.Respects C → Agree (Abreast I K) (tell P env e) (tell Q env' e))

include hrules hI htell

/-- Both machines discover methods alike. -/
theorem agree_reach (q : QMethod) : Agree (Abreast I K) (reach P env q) (reach Q env' q) := by
  have hbody : Agree (Abreast I K)
      (do Machine.onSolver (SolverM.executeBody env q); tell P env (.methodIn q))
      (do Machine.onSolver (SolverM.executeBody env' q); tell Q env' (.methodIn q)) := by
    rw [hrules.executeBody]
    refine (Agree.onSolver ?_).bind fun _ => htell _ trivial
    exact (SolverM.plain_left_executeBody env q).mono hI.evolves
  unfold reach
  refine .get fun m n hmn => ?_
  dsimp only
  rw [hmn]
  refine .ite (.pure _) (.bind (.modifySolver fun s hs => hI.frame hs rfl rfl) fun _ => ?_)
  refine .ite hbody ?_
  refine .bind (.modifySolver fun s hs => hI.frame hs rfl rfl) fun _ => ?_
  exact (htell (.method q.item) trivial).bind fun _ => hbody

/-- Both make calls on objects alike. -/
theorem agree_callOn (context : ContextId) (site : InvokeId) (o : QObj) :
    Agree (Abreast I K) (callOn P env context site o) (callOn Q env' context site o) := by
  unfold callOn
  rw [hrules.dispatch]
  refine (Agree.onSolver ?_).bind fun _ => .ite (.pure _) (htell _ trivial)
  exact (SolverM.plain_left_dispatch env context site o).mono hI.evolves

/-- Both let a variable refer to more alike. -/
theorem agree_grow (v : QVar) (delta : ObjSet) :
    Agree (Abreast I K) (grow P env v delta) (grow Q env' v delta) := by
  unfold grow
  rw [hrules.program]
  refine .bind (.modifySolver fun s hs => hI.addFlows hs _) fun _ => ?_
  refine Agree.bind (.forM (fun site => .forM (fun o => ?_) _) _) fun _ => htell _ trivial
  exact agree_callOn hrules hI htell v.context site o

/-- Both work objects in alike. -/
theorem agree_processPointsTo (ptr : Pointer) (os : ObjSet) :
    Agree (Abreast I K) (processPointsTo P env ptr os) (processPointsTo Q env' ptr os) := by
  unfold processPointsTo
  rw [hrules.program]
  refine .get fun m n hmn => .bind (.modifySolver fun s hs => hI.propagate hs _ _) fun _ => ?_
  rw [hmn]
  cases ptr with
  | var v => exact .ite (.pure _) (agree_grow hrules hI htell v _)
  | field | static | array => exact .pure _

/-- Both work call edges in alike, if these are as {lit}`C` says. -/
theorem agree_processCall {e : CallEdge} (he : C e) :
    Agree (Abreast I K) (processCall P env e) (processCall Q env' e) := by
  unfold processCall
  rw [hrules.program]
  refine .get fun m n hmn => ?_
  rw [hmn]
  refine .ite (.pure _) (.bind (.modifySolver fun s hs => hI.frame hs rfl rfl) fun _ => ?_)
  refine (agree_reach hrules hI htell e.callee).bind fun _ => .ite ?_ (htell _ he)
  exact .bind (.modifySolver fun s hs => hI.addFlows hs _) fun _ => htell _ he

omit htell in
/-- Both count alike what they work in. -/
theorem agree_count :
    Agree (Abreast I K : Machine σ → Machine τ → Prop) (count env) (count env') := by
  unfold count
  rw [hrules.budget]
  refine .bind (.modifySolver fun s hs => hI.frame hs rfl rfl) fun _ => ?_
  cases env.options.maxWorkItems with
  | none => exact .pure _
  | some limit =>
      refine .get fun m n hmn => ?_
      rw [hmn]
      exact .ite (.throw _) (.pure _)

/-- One round of the main loop. -/
theorem agree_process {w : WorkItem} (hw : ∀ e, w = .call e → C e) :
    Agree (Abreast I K) (process P env w) (process Q env' w) := by
  unfold process
  refine (agree_count hrules hI).bind fun _ => ?_
  cases w with
  | pointsTo ptr os => exact agree_processPointsTo hrules hI htell ptr os
  | call e => exact agree_processCall hrules hI htell (hw e rfl)

/-! ## Runs -/

omit hrules hI htell in
/-- Two runs have ended in the same way, and the machines that they have left are related. -/
structure Alongside (R : Machine σ → Machine τ → Prop) (x : Outcome × Machine σ)
    (y : Outcome × Machine τ) : Prop where
  outcome : y.1 = x.1
  machine : R x.2 y.2

/-- Draining the queues goes on alongside, step by step. -/
theorem alongside_drain (steps : Nat) {m : Machine σ} {n : Machine τ} (h : Abreast I K m n) :
    Alongside (Abreast I K) (drain P env steps m) (drain Q env' steps n) := by
  induction steps generalizing m n with
  | zero =>
      unfold drain
      rw [h.solver]
      cases m.solver.queue <;> exact ⟨rfl, h⟩
  | succ steps ih =>
      unfold drain
      rw [h.solver]
      cases hq : m.solver.queue with
      | nil => exact ⟨rfl, h⟩
      | cons w rest =>
          have hw : ∀ e, w = .call e → C e := by
            rintro e rfl
            exact hI.next h.state hq
          have htaken : Abreast I K { m with solver := { m.solver with queue := rest } }
              { n with solver := { m.solver with queue := rest } } :=
            ⟨rfl, hI.take h.state hq, h.plugins⟩
          have hround := agree_process hrules hI htell hw _ _ htaken
          dsimp only
          generalize process P env w _ = x at hround ⊢
          generalize process Q env' w _ = y at hround ⊢
          cases hround with
          | ok hmn => exact ih hmn
          | error hmn => exact ⟨rfl, hmn⟩

/-- So does a settling, whatever it begins with. -/
theorem alongside_settle (steps : Nat) {x : MachineM σ Unit} {y : MachineM τ Unit}
    (hxy : Agree (Abreast I K) x y) {m : Machine σ} {n : Machine τ} (h : Abreast I K m n) :
    Alongside (Abreast I K) (settle P env steps x m) (settle Q env' steps y n) := by
  have hresult := hxy m n h
  unfold settle
  generalize x m = x' at hresult ⊢
  generalize y n = y' at hresult ⊢
  cases hresult with
  | ok hmn => exact alongside_drain hrules hI htell steps hmn
  | error hmn => exact ⟨rfl, hmn⟩

/-- Where plugins answer every event alike, whole runs agree. -/
theorem alongside_solve (steps : Nat) (entries : List MethodId) {m : Machine σ} {n : Machine τ}
    (h : Abreast I K m n) :
    Alongside (Abreast I K) (solve P env steps entries m) (solve Q env' steps entries n) := by
  have henter : Agree (Abreast I K) (enter P env entries) (enter Q env' entries) :=
    (htell .start trivial).bind fun _ => .forM (fun i => agree_reach hrules hI htell _) _
  obtain ⟨houtcome, hmn⟩ := alongside_settle hrules hI htell steps henter h
  unfold solve
  generalize settle P env steps (enter P env entries) m = x at houtcome hmn ⊢
  generalize settle Q env' steps (enter Q env' entries) n = y at houtcome hmn ⊢
  obtain ⟨outcome, u⟩ := x
  obtain ⟨outcome', v⟩ := y
  obtain rfl := houtcome
  cases outcome' with
  | finished => exact alongside_settle hrules hI htell steps (htell .finish trivial) hmn
  | failed | unfinished => exact ⟨rfl, hmn⟩

end Runs

end Machine

end PointsTo
