import Mathlib.Order.Defs.Unbundled
import PointsTo.Proofs.CoreRules

/-!
# Computations that may fail

A computation leaves a state also when it fails, and a run that fails ends in such a state.
This file is about what is left in either case: it is related to the state that the computation
started from, if every step of the computation relates the states before and after it.

Main results:

- {lit}`left`, {lit}`Leads`: the state that is left, and what every such state is like.
- Theorems {lit}`Leads.bind`, {lit}`Leads.forM` and their like: from the steps of a computation
  to the whole.
- Theorems {lit}`bind_eq_error`, {lit}`forM_rel_error`: where a computation has failed.
- Theorem {lit}`Service.accretes_left`: facts accrete, also when a conversation fails.
- {lit}`Addition.Plain`, and theorems {lit}`SolverM.plain_left_executeBody`,
  {lit}`SolverM.plain_left_dispatch`: rules that fail have added nothing but what rules add, too.
-/

namespace PointsTo

variable {ε σ α β : Type}

/-! ## What is left -/

/-- The state that a computation leaves, whether or not it succeeds. -/
def left : EStateM.Result ε σ α → σ
  | .ok _ s | .error _ s => s

/-- The state that a computation leaves is related to the one that it starts from. -/
def Leads (R : σ → σ → Prop) (x : EStateM ε σ α) : Prop := ∀ s, R s (left (x s))

namespace Leads

variable {R : σ → σ → Prop} [IsPreorder σ R]

/-- A result leaves the state as it is. -/
theorem pure (a : α) : Leads R (Pure.pure a : EStateM ε σ α) := fun s => refl_of R s

/-- So does an error. -/
theorem throw (e : ε) : Leads R (MonadExcept.throw e : EStateM ε σ α) := fun s => refl_of R s

/-- So does a look at the state. -/
theorem get : Leads R (MonadState.get : EStateM ε σ σ) := fun s => refl_of R s

/-- One computation after another leads on. -/
theorem bind {x : EStateM ε σ α} {f : α → EStateM ε σ β} (hx : Leads R x)
    (hf : ∀ a, Leads R (f a)) : Leads R (x >>= f) := by
  intro s
  have hs := hx s
  show R s (left (EStateM.bind x f s))
  unfold EStateM.bind
  cases h : x s with
  | ok a t =>
      rw [h] at hs
      exact trans_of R hs (hf a t)
  | error e t =>
      rw [h] at hs
      exact hs

/-- A loop leads on if its steps do. -/
theorem forM {f : α → EStateM ε σ PUnit} (hf : ∀ a, Leads R (f a)) (l : List α) :
    Leads R (l.forM f) := by
  induction l with
  | nil => exact pure _
  | cons a l ih => exact bind (hf a) fun _ => ih

omit [IsPreorder σ R] in
/-- A branch leads on if both of its sides do. -/
theorem ite {c : Prop} [Decidable c] {x y : EStateM ε σ α} (hx : Leads R x) (hy : Leads R y) :
    Leads R (if c then x else y) := by
  split
  · exact hx
  · exact hy

omit [IsPreorder σ R] in
/-- What leads on by a relation does so by every weaker one. -/
theorem mono {R' : σ → σ → Prop} {x : EStateM ε σ α} (hx : Leads R x)
    (hR : ∀ {s t}, R s t → R' s t) : Leads R' x := fun s => hR (hx s)

omit [IsPreorder σ R] in
/-- A change of the state leads to what it makes of the state. -/
theorem modify {f : σ → σ} (hf : ∀ s, R s (f s)) :
    Leads R (modify f : EStateM ε σ PUnit) := hf

end Leads

/-! ## Where a computation failed -/

/-- The state may be looked at first. -/
theorem get_bind_apply {f : σ → EStateM ε σ β} (s : σ) :
    (MonadState.get >>= f : EStateM ε σ β) s = f s s := rfl

/-- A sequence fails exactly when its first part does, or the second does on what the first has
left. -/
theorem bind_eq_error {x : EStateM ε σ α} {f : α → EStateM ε σ β} {s t : σ} {e : ε} :
    (x >>= f) s = .error e t ↔ x s = .error e t ∨ ∃ a u, x s = .ok a u ∧ f a u = .error e t := by
  show EStateM.bind x f s = .error e t ↔ _
  unfold EStateM.bind
  cases h : x s with
  | ok a u =>
      simp only [reduceCtorEq, false_or, EStateM.Result.ok.injEq]
      exact ⟨fun hf => ⟨a, u, ⟨rfl, rfl⟩, hf⟩, fun ⟨_, _, ⟨ha, hu⟩, hf⟩ => ha ▸ hu ▸ hf⟩
  | error e' u => simp

/-- A loop fails at one of its elements.  The steps before it relate the states in between. -/
theorem forM_rel_error {f : α → EStateM ε σ PUnit} {R : σ → σ → Prop} (hrefl : ∀ s, R s s)
    (htrans : ∀ {s t u}, R s t → R t u → R s u) {l : List α} {s t : σ} {e : ε}
    (h : l.forM f s = .error e t)
    (hstep : ∀ a ∈ l, ∀ {u v}, R s u → f a u = .ok ⟨⟩ v → R u v) :
    ∃ a ∈ l, ∃ u, R s u ∧ f a u = .error e t := by
  induction l generalizing s with
  | nil => cases h
  | cons a l ih =>
      rcases bind_eq_error.1 h with h | ⟨⟨⟩, u, ha, h⟩
      · exact ⟨a, List.mem_cons_self, s, hrefl s, h⟩
      · have hsu : R s u := hstep a List.mem_cons_self (hrefl s) ha
        obtain ⟨b, hb, v, huv, hfail⟩ := ih h fun c hc _ _ hu hf =>
          hstep c (List.mem_cons_of_mem _ hc) (htrans hsu hu) hf
        exact ⟨b, List.mem_cons_of_mem _ hb, v, htrans hsu huv, hfail⟩

/-! ## Facts accrete -/

/-- Steps by which a state accretes may be put together. -/
instance Solver.isPreorder_accretes : IsPreorder Solver Solver.Accretes where
  refl := .refl
  trans := fun _ _ _ => .trans

namespace SolverM

variable {env : Setting}

/-- Asking for an object adds it or fails, and then leaves the state alone. -/
theorem internObj_apply (o : Obj) (s : Solver) :
    internObj o s = match s.heap.intern o with
      | .ok (i, heap) => .ok i { s with heap }
      | .error e => .error e s := by
  show EStateM.bind (ofExcept (s.heap.intern o)) _ s = _
  cases s.heap.intern o <;> rfl

/-- The context of a call is asked of the selector, and only the table of contexts changes. -/
theorem callContext_apply (site : QSite) (receiver : Option QObj) (s : Solver) :
    callContext env site receiver s =
      match env.selector.callContext env.program s.heap s.contexts site receiver with
      | .ok (c, contexts) => .ok c { s with contexts }
      | .error e => .error e s := by
  show EStateM.bind
    (ofExcept (env.selector.callContext env.program s.heap s.contexts site receiver)) _ s = _
  cases env.selector.callContext env.program s.heap s.contexts site receiver <;> rfl

/-- So is the heap context of an allocation. -/
theorem heapContext_apply (m : QMethod) (s : Solver) :
    heapContext env m s = match env.selector.heapContext s.contexts m with
      | .ok (c, contexts) => .ok c { s with contexts }
      | .error e => .error e s := by
  show EStateM.bind (ofExcept (env.selector.heapContext s.contexts m)) _ s = _
  cases env.selector.heapContext s.contexts m <;> rfl

/-- A heap that is full is left as it is. -/
theorem internObj_eq_error {o : Obj} {e : Error} {s t : Solver}
    (h : internObj o s = .error e t) : t = s := by
  rw [internObj_apply] at h
  split at h <;> cases h
  rfl

/-- So is a table of contexts that is full, at a call. -/
theorem callContext_eq_error {site : QSite} {receiver : Option QObj} {e : Error} {s t : Solver}
    (h : callContext env site receiver s = .error e t) : t = s := by
  rw [callContext_apply] at h
  split at h <;> cases h
  rfl

/-- And at an allocation. -/
theorem heapContext_eq_error {m : QMethod} {e : Error} {s t : Solver}
    (h : heapContext env m s = .error e t) : t = s := by
  rw [heapContext_apply] at h
  split at h <;> cases h
  rfl

end SolverM

/-- A request that fails leaves the state alone. -/
theorem Request.answer_eq_error {env : Setting} {r : Request} {e : Error} {s t : Solver}
    (h : r.answer env s = .error e t) : t = s := by
  cases r with
  | mock m => exact SolverM.internObj_eq_error h
  | callContext site receiver => exact SolverM.callContext_eq_error h
  | heapContext m => exact SolverM.heapContext_eq_error h
  | obj | pointsTo | addPointsTo | addFlow | addCall | note => cases h

/-- Facts accrete while a request is answered, also if it fails. -/
theorem Request.accretes_left (env : Setting) (r : Request) :
    Leads Solver.Accretes (r.answer env) := by
  intro s
  cases h : r.answer env s with
  | ok a t => exact (Request.evolves h).accretes
  | error e t =>
      rw [answer_eq_error h]
      exact .refl s

/-- Facts accrete in a conversation, also if it fails. -/
theorem Service.accretes_left (env : Setting) (x : Service α) :
    Leads Solver.Accretes (x.run env) := by
  induction x with
  | done a => exact .pure a
  | fail e => exact .throw e
  | ask r next ih => exact (Request.accretes_left env r).bind ih

/-! ## What the rules add -/

/-- Additions of the kinds that the rules of the analysis make: of objects that are no stand-ins,
and of ordinary calls. -/
def Addition.Plain : Addition → Prop
  | .object o => o.mockKind? = none
  | .enter _ _ e | .call e => e.kind.isOrdinary = true
  | .context _ | .points .. | .flow _ | .note _ => True

/-- All plain additions. -/
abbrev plainly : Solver → Addition → Prop := fun _ a => a.Plain

/-- Steps that keep to rules may be put together. -/
instance Solver.isPreorder_evolves (p : Program) (rules : Solver → Addition → Prop) :
    IsPreorder Solver (Solver.Evolves p rules) where
  refl := .refl
  trans := fun _ _ _ => .trans

namespace SolverM

variable (env : Setting)

/-- To make an object that is no stand-in is plain. -/
theorem plain_left_internObj {o : Obj} (ho : o.mockKind? = none) :
    Leads (Solver.Evolves env.program plainly) (internObj o) := by
  intro s
  cases h : internObj o s with
  | ok i t => exact (internObj_ok env h).1.evolves ho
  | error e t =>
      rw [internObj_eq_error h]
      exact .refl s

/-- To choose the context of a call is plain. -/
theorem plain_left_callContext (site : QSite) (receiver : Option QObj) :
    Leads (Solver.Evolves env.program plainly) (callContext env site receiver) := by
  intro s
  cases h : callContext env site receiver s with
  | ok c t => exact evolves_callContext h fun _ _ => trivial
  | error e t =>
      rw [callContext_eq_error h]
      exact .refl s

/-- To choose a heap context is plain. -/
theorem plain_left_heapContext (m : QMethod) :
    Leads (Solver.Evolves env.program plainly) (heapContext env m) := by
  intro s
  cases h : heapContext env m s with
  | ok c t => exact evolves_heapContext h fun _ _ => trivial
  | error e t =>
      rw [heapContext_eq_error h]
      exact .refl s

/-- To let an object reach a pointer is plain. -/
theorem plain_left_addObj (ptr : Pointer) (o : QObj) :
    Leads (Solver.Evolves env.program plainly)
      (modify fun s : Solver => s.addObj ptr o : SolverM PUnit) :=
  .modify fun _ => Solver.Adds.evolves (a := .points ptr (.singleton o)) rfl trivial

/-- To add an ordinary call edge is plain. -/
theorem plain_left_addCall {e : CallEdge} (he : e.kind.isOrdinary = true) :
    Leads (Solver.Evolves env.program plainly)
      (modify fun s : Solver => s.addCall e : SolverM PUnit) :=
  .modify fun _ => Solver.Adds.evolves (a := .call e) rfl he

/-- To assign the object of a statement is plain. -/
theorem plain_left_assignObj (m : QMethod) (lhs : VarId) {o : Obj} (ho : o.mockKind? = none)
    (onHeap : Bool) :
    Leads (Solver.Evolves env.program plainly) (assignObj env m lhs o onHeap) := by
  refine (plain_left_internObj env ho).bind fun i => .ite ?_ ?_
  · exact Leads.bind (plain_left_heapContext env m) fun c => plain_left_addObj env _ _
  · exact Leads.bind (.pure _) fun c => plain_left_addObj env _ _

/-- To execute a statement is plain. -/
theorem plain_left_execute (m : QMethod) (index : Nat) (stmt : Stmt) :
    Leads (Solver.Evolves env.program plainly) (execute env m index stmt) := by
  have hflow : ∀ e, Leads (Solver.Evolves env.program plainly) (execute.flow env e) :=
    fun e => .modify fun _ => Solver.Adds.evolves (a := .flow e) rfl trivial
  cases stmt with
  | new lhs type =>
      unfold execute
      cases nextIndex index "statements" with
      | error e => exact Leads.bind (.throw e) fun _ => plain_left_assignObj env m lhs rfl true
      | ok i => exact Leads.bind (.pure i) fun _ => plain_left_assignObj env m lhs rfl true
  | literal lhs value =>
      cases value with
      | str | cls => exact plain_left_assignObj env m lhs rfl false
      | null => exact .pure _
  | copy | cast | loadStatic | storeStatic => exact hflow _
  | invoke site =>
      show Leads (Solver.Evolves env.program plainly) (callStatic env ⟨m.context, site⟩)
      unfold callStatic
      split
      · exact (plain_left_callContext env _ _).bind fun c => plain_left_addCall env rfl
      · exact .pure _
  | loadField | storeField | loadArray | storeArray | ret => exact .pure _

/-- What the statements of a method add is plain, also if one of them fails. -/
theorem plain_left_executeBody (m : QMethod) :
    Leads (Solver.Evolves env.program plainly) (executeBody env m) :=
  .forM (fun (stmt, index) => plain_left_execute env m index stmt) _

/-- What a call that is resolved on an object adds is plain, also if that fails. -/
theorem plain_left_dispatch (context : ContextId) (site : InvokeId) (o : QObj) :
    Leads (Solver.Evolves env.program plainly) (dispatch env context site o) := by
  refine Leads.bind .get fun s => ?_
  split
  · rename_i hkind
    have hordinary := CallKind.isOrdinary_of_ofInvoke? hkind
    refine Leads.bind ?_ fun _ => .pure _
    refine (plain_left_callContext env _ _).bind fun c => ?_
    split
    · exact (plain_left_addObj env _ _).bind fun _ => plain_left_addCall env hordinary
    · exact plain_left_addCall env hordinary
  · exact .pure _

/-- Facts accrete when the statements of a method take effect, also if one of them fails. -/
theorem accretes_left_executeBody (m : QMethod) : Leads Solver.Accretes (executeBody env m) :=
  (plain_left_executeBody env m).mono fun h => h.accretes

/-- Facts accrete when a call is resolved on an object, also if that fails. -/
theorem accretes_left_dispatch (context : ContextId) (site : InvokeId) (o : QObj) :
    Leads Solver.Accretes (dispatch env context site o) :=
  (plain_left_dispatch env context site o).mono fun h => h.accretes

end SolverM

end PointsTo
