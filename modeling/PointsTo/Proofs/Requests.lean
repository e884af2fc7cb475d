import PointsTo.Proofs.Additions
import PointsTo.Proofs.Computation

/-!
# What requests do

The elementary computations of a run, and the requests by which plugins take part in
it, are additions.  Each has one statement here that says what it adds and what the
answer means.

Main results:

- Theorems {lit}`internObj_ok`, {lit}`callContext_ok`, {lit}`heapContext_ok`: the ids
  that are handed out.
- Theorem {lit}`Service.evolves`: whatever a plugin says, the state evolves by
  additions.
-/

namespace PointsTo

/-! ## Contexts that are asked for -/

namespace Selector

/-- The context that a call asks the table for; none if it goes on with one that it
knows already. -/
def wanted? (s : Selector) (p : Program) (heap : Heap) (table : ContextTable) (site : QSite)
    (receiver : Option QObj) : Option Context :=
  match s.strategy, receiver with
  | .callSite, _ => some ((table.get site.context).push site.item.index s.k)
  | .object, some o => some ((table.get o.context).push o.item.index s.k)
  | .type, some o => some ((table.get o.context).push (typeElement p (heap.get o.item)) s.k)
  | .insensitive, _ | .object, none | .type, none => none

/-- The heap context that an allocation asks the table for. -/
def wantedHeap? (s : Selector) (table : ContextTable) (m : QMethod) : Option Context :=
  if s.strategy = .insensitive ∨ s.heapDepth = 0 then none
  else some ((table.get m.context).truncate s.heapDepth)

variable {s : Selector} {p : Program} {heap : Heap} {t u : ContextTable} {site : QSite}
  {receiver : Option QObj} {m : QMethod} {c : ContextId}

theorem callContext_cases (h : s.callContext p heap t site receiver = .ok (c, u)) :
    (∃ w, s.wanted? p heap t site receiver = some w ∧ t.intern w = .ok (c, u)) ∨
      s.wanted? p heap t site receiver = none ∧ u = t := by
  unfold callContext at h
  unfold wanted?
  split at h
  · cases h
    rename_i hs
    exact .inr ⟨by rw [hs], rfl⟩
  · rename_i hs
    exact .inl ⟨_, by rw [hs], h⟩
  · rename_i hs
    exact .inl ⟨_, by rw [hs], h⟩
  · rename_i hs
    exact .inl ⟨_, by rw [hs], h⟩
  · cases h
    rename_i hs
    exact .inr ⟨by rw [hs], rfl⟩
  · cases h
    rename_i hs
    exact .inr ⟨by rw [hs], rfl⟩

theorem heapContext_cases (h : s.heapContext t m = .ok (c, u)) :
    (∃ w, s.wantedHeap? t m = some w ∧ t.intern w = .ok (c, u)) ∨
      s.wantedHeap? t m = none ∧ u = t := by
  unfold heapContext at h
  unfold wantedHeap?
  by_cases hnone : s.strategy = .insensitive ∨ s.heapDepth = 0
  · rw [if_pos hnone] at h ⊢
    cases h
    exact .inr ⟨rfl, rfl⟩
  · rw [if_neg hnone] at h ⊢
    exact .inl ⟨_, rfl, h⟩

end Selector

/-! ## Ids that are handed out -/

namespace SolverM

variable {env : Setting} {s t : Solver} {rules : Solver → Addition → Prop}

/-- Asking for an object adds it, and the id denotes it. -/
theorem internObj_ok (env : Setting) {o : Obj} {i : ObjId} (h : internObj o s = .ok i t) :
    s.Adds env.program (.object o) t ∧ t.heap.get? i = some o := by
  simp only [internObj, bind_eq_ok, get_eq_ok, ofExcept_eq_ok, set_eq_ok, pure_eq_ok] at h
  obtain ⟨_, _, ⟨rfl, rfl⟩, ⟨i, heap⟩, _, ⟨hi, rfl⟩, _, _, rfl, rfl, rfl⟩ := h
  exact ⟨⟨i, heap, hi, rfl⟩, Interned.get?_of_intern hi⟩

/-- Asking for the context of a call adds at most the wanted one, and the selector
answers from the tables alone. -/
theorem callContext_ok {site : QSite} {receiver : Option QObj} {c : ContextId}
    (h : callContext env site receiver s = .ok c t) :
    ∃ contexts, t = { s with contexts } ∧
      env.selector.callContext env.program s.heap s.contexts site receiver =
        .ok (c, contexts) := by
  simp only [callContext, bind_eq_ok, get_eq_ok, ofExcept_eq_ok, set_eq_ok, pure_eq_ok] at h
  obtain ⟨_, _, ⟨rfl, rfl⟩, ⟨c, contexts⟩, _, ⟨hc, rfl⟩, _, _, rfl, rfl, rfl⟩ := h
  exact ⟨contexts, rfl, hc⟩

theorem heapContext_ok {m : QMethod} {c : ContextId} (h : heapContext env m s = .ok c t) :
    ∃ contexts, t = { s with contexts } ∧
      env.selector.heapContext s.contexts m = .ok (c, contexts) := by
  simp only [heapContext, bind_eq_ok, get_eq_ok, ofExcept_eq_ok, set_eq_ok, pure_eq_ok] at h
  obtain ⟨_, _, ⟨rfl, rfl⟩, ⟨c, contexts⟩, _, ⟨hc, rfl⟩, _, _, rfl, rfl, rfl⟩ := h
  exact ⟨contexts, rfl, hc⟩

/-- Asking for the context of a call is at most one addition. -/
theorem evolves_callContext {site : QSite} {receiver : Option QObj} {c : ContextId}
    (h : callContext env site receiver s = .ok c t)
    (hr : ∀ w, env.selector.wanted? env.program s.heap s.contexts site receiver = some w →
      rules s (.context w)) :
    s.Evolves env.program rules t := by
  obtain ⟨contexts, rfl, hc⟩ := callContext_ok h
  rcases Selector.callContext_cases hc with ⟨w, hw, hi⟩ | ⟨_, rfl⟩
  · exact Solver.Adds.evolves (a := .context w) ⟨c, contexts, hi, rfl⟩ (hr w hw)
  · exact .refl _

theorem accretes_callContext {site : QSite} {receiver : Option QObj} {c : ContextId}
    (h : callContext env site receiver s = .ok c t) : s.Accretes t := by
  have hevolves : s.Evolves env.program (fun _ _ => True) t :=
    evolves_callContext h fun _ _ => trivial
  exact hevolves.accretes

/-- Asking for a heap context is at most one addition. -/
theorem evolves_heapContext {m : QMethod} {c : ContextId} (h : heapContext env m s = .ok c t)
    (hr : ∀ w, env.selector.wantedHeap? s.contexts m = some w → rules s (.context w)) :
    s.Evolves env.program rules t := by
  obtain ⟨contexts, rfl, hc⟩ := heapContext_ok h
  rcases Selector.heapContext_cases hc with ⟨w, hw, hi⟩ | ⟨_, rfl⟩
  · exact Solver.Adds.evolves (a := .context w) ⟨c, contexts, hi, rfl⟩ (hr w hw)
  · exact .refl _

/-- The context that was handed out is the selected one from then on. -/
theorem selects_of_callContext {site : QSite} {receiver : Option QObj} {c : ContextId}
    (h : callContext env site receiver s = .ok c t) (hsite : s.contexts.Has site.context)
    (hreceiver : ∀ o ∈ receiver, s.settled.HasObj o) :
    t.settled.Selects env site receiver c := by
  obtain ⟨contexts, rfl, hc⟩ := callContext_ok h
  exact Selector.callContext_of_grows hc hsite hreceiver (.refl _) (.refl _)

theorem selects_of_heapContext {m : QMethod} {c : ContextId}
    (h : heapContext env m s = .ok c t) (hm : s.contexts.Has m.context) :
    t.settled.SelectsHeap env m c := by
  obtain ⟨contexts, rfl, hc⟩ := heapContext_ok h
  exact Selector.heapContext_of_grows hc hm (.refl _)

end SolverM

/-! ## Conversations -/

/-- No rules at all. -/
abbrev anything : Solver → Addition → Prop := fun _ _ => True

/-- The addition is no fact about pointers, flow or calls. -/
def Addition.Neutral : Addition → Prop
  | .points .. | .flow _ | .enter .. | .call _ => False
  | .object _ | .context _ | .note _ => True

/-- The fact about pointers, flow or calls that a request adds. -/
def Request.fact? : Request → Option Addition
  | .addPointsTo p os => some (.points p os)
  | .addFlow e => some (.flow e)
  | .addCall e => some (.call e)
  | .mock _ | .callContext .. | .heapContext _ | .obj _ | .pointsTo _ | .note _ => none

/-- A request is a sequence of additions: of its fact, or of none. -/
theorem Request.evolves_by {env : Setting} {r : Request} {a : r.Answer} {s t : Solver}
    {rules : Solver → Addition → Prop} (h : r.answer env s = .ok a t)
    (hneutral : ∀ {s x}, Addition.Neutral x → rules s x) (hfact : ∀ x ∈ r.fact?, rules s x) :
    s.Evolves env.program rules t := by
  cases r with
  | mock m => exact (SolverM.internObj_ok env h).1.evolves (hneutral trivial)
  | callContext site receiver => exact SolverM.evolves_callContext h fun _ _ => hneutral trivial
  | heapContext m => exact SolverM.evolves_heapContext h fun _ _ => hneutral trivial
  | obj o =>
      simp only [answer, bind_eq_ok, get_eq_ok, pure_eq_ok] at h
      obtain ⟨_, _, ⟨rfl, rfl⟩, _, rfl⟩ := h
      exact .refl _
  | pointsTo p =>
      simp only [answer, bind_eq_ok, get_eq_ok, pure_eq_ok] at h
      obtain ⟨_, _, ⟨rfl, rfl⟩, _, rfl⟩ := h
      exact .refl _
  | addPointsTo p os =>
      exact Solver.Adds.evolves (a := .points p os) (modify_eq_ok.1 h) (hfact _ rfl)
  | addFlow e => exact Solver.Adds.evolves (a := .flow e) (modify_eq_ok.1 h) (hfact _ rfl)
  | addCall e => exact Solver.Adds.evolves (a := .call e) (modify_eq_ok.1 h) (hfact _ rfl)
  | note line =>
      exact Solver.Adds.evolves (a := .note line) (modify_eq_ok.1 h) (hneutral trivial)

/-- Every request is a sequence of additions. -/
theorem Request.evolves {env : Setting} {r : Request} {a : r.Answer} {s t : Solver}
    (h : r.answer env s = .ok a t) : s.Evolves env.program anything t :=
  Request.evolves_by h (fun _ => trivial) fun _ _ => trivial

/-- A conversation is a sequence of additions, whatever the plugin asks for. -/
theorem Service.evolves {α : Type} {env : Setting} {x : Service α} {a : α} {s t : Solver}
    (h : x.run env s = .ok a t) : s.Evolves env.program anything t := by
  induction x generalizing s with
  | done b =>
      obtain ⟨_, rfl⟩ := pure_eq_ok.1 h
      exact .refl _
  | fail e => exact (throw_eq_ok.1 h).elim
  | ask r next ih =>
      rw [run_ask, bind_eq_ok] at h
      obtain ⟨b, u, hb, hnext⟩ := h
      exact (Request.evolves hb).trans (ih b hnext)

end PointsTo
