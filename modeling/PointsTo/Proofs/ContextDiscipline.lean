import PointsTo.Proofs.Closure
import PointsTo.Proofs.PluginWarrants

/-!
# Contexts are as the options ask

A strategy says of which elements contexts are made.  Calls are performed by the rules of the
analysis and by plugins, with receivers that come from many places, and heap contexts become parts
of the contexts of methods again.  Still every context of a run is as long as the options allow,
the context of every callee is made of the call that leads to it, and every object lies under a heap
context as its kind asks.

Main results:

- {lit}`Solver.CalledUnder`: the context of a callee, for a call and its receiver; theorem
  {lit}`Solver.calledUnder_of_selects`: that is the context which is selected.
- {lit}`Solver.LiesUnder`: the heap contexts of objects, by their kinds.
- Theorem {lit}`Analysis.disciplined_of_attains`: in every state of a run all contexts are as the
  options ask.
-/

namespace PointsTo

open Context

/-! ## The contexts of callees -/

/-- The context element that stands for an object, if the strategy takes elements from objects:
the object itself, or the class that allocates it. -/
def Selector.element? (s : Selector) (p : Program) (heap : Heap) (i : ObjId) : Option Nat :=
  match s.strategy with
  | .object => some i.index
  | .type => (heap.get? i).map (typeElement p)
  | .insensitive | .callSite => none

namespace Solver

/-- The id is that of the context with these elements. -/
def Spells (s : Solver) (c : ContextId) (elements : List Nat) : Prop :=
  s.contexts.get? c = some ⟨elements⟩

/-- The context of a callee is as the strategy asks, for the call site and the object that the call
is on, if it is on one. -/
inductive CalledUnder (env : Setting) (s : Solver) (site : QSite) (receiver : Option QObj)
    (c : ContextId) : Prop
  | insensitive (hs : env.selector.strategy = .insensitive) (hc : c = emptyContext)
  /-- The call site is added to the context of the caller. -/
  | callSite {caller} (hs : env.selector.strategy = .callSite)
      (hcaller : s.Spells site.context caller)
      (hc : s.Spells c (keepLast env.selector.k (caller ++ [site.item.index])))
  /-- What stands for the receiver is added to its heap context. -/
  | received {o h e} (ho : receiver = some o)
      (he : env.selector.element? env.program s.heap o.item = some e) (hh : s.Spells o.context h)
      (hc : s.Spells c (keepLast env.selector.k (h ++ [e])))
  /-- Without a receiver the context of the caller is kept. -/
  | kept (hs : env.selector.strategy = .object ∨ env.selector.strategy = .type)
      (ho : receiver = none) (hc : c = site.context)

variable {env : Setting} {s : Solver}

theorem spells_of_has {c : ContextId} (h : s.contexts.Has c) :
    s.Spells c (s.contexts.get c).elements := by
  obtain ⟨w, hw⟩ := h
  rw [ContextTable.get_of_get? hw]
  exact hw

theorem spells_of_intern {c : ContextId} {w : Context}
    (h : s.contexts.intern w = .ok (c, s.contexts)) : s.Spells c w.elements :=
  Interned.get?_of_intern h

/-- The selected context is as the strategy asks. -/
theorem calledUnder_of_selects {site : QSite} {receiver : Option QObj} {c : ContextId}
    (hsite : s.contexts.Has site.context) (hreceiver : ∀ o ∈ receiver, s.settled.HasObj o)
    (h : s.settled.Selects env site receiver c) : s.CalledUnder env site receiver c := by
  unfold View.Selects Selector.callContext at h
  split at h
  · rename_i hs
    cases h
    exact .insensitive hs rfl
  · rename_i hs
    exact .callSite hs (spells_of_has hsite) (spells_of_intern h)
  · rename_i o hs
    exact .received rfl (by simp only [Selector.element?, hs])
      (spells_of_has (hreceiver o rfl).1) (spells_of_intern h)
  · rename_i o hs
    -- the element of a class is read from the object, so that this has to exist
    obtain ⟨hc, x, hx⟩ := hreceiver o rfl
    have hget : s.settled.heap.get o.item = x := Heap.get_of_get? hx
    rw [hget] at h
    have hx' : s.heap.get? o.item = some x := hx
    exact .received rfl (by simp only [Selector.element?, hs, hx', Option.map_some])
      (spells_of_has hc) (spells_of_intern h)
  · rename_i hs
    cases h
    exact .kept (.inl hs) rfl rfl
  · rename_i hs
    cases h
    exact .kept (.inr hs) rfl rfl

/-! ## The heap contexts of objects -/

/-- The heap context of an object is as its kind asks.  An object that is made in a method has the
last elements of a context of that method. -/
def LiesUnder (env : Setting) (s : Solver) (x : Obj) (h : List Nat) : Prop :=
  match x.kind with
  | .alloc .. | .mock .reflective _ => ∃ (m : QMethod) (w : List Nat),
      x.container = some m.item ∧ s.Spells m.context w ∧ h = keepLast env.selector.heapDepth w
  | .mock .lambda _ | .mock .lambdaConstructed _ => h.length ≤ env.selector.k
  | .stringConstant _ | .classConstant _ | .mock .classMeta _ | .mock .methodMeta _
  | .mock .constructorMeta _ => h = []

/-- All contexts of a state are as the options ask. -/
structure Disciplined (env : Setting) (s : Solver) : Prop where
  empty : s.Spells emptyContext []
  /-- No other context exists if contexts are not told apart. -/
  insensitive : env.selector.strategy = .insensitive → ∀ c, s.contexts.Has c → c = emptyContext
  bounded : ∀ {c w}, s.Spells c w → w.length ≤ env.selector.k
  calls : ∀ {e}, s.Announces e → ∃ receiver, e.Origin env s.settled receiver ∧
    s.CalledUnder env e.site receiver e.callee.context
  objects : ∀ {ptr o}, s.Owes ptr o → ∃ x h, s.heap.get? o.item = some x ∧
    s.Spells o.context h ∧ s.LiesUnder env x h

namespace Warranted

variable (h : s.Warranted env)

include h

/-- Not to tell contexts apart, and to keep no elements, are ways to have empty heap contexts. -/
theorem spells_of_selectsHeap {m : QMethod} {c : ContextId} (hm : s.contexts.Has m.context)
    (hc : s.settled.SelectsHeap env m c) : ∃ w, s.Spells m.context w ∧
      s.Spells c (keepLast env.selector.heapDepth w) := by
  refine ⟨_, spells_of_has hm, ?_⟩
  unfold View.SelectsHeap Selector.heapContext at hc
  split at hc
  · rename_i hnone
    cases hc
    have hempty : keepLast env.selector.heapDepth (s.contexts.get m.context).elements = [] := by
      rcases hnone with hs | hdepth
      · obtain ⟨w, hw⟩ := hm
        rw [ContextTable.get_of_get? hw, (h.contexts hw).insensitive hs]
        exact List.drop_nil
      · rw [hdepth, keepLast_zero]
    rw [hempty]
    exact h.empty
  · exact spells_of_intern hc

/-- An object lies under a heap context as its kind asks. -/
theorem liesUnder {ptr : Pointer} {o : QObj} (ho : s.Owes ptr o) :
    ∃ x w, s.heap.get? o.item = some x ∧ s.Spells o.context w ∧ s.LiesUnder env x w := by
  obtain ⟨hcontext, x, hx⟩ := (h.scope.owes ho).2
  have hlodged := h.lodged ho
  unfold View.Lodges at hlodged
  rw [Heap.get_of_get? hx] at hlodged
  refine ⟨x, (s.contexts.get o.context).elements, hx, spells_of_has hcontext, ?_⟩
  have hmade : (∃ m : QMethod, s.contexts.Has m.context ∧ x.container = some m.item ∧
      s.settled.SelectsHeap env m o.context) → ∃ (m : QMethod) (w : List Nat),
        x.container = some m.item ∧ s.Spells m.context w ∧
          (s.contexts.get o.context).elements = keepLast env.selector.heapDepth w := by
    rintro ⟨m, hm, hcontainer, hc⟩
    obtain ⟨w, hw, hspells⟩ := h.spells_of_selectsHeap hm hc
    rw [ContextTable.get_of_get? hspells]
    exact ⟨m, w, hcontainer, hw, rfl⟩
  have hnothing : o.context = emptyContext → (s.contexts.get o.context).elements = [] := by
    intro hc
    rw [hc, ContextTable.get_of_get? h.empty]
    rfl
  unfold LiesUnder
  cases hkind : x.kind with
  | alloc =>
      rw [hkind] at hlodged
      exact hmade hlodged
  | stringConstant | classConstant =>
      rw [hkind] at hlodged
      exact hnothing hlodged
  | mock kind site =>
      rw [hkind] at hlodged
      cases kind with
      | reflective => exact hmade hlodged
      | lambda | lambdaConstructed => exact (h.contexts (spells_of_has hcontext)).depth
      | classMeta | methodMeta | constructorMeta => exact hnothing hlodged

theorem disciplined : s.Disciplined env where
  empty := h.empty
  insensitive := by
    rintro hs c ⟨w, hw⟩
    rw [(h.contexts hw).insensitive hs] at hw
    exact Interned.get?_injective hw h.empty
  bounded := fun hw => (h.contexts hw).depth
  calls := by
    intro e he
    obtain ⟨receiver, horigin, hreceiver, hc⟩ := (h.calls he).selected
    exact ⟨receiver, horigin, calledUnder_of_selects (h.scope.call he).site hreceiver hc⟩
  objects := h.liesUnder

end Warranted

end Solver

/-! ## Analyses -/

/-- In every state of a run all contexts are as the options ask. -/
theorem Analysis.disciplined_of_attains {p : Program} {a : Analysis} (ds : List Declaration)
    (hbuild : (Builder.ofList ds).build = .ok p) (hextra : a.extra = []) {files : Reflection.Files}
    {entries : List MethodId} {m : Machine Member} (h : a.Attains p files entries m) :
    m.solver.Disciplined (a.setting p) :=
  have hb := Program.built_of_build (Builder.numbered_ofList ds) hbuild
  (Analysis.warranted_of_attains hb hextra h).solver.disciplined

/-- Options by which methods are told apart by two objects, and objects by one. -/
def twoObjects : Options :=
  { oneCallSite true true with context := .object, k := 2, heapDepth := 1 }

/-- The method is called under a context of the object that it is called on. -/
theorem Analysis.disciplined_of_attains_calling :
    let a : Analysis := { options := twoObjects }
    let p := (settingOf callingProgram a.options).program
    ∃ m, a.Attains p (fun _ => none) [⟨1⟩] m ∧
      ⟨⟨emptyContext, ⟨0⟩⟩, ⟨⟨1⟩, ⟨0⟩⟩, .virtual⟩ ∈ m.solver.calls.edges ∧
      m.solver.Spells ⟨1⟩ [0] ∧ m.solver.Disciplined (a.setting p) := by
  intro a p
  have hbuild : (Builder.ofList callingProgram).build = .ok p :=
    Program.build_of_checks (by decide +kernel) (by decide +kernel)
  let run := Machine.solve Member.plugin (a.setting p) 10 [⟨1⟩] (.new [.newLambda, .reflection {}])
  have hattains : a.Attains p (fun _ => none) [⟨1⟩] run.2 :=
    Analysis.attains_of_members callingProgram hbuild rfl rfl 10 [⟨1⟩]
  have hedge : (⟨⟨emptyContext, ⟨0⟩⟩, ⟨⟨1⟩, ⟨0⟩⟩, .virtual⟩ : CallEdge) ∈
      run.2.solver.calls.edges := by decide +kernel
  have hspells : run.2.solver.contexts.get? ⟨1⟩ = some ⟨[0]⟩ := by decide +kernel
  exact ⟨run.2, hattains, hedge, hspells,
    Analysis.disciplined_of_attains callingProgram hbuild rfl hattains⟩

end PointsTo
