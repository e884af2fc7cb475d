import Mathlib.Data.Set.Card
import PointsTo.Proofs.Scoping
import PointsTo.Proofs.PluginRules
import PointsTo.Proofs.Questions
import PointsTo.Proofs.Universe

/-!
# Runs stay within their universe

The objects, contexts, variables, call sites and methods that a state mentions are among those
that its universe lists, and so is what the rules of the analysis add.  For plugins it is
enough that they ask for nothing else: this is a condition on conversations alone, in which an
answer may be relied on to be of the universe as well.

Main results:

- {lit}`Solver.Confined`: everything that a state mentions is of the universe; kept by additions
  of such things ({lit}`Confined.of_adds`) and by the working in of a fact
  ({lit}`Confined.of_take`).
- Theorems {lit}`Confined.obj_index_lt`, {lit}`Confined.context_index_lt`: the ids of such a
  state are bounded.
- Theorem {lit}`CoreRule.confined`: the rules of the analysis add nothing else.
- {lit}`Service.Confined`, and theorem {lit}`Service.Confined.run_ok`: neither do conversations
  that ask for nothing else.
-/

namespace PointsTo

/-! ## Tables of finitely many values -/

namespace Interned

variable {e : Entity} {α : Type} {t : Interned e α} {S : Set α}

/-- A table whose values come from a finite set has no more ids than the set has elements. -/
theorem index_lt_ncard (hS : S.Finite) (h : ∀ {i a}, t.get? i = some a → a ∈ S) {i : Id e}
    (hi : t.Has i) : i.index < S.ncard := by
  classical
  obtain ⟨a, ha⟩ := hi
  have hlt : i.index < t.toList.length := (List.getElem?_eq_some_iff.1 ha).1
  have hsub : (↑t.toList.toFinset : Set α) ⊆ S := by
    intro b hb
    obtain ⟨j, hj, rfl⟩ := List.getElem_of_mem (List.mem_toFinset.1 hb)
    exact @h ⟨j⟩ _ (List.getElem?_eq_getElem hj)
  calc i.index < t.toList.length := hlt
    _ = t.toList.toFinset.card := (List.toFinset_card_of_nodup t.values.nodup).symm
    _ = (↑t.toList.toFinset : Set α).ncard := (Set.ncard_coe_finset _).symm
    _ ≤ S.ncard := Set.ncard_le_ncard hsub hS

end Interned

/-! ## What is of the universe -/

variable (U : Universe)

/-- The variable or the field of a pointer is of the universe. -/
def Pointer.Confined : Pointer → Prop
  | .var v => v.item ∈ U.vars
  | .field _ f | .static f => f ∈ U.fields
  | .array _ => True

/-- What an edge out of a call site carries is of the universe. -/
def CallKind.Confined (site : InvokeId) : CallKind → Prop
  | .lambda call => call.captured ∈ U.captures ∧ call.result = (U.program.invoke site).result
  | .reflective call => ∀ v ∈ call.args, v ∈ U.args
  | .static | .virtual | .interface | .special => True

/-- Both ends of a call edge and its payload are of the universe. -/
structure CallEdge.Confined (e : CallEdge) : Prop where
  site : e.site.item ∈ U.sites
  callee : e.callee.item ∈ U.methods
  kind : e.kind.Confined U e.site.item

/-- What is added is of the universe. -/
def Addition.Confined : Addition → Prop
  | .object o => o ∈ U.objects
  | .context c => c ∈ U.contexts
  | .points ptr _ => ptr.Confined U
  | .flow e => e.target.Confined U
  | .enter receiver _ e => (∀ this ∈ receiver, this ∈ U.vars) ∧ e.Confined U
  | .call e => e.Confined U
  | .note _ => True

/-- All that a state mentions is of the universe. -/
structure Solver.Confined (s : Solver) : Prop where
  heap : ∀ {i o}, s.heap.get? i = some o → o ∈ U.objects
  contexts : ∀ {i c}, s.contexts.get? i = some c → c ∈ U.contexts
  owes : ∀ {ptr o}, s.Owes ptr o → ptr.Confined U
  flow : ∀ {e}, e ∈ s.flow.edges → e.target.Confined U
  reached : ∀ {m}, m ∈ s.calls.reachableIn → m.item ∈ U.methods
  reachable : ∀ {m}, m ∈ s.calls.reachable → m ∈ U.methods
  call : ∀ {e}, s.Announces e → e.Confined U

variable {U}

/-- An ordinary call edge passes nothing on, so it is confined. -/
theorem CallKind.confined_of_ofInvoke? {site : InvokeId} {i : InvokeKind} {kind : CallKind}
    (h : CallKind.ofInvoke? i = some kind) : kind.Confined U site := by
  cases i <;> cases h <;> trivial

/-- Values flow along a call edge of the universe to pointers of the universe. -/
theorem CallEdge.Feeds.confined {e : CallEdge} {ptr : Pointer} (h : e.Feeds U.program ptr)
    (he : e.Confined U) : ptr.Confined U := by
  cases h with
  | param h => exact Universe.mem_vars_of_param h
  | receiver h => exact Universe.mem_vars_of_receiver h
  | result h => exact Universe.mem_vars_of_result h
  | lambdaResult hk h =>
      have hkind := he.kind
      rw [hk] at hkind
      exact Universe.mem_vars_of_result (hkind.2 ▸ h)

namespace Solver

variable {s t : Solver} {a : Addition} {w : WorkItem} {rest : List WorkItem} {p : Program}

/-- A method is reachable after a fact was worked in only if it was before, or is the callee of
an edge that was expected. -/
theorem reachable_of_take {m : MethodId} (hq : s.queue = w :: rest)
    (h : m ∈ (s.take p w rest).calls.reachable) :
    m ∈ s.calls.reachable ∨ ∃ e, s.Announces e ∧ m = e.callee.item := by
  cases w with
  | pointsTo ptr os =>
      rw [calls_take_pointsTo] at h
      exact .inl h
  | call e =>
      unfold take at h
      dsimp only at h
      split at h
      · exact .inl h
      · rcases CallGraph.mem_reachable_discover h with rfl | h
        · exact .inr ⟨e, .inr (by rw [hq]; exact List.mem_cons_self), rfl⟩
        · exact .inl h

namespace Confined

/-- A state without facts is confined. -/
theorem new : Confined U {} := by
  refine ⟨?_, ?_, ?_, ?_, ?_, ?_, ?_⟩
  · intro i o h
    simp [Interned.get?, OrderedSet.get?, Interned.empty] at h
  · intro i c h
    have hc := ContextTable.get_of_get? h
    rw [ContextTable.get_new] at hc
    rw [← hc]
    exact U.empty_mem_contexts
  · rintro ptr o (h | ⟨os, hos, _⟩)
    · exact absurd h (OrderedSet.not_mem_empty o)
    · exact absurd hos List.not_mem_nil
  · exact fun h => absurd h (OrderedSet.not_mem_empty _)
  · exact fun h => absurd h (OrderedSet.not_mem_empty _)
  · exact fun h => absurd h (OrderedSet.not_mem_empty _)
  · rintro e (h | h)
    · exact absurd h (OrderedSet.not_mem_empty e)
    · exact absurd h List.not_mem_nil

variable (h : s.Confined U)

include h

/-! ### Bounded ids -/

/-- Objects on the heap have ids below the limit. -/
theorem obj_index_lt {i : ObjId} (hi : s.heap.Has i) : i.index < U.limit :=
  Nat.lt_of_lt_of_le (Interned.index_lt_ncard U.finite_objects h.heap hi) U.ncard_objects_le_limit

/-- There are no more context ids than contexts in the universe. -/
theorem context_index_lt {c : ContextId} (hc : s.contexts.Has c) :
    c.index < U.contexts.ncard :=
  Interned.index_lt_ncard U.finite_contexts h.contexts hc

/-- Also an id outside the table stands for an object of the universe. -/
theorem get_mem_objects (i : ObjId) : s.heap.get i ∈ U.objects := by
  unfold Heap.get
  cases hi : s.heap.get? i with
  | none => exact U.default_mem_objects
  | some o => exact h.heap hi

/-- Contexts that are looked up are of the universe. -/
theorem get_mem_contexts (c : ContextId) : s.contexts.get c ∈ U.contexts := by
  unfold ContextTable.get
  cases hc : s.contexts.get? c with
  | none => exact U.empty_mem_contexts
  | some w => exact h.contexts hc

/-! ### Contexts that are asked for -/

/-- The context that a call asks for is of the universe if the call site is, and the number of
the receiver is below the limit. -/
theorem wanted? {site : QSite} {receiver : Option QObj} {c : Context}
    (hsite : site.item ∈ U.sites) (hreceiver : ∀ o ∈ receiver, o.item.index < U.limit)
    (hc : U.env.selector.wanted? U.program s.heap s.contexts site receiver = some c) :
    c ∈ U.contexts := by
  unfold Selector.wanted? at hc
  split at hc
  · cases hc
    exact Universe.push_mem_contexts (h.get_mem_contexts _) (U.index_lt_limit hsite)
  · cases hc
    exact Universe.push_mem_contexts (h.get_mem_contexts _) (hreceiver _ rfl)
  · cases hc
    exact Universe.push_mem_contexts (h.get_mem_contexts _) (U.typeElement_lt_limit _)
  all_goals cases hc

/-- The heap context that an allocation asks for is of the universe. -/
theorem wantedHeap? {m : QMethod} {c : Context}
    (hc : U.env.selector.wantedHeap? s.contexts m = some c) : c ∈ U.contexts := by
  unfold Selector.wantedHeap? at hc
  split at hc
  · cases hc
  · cases hc
    exact Universe.truncate_mem_contexts (h.get_mem_contexts _)

/-! ### Steps -/

/-- An addition of something of the universe leaves a state within the universe. -/
theorem of_adds (ha : a.Confined U) (hadd : s.Adds p a t) : t.Confined U := by
  refine ⟨?_, ?_, ?_, ?_, ?_, ?_, ?_⟩
  · intro i o hi
    rcases hadd.heap_cases hi with hi | rfl
    · exact h.heap hi
    · exact ha
  · intro i c hi
    rcases hadd.contexts_cases hi with hi | rfl
    · exact h.contexts hi
    · exact ha
  · intro ptr o ho
    rcases hadd.owes_cases ho with ho | hnew
    · exact h.owes ho
    · cases a with
      | points ptr' os =>
          obtain ⟨rfl, _⟩ := hnew
          exact ha
      | flow e =>
          obtain ⟨rfl, _⟩ := hnew
          exact ha
      | enter receiver o' e =>
          obtain ⟨_, this, hthis, rfl⟩ := hnew
          exact ha.1 this hthis
      | object | context | call | note => exact hnew.elim
  · intro e he
    rcases hadd.flow_cases he with he | rfl
    · exact h.flow he
    · exact ha
  · intro m hm
    rw [hadd.accretes.calls] at hm
    exact h.reached hm
  · intro m hm
    rw [hadd.accretes.calls] at hm
    exact h.reachable hm
  · intro e he
    rcases hadd.announces_cases he with he | hnew
    · exact h.call he
    · cases a with
      | enter receiver o e' =>
          obtain rfl := hnew
          exact ha.2
      | call e' =>
          obtain rfl := hnew
          exact ha
      | object | context | points | flow | note => exact hnew.elim

/-- The working in of a fact leaves a state within the universe. -/
theorem of_take (hq : s.queue = w :: rest) : (s.take p w rest).Confined U := by
  refine ⟨?_, ?_, ?_, ?_, ?_, ?_, ?_⟩
  · intro i o hi
    rw [heap_take] at hi
    exact h.heap hi
  · intro i c hi
    rw [contexts_take] at hi
    exact h.contexts hi
  · intro ptr o ho
    rcases owes_of_take hq ho with ho | ⟨f, hf, rfl, _⟩
    · exact h.owes ho
    · exact h.flow hf
  · intro e he
    rw [flow_take] at he
    exact h.flow he
  · intro m hm
    rcases reachableIn_of_take hq hm with hm | ⟨e, he, rfl⟩
    · exact h.reached hm
    · exact (h.call he).callee
  · intro m hm
    rcases reachable_of_take hq hm with hm | ⟨e, he, rfl⟩
    · exact h.reachable hm
    · exact (h.call he).callee
  · exact fun he => h.call (announces_of_take hq he)

/-- A method of the universe may be found to be reachable. -/
theorem of_discover {m : QMethod} (hm : m.item ∈ U.methods) :
    Confined U { s with calls := s.calls.discover m } := by
  refine ⟨h.heap, h.contexts, h.owes, h.flow, ?_, ?_, ?_⟩
  · intro m' hm'
    rcases CallGraph.mem_reachableIn_discover.1 hm' with rfl | hm'
    · exact hm
    · exact h.reached hm'
  · intro m' hm'
    rcases CallGraph.mem_reachable_discover hm' with rfl | hm'
    · exact hm
    · exact h.reachable hm'
  · rintro e (he | he)
    · exact h.call (.inl (by simpa using he))
    · exact h.call (.inr he)

end Confined

end Solver

/-! ## The rules of the analysis -/

section Rules

variable {s : Solver}

/-- The target of the flow edge of a statement is of the universe. -/
theorem Stmt.target_confined {c : ContextId} {stmt : Stmt} {e : FlowEdge}
    (hstmt : U.program.HasStmt stmt) (he : stmt.flow? c = some e) : e.target.Confined U := by
  cases stmt with
  | copy | cast | loadStatic =>
      cases he
      exact Universe.mem_vars_of_mentioned hstmt List.mem_cons_self
  | storeStatic f rhs =>
      cases he
      exact ⟨_, hstmt, List.mem_singleton_self f⟩
  | new | literal | loadField | storeField | loadArray | storeArray | invoke | ret => cases he

/-- What a variable is read or written through leads to pointers of the universe. -/
theorem confined_of_accessEdges {heap : Heap} (hb : U.program.Built) {v : QVar} {o : QObj}
    {e : FlowEdge} (he : e ∈ accessEdges U.program heap v o) : e.target.Confined U := by
  cases mem_accessEdges.1 he with
  | load huse => exact Universe.mem_vars_of_mentioned (hb.mem_loads.1 huse) List.mem_cons_self
  | store huse => exact ⟨_, hb.mem_stores.1 huse, List.mem_singleton_self _⟩
  | loadArray huse =>
      exact Universe.mem_vars_of_mentioned (hb.mem_arrayLoads.1 huse) List.mem_cons_self
  | storeArray => trivial

/-- The rules of the analysis add only what is of the universe. -/
theorem CoreRule.confined {a : Addition} (h : CoreRule U.env s a) (hb : U.program.Built)
    (hs : s.Confined U) (hscoped : s.Scoped) : a.Confined U := by
  cases h with
  | object hx ho => exact Universe.obj_mem_objects (hs.reached hx.reachable) hx.stmt ho
  | heapContext _ _ hw => exact hs.wantedHeap? hw
  | assign hx ho _ _ => exact Universe.mem_vars_of_mentioned hx.hasStmt (Stmt.lhs_mem_mentioned ho)
  | flow hx he => exact Stmt.target_confined hx.hasStmt he
  | staticContext hx _ hw =>
      exact hs.wanted? (Universe.mem_sites_of_hasStmt hx.hasStmt) (by simp) hw
  | static hx ht _ =>
      exact ⟨Universe.mem_sites_of_hasStmt hx.hasStmt,
        Universe.mem_methods_of_lists (Program.lists_of_staticTarget? ht), trivial⟩
  | access _ he => exact confined_of_accessEdges hb he
  | callContext hd hw =>
      refine hs.wanted? (Universe.mem_sites_of_hasStmt (hb.mem_invokes.1 hd.use).1) ?_ hw
      rintro o ⟨⟩
      exact hs.obj_index_lt (hscoped.obj hd.points).2
  | enter hd _ =>
      exact ⟨fun this hthis => Universe.mem_vars_of_receiver hthis,
        Universe.mem_sites_of_hasStmt (hb.mem_invokes.1 hd.use).1,
        Universe.mem_methods_of_lists (Program.lists_of_receiverTarget? hd.target),
        CallKind.confined_of_ofInvoke? hd.kind⟩
  | wiring he _ hf => exact (CallEdge.feeds_of_ordinaryWiring hf).confined (hs.call (.inl he))

end Rules

/-! ## Conversations -/

/-- What is asked for is of the universe. -/
def Request.Confined (U : Universe) : Request → Prop
  | .mock x => x ∈ U.mocks
  | .callContext site receiver =>
      site.item ∈ U.sites ∧ ∀ o ∈ receiver, o.item.index < U.limit
  | .addPointsTo ptr _ => ptr.Confined U
  | .addFlow e => e.target.Confined U
  | .addCall e => e.Confined U
  | .heapContext _ | .obj _ | .pointsTo _ | .note _ => True

/-- What may be relied on of an answer. -/
def Request.Assures (U : Universe) : (r : Request) → r.Answer → Prop
  | .mock _, i => i.index < U.limit
  | .obj _, o => o ∈ U.objects
  | .pointsTo _, os => ∀ o ∈ os, o.item.index < U.limit
  | .callContext .., _ | .heapContext _, _ | .addPointsTo .., _ | .addFlow _, _ | .addCall _, _
  | .note _, _ => True

/-- A conversation asks only for what is of the universe, and ends with a value that is as
{lit}`Q` says. -/
abbrev Service.Confined (U : Universe) {α : Type} (Q : α → Prop) : Service α → Prop :=
  Service.Asks (Request.Confined U) (Request.Assures U) Q

/-- What is asked for keeps a state within the universe, and the answer is as it may be relied
on to be. -/
theorem Request.Confined.answer_ok {r : Request} {answer : r.Answer} {s t : Solver}
    (hr : r.Confined U) (hs : s.Confined U)
    (hpoints : ∀ {ptr o}, o ∈ s.pointsTo.get ptr → o.item.index < U.limit)
    (h : r.answer U.env s = .ok answer t) : t.Confined U ∧ r.Assures U answer := by
  cases r with
  | mock x =>
      obtain ⟨hadd, hget⟩ := SolverM.internObj_ok U.env h
      have ht := hs.of_adds (a := .object x.obj) (Universe.mock_mem_objects hr) hadd
      exact ⟨ht, ht.obj_index_lt ⟨_, hget⟩⟩
  | callContext site receiver =>
      obtain ⟨contexts, rfl, hc⟩ := SolverM.callContext_ok h
      rcases Selector.callContext_cases hc with ⟨c, hw, hi⟩ | ⟨_, rfl⟩
      · exact ⟨hs.of_adds (p := U.program) (a := .context c) (hs.wanted? hr.1 hr.2 hw)
          ⟨_, contexts, hi, rfl⟩, trivial⟩
      · exact ⟨hs, trivial⟩
  | heapContext m =>
      obtain ⟨contexts, rfl, hc⟩ := SolverM.heapContext_ok h
      rcases Selector.heapContext_cases hc with ⟨c, hw, hi⟩ | ⟨_, rfl⟩
      · exact ⟨hs.of_adds (p := U.program) (a := .context c) (hs.wantedHeap? hw)
          ⟨_, contexts, hi, rfl⟩, trivial⟩
      · exact ⟨hs, trivial⟩
  | obj o =>
      simp only [Request.answer, bind_eq_ok, get_eq_ok, pure_eq_ok] at h
      obtain ⟨_, _, ⟨rfl, rfl⟩, rfl, rfl⟩ := h
      exact ⟨hs, hs.get_mem_objects o⟩
  | pointsTo ptr =>
      simp only [Request.answer, bind_eq_ok, get_eq_ok, pure_eq_ok] at h
      obtain ⟨_, _, ⟨rfl, rfl⟩, rfl, rfl⟩ := h
      exact ⟨hs, fun o ho => hpoints ho⟩
  | addPointsTo ptr os =>
      exact ⟨hs.of_adds (p := U.program) (a := .points ptr os) hr (modify_eq_ok.1 h), trivial⟩
  | addFlow e =>
      exact ⟨hs.of_adds (p := U.program) (a := .flow e) hr (modify_eq_ok.1 h), trivial⟩
  | addCall e =>
      exact ⟨hs.of_adds (p := U.program) (a := .call e) hr (modify_eq_ok.1 h), trivial⟩
  | note line =>
      exact ⟨hs.of_adds (p := U.program) (a := .note line) trivial (modify_eq_ok.1 h), trivial⟩

/-- A conversation that asks only for what is of the universe keeps a state within it. -/
theorem Service.Confined.run_ok {α : Type} {Q : α → Prop} {x : Service α} {a : α} {s t : Solver}
    (hx : x.Confined U Q) (hs : s.Confined U)
    (hpoints : ∀ {ptr o}, o ∈ s.pointsTo.get ptr → o.item.index < U.limit)
    (h : x.run U.env s = .ok a t) : t.Confined U ∧ Q a := by
  refine (Asks.run_ok (I := fun u => u.Confined U ∧
    ∀ {ptr o}, o ∈ u.pointsTo.get ptr → o.item.index < U.limit) ?_ hx ⟨hs, hpoints⟩ h).imp_left
    And.left
  rintro r answer u v hr ⟨hu, hlimit⟩ hanswer
  obtain ⟨hv, hassures⟩ := hr.answer_ok hu hlimit hanswer
  refine ⟨⟨hv, ?_⟩, hassures⟩
  intro ptr o ho
  rw [(Request.evolves hanswer).accretes.pointsTo] at ho
  exact hlimit ho

end PointsTo
