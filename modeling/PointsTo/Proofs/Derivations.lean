import PointsTo.Proofs.Facts
import PointsTo.Proofs.Indexes
import PointsTo.Proofs.Scoping

/-!
# Facts that the rules derive

Whatever the rules of the analysis add to a state follows from what the state knows
already, and so does whatever the main loop makes of the facts that wait.  Read without
ids, the facts of a state are therefore contained in every family that is closed under the
rules.

Main results:

- {lit}`Reading.Reads`: the tables of a reading extend those of a state; theorems
  {lit}`Reading.Reads.marks_of_selects` and {lit}`Reading.Reads.marks_of_selectsHeap`: the
  contexts that a selector chooses, read without ids.
- {lit}`Derived`: all facts of a state, also those that wait, are in a family.
- Theorems {lit}`Derived.of_evolves`, {lit}`Derived.of_take`, {lit}`Derived.of_discover`: the
  changes of a run bring derived facts only.
-/

namespace PointsTo

/-! ## Contexts without ids -/

/-- To keep the last elements is to keep the last marks. -/
theorem Context.map_keepLast (f : Nat → Mark) (limit : Nat) (l : List Nat) :
    (keepLast limit l).map f = lastMarks limit (l.map f) := by
  simp only [keepLast, lastMarks, List.map_drop, List.length_map]

/-- To add an element to a context is to add a mark. -/
theorem Context.map_push (f : Nat → Mark) (c : Context) (element limit : Nat) :
    (c.push element limit).elements.map f = lastMarks limit (c.elements.map f ++ [f element]) := by
  simp only [push, map_keepLast, List.map_append, List.map_cons, List.map_nil]

namespace Reading

/-- The tables of a reading extend those of a state of a run in a setting. -/
structure Reads (r : Reading) (env : Setting) (s : Solver) : Prop where
  strategy : r.strategy = env.selector.strategy
  heap : s.heap.Grows r.heap
  contexts : s.contexts.Grows r.contexts
  empty : r.contexts.get? emptyContext = some .empty

namespace Reads

variable {r : Reading} {env : Setting} {s t : Solver}

/-- What is read in a later state is read in an earlier one. -/
theorem of_le (h : r.Reads env t) (hst : s.settled.Le t.settled) : r.Reads env s :=
  ⟨h.strategy, hst.heap.trans h.heap, hst.contexts.trans h.contexts, h.empty⟩

/-- The empty context has no marks. -/
theorem marks_empty (h : r.Reads env s) : r.marks emptyContext = [] := by
  rw [marks, ContextTable.get_of_get? h.empty]
  rfl

/-- The marks of a context are those of its elements. -/
theorem marks_of_get? (h : r.Reads env s) {c : ContextId} {w : Context}
    (hc : s.contexts.get? c = some w) : r.marks c = w.elements.map r.mark := by
  rw [marks, ContextTable.get_of_get? (h.contexts _ _ hc)]

/-- A context that exists reads the same in the tables of the state. -/
theorem marks_of_has (h : r.Reads env s) {c : ContextId} (hc : s.contexts.Has c) :
    r.marks c = (s.contexts.get c).elements.map r.mark := by
  rw [marks, ContextTable.get_of_grows hc h.contexts]

/-- An object is read with the marks of its heap context. -/
theorem obj_of_get? (h : r.Reads env s) {i : ObjId} {x : Obj} (hi : s.heap.get? i = some x)
    (c : ContextId) : r.obj ⟨c, i⟩ = ⟨r.marks c, x⟩ := by
  rw [obj, Heap.get_of_get? (h.heap _ _ hi)]

/-- The type of an object is the one on the heap. -/
theorem type_of_has (h : r.Reads env s) {o : QObj} (ho : s.heap.Has o.item) :
    (r.obj o).item.type = s.heap.typeOf o.item := by
  rw [obj, Heap.typeOf, Heap.get_of_grows ho h.heap]

/-- The context that a selector chooses for a call, read without ids. -/
theorem marks_of_selects (h : r.Reads env s) {site : QSite} {receiver : Option QObj}
    {c : ContextId} (hc : s.settled.Selects env site receiver c)
    (hsite : s.contexts.Has site.context) (hreceiver : ∀ o ∈ receiver, s.settled.HasObj o) :
    r.marks c = env.selector.callMarks env.program (r.under site) (receiver.map r.obj) := by
  have hpushed : ∀ {c' : ContextId} {element : Nat},
      s.contexts.intern ((s.contexts.get c').push element env.selector.k) = .ok (c, s.contexts) →
      s.contexts.Has c' →
      r.marks c = lastMarks env.selector.k (r.marks c' ++ [r.mark element]) := by
    intro c' element hintern hc'
    rw [h.marks_of_get? (Interned.get?_of_intern hintern), Context.map_push, h.marks_of_has hc']
  have hmark := h.strategy
  unfold View.Selects Selector.callContext at hc
  unfold Selector.callMarks
  split at hc
  · rename_i hs
    cases hc
    rw [hs]
    exact h.marks_empty
  · rename_i hs
    rw [hs] at hmark ⊢
    rw [hpushed hc hsite]
    simp only [mark, hmark]
    rfl
  · rename_i o hs
    rw [hs] at hmark ⊢
    rw [hpushed hc (hreceiver o rfl).1]
    simp only [mark, hmark]
    rfl
  · rename_i o hs
    rw [hs] at hmark ⊢
    rw [hpushed hc (hreceiver o rfl).1]
    simp only [mark, hmark, Option.map_some, obj, Heap.get_of_grows (hreceiver o rfl).2 h.heap]
  · rename_i hs
    cases hc
    rw [hs]
    rfl
  · rename_i hs
    cases hc
    rw [hs]
    rfl

/-- The heap context that a selector chooses in a method, read without ids. -/
theorem marks_of_selectsHeap (h : r.Reads env s) {m : QMethod} {c : ContextId}
    (hc : s.settled.SelectsHeap env m c) (hm : s.contexts.Has m.context) :
    r.marks c = env.selector.heapMarks (r.marks m.context) := by
  unfold View.SelectsHeap Selector.heapContext at hc
  unfold Selector.heapMarks
  by_cases hnone : env.selector.strategy = .insensitive ∨ env.selector.heapDepth = 0
  · rw [if_pos hnone] at hc ⊢
    cases hc
    exact h.marks_empty
  · rw [if_neg hnone] at hc ⊢
    rw [h.marks_of_get? (Interned.get?_of_intern hc), h.marks_of_has hm]
    exact Context.map_keepLast _ _ _

/-- The filter of an edge lets an object pass by its type alone. -/
theorem passes_iff (h : r.Reads env s) {filter : Option JavaType} {o : QObj}
    (ho : s.heap.Has o.item) :
    Facts.Passes env.program filter (r.obj o) ↔
      Solver.Passes env.program s.heap filter o := by
  simp only [Facts.Passes, Solver.Passes, h.type_of_has ho]

/-- The method that a call runs on an object depends on the type of the object alone. -/
theorem targetOn?_eq (h : r.Reads env s) (site : InvokeId) {o : QObj} (ho : s.heap.Has o.item) :
    targetOn? env.program (env.program.invoke site) (r.obj o).item.type =
      receiverTarget? env.program s.heap (env.program.invoke site) o := by
  rw [h.type_of_has ho]
  rfl

end Reads

end Reading

/-! ## Derived facts -/

/-- The facts that an addition brings are in a family of facts. -/
def Addition.Derived (r : Reading) (F : Facts) : Addition → Prop
  | .points ptr os => ∀ o ∈ os, F.points (r.place ptr) (r.obj o)
  | .flow e => F.flow (r.flow e)
  | .enter receiver o e => F.call (r.call e) ∧
      ∀ this ∈ receiver, F.points (r.place (varPointer e.callee.context this)) (r.obj o)
  | .call e => F.call (r.call e)
  | .object _ | .context _ | .note _ => True

/-- All facts that a state knows or expects are in a family of facts. -/
structure Derived (r : Reading) (F : Facts) (s : Solver) : Prop where
  reached : ∀ {m}, m ∈ s.calls.reachableIn → F.reached (r.under m)
  points : ∀ {ptr o}, s.Owes ptr o → F.points (r.place ptr) (r.obj o)
  flow : ∀ {e}, e ∈ s.flow.edges → F.flow (r.flow e)
  call : ∀ {e}, s.Announces e → F.call (r.call e)

namespace Derived

variable {env : Setting} {r : Reading} {F : Facts} {entries : List MethodId} {s t : Solver}
  {a : Addition} {w : WorkItem} {rest : List WorkItem}

/-- Before a run there are no facts. -/
theorem new : Derived r F {} := by
  refine ⟨?_, ?_, ?_, ?_⟩
  · exact fun h => absurd h (OrderedSet.not_mem_empty _)
  · rintro ptr o (h | ⟨os, hos, _⟩)
    · exact absurd h (OrderedSet.not_mem_empty o)
    · exact absurd hos List.not_mem_nil
  · exact fun h => absurd h (OrderedSet.not_mem_empty _)
  · rintro e (h | h)
    · exact absurd h (OrderedSet.not_mem_empty e)
    · exact absurd h List.not_mem_nil

/-- What a statement asks for on an object is in the family. -/
theorem flow_of_access (hF : F.Closed env.program env.selector entries) {v : QVar} {o : QObj}
    (ho : F.points (r.place (.var v)) (r.obj o)) {stmt : Stmt} (hstmt : env.program.HasStmt stmt) :
    F.Access env.program env.selector (r.under v) (r.obj o) stmt := by
  obtain ⟨m, hm⟩ := hstmt
  exact hF.access _ _ ho m stmt hm

/-- The flow through fields and elements of an object is in the family. -/
theorem flow_of_accessEdges (hF : F.Closed env.program env.selector entries)
    (hb : env.program.Built) (hr : r.Reads env s) {v : QVar} {o : QObj}
    (hobj : s.heap.Has o.item) (ho : F.points (r.place (.var v)) (r.obj o)) {e : FlowEdge}
    (he : e ∈ accessEdges env.program s.heap v o) : F.flow (r.flow e) := by
  cases mem_accessEdges.1 he with
  | load huse => exact flow_of_access hF ho (hb.mem_loads.1 huse) rfl
  | store huse => exact flow_of_access hF ho (hb.mem_stores.1 huse) rfl
  | loadArray huse => exact flow_of_access hF ho (hb.mem_arrayLoads.1 huse) rfl
  | storeArray huse =>
      have hflow := flow_of_access hF ho (hb.mem_arrayStores.1 huse) rfl
      rw [hr.type_of_has hobj] at hflow
      exact hflow

/-- The flow along an ordinary call edge is in the family. -/
theorem flow_of_wiring {p : Program} {e : CallEdge} (h : F.Wired p (r.call e)) {f : FlowEdge}
    (hf : f ∈ ordinaryWiring p e) : F.flow (r.flow f) := by
  rcases List.mem_append.1 hf with hf | hf
  · obtain ⟨arg, param, type, hmem, htype, rfl⟩ := mem_argumentEdges.1 hf
    exact h.argument arg param type hmem htype
  · obtain ⟨result, v, hresult, hv, rfl⟩ := mem_returnEdges.1 hf
    exact h.result result hresult v hv

/-- The flow that a statement adds by itself is in the family. -/
theorem flow_of_stmt {p : Program} {sel : Selector} {m : QMethod} {index : Nat} {stmt : Stmt}
    (h : F.Effect p sel (r.under m) index stmt) {e : FlowEdge}
    (he : stmt.flow? m.context = some e) : F.flow (r.flow e) := by
  cases stmt with
  | copy | cast | loadStatic | storeStatic =>
      cases he
      exact h
  | new | literal | loadField | storeField | loadArray | storeArray | invoke | ret => cases he

/-- An object that a statement assigns is in the family. -/
theorem points_of_stmt (hr : r.Reads env s) {m : QMethod} (hm : s.contexts.Has m.context)
    {index : Nat} {stmt : Stmt} (h : F.Effect env.program env.selector (r.under m) index stmt)
    {lhs : VarId} {x : Obj} {onHeap : Bool} (hx : stmt.obj? m.item index = some (lhs, x, onHeap))
    {i : ObjId} {c : ContextId} (hi : s.heap.get? i = some x)
    (hc : s.settled.Houses env m onHeap c) :
    F.points (r.place (varPointer m.context lhs)) (r.obj ⟨c, i⟩) := by
  rw [hr.obj_of_get? hi]
  cases stmt with
  | new lhs' type =>
      cases hx
      rw [hr.marks_of_selectsHeap hc hm]
      exact h
  | literal lhs' value =>
      cases value with
      | str | cls =>
          cases hx
          obtain rfl : c = emptyContext := hc
          rw [hr.marks_empty]
          exact h
      | null => cases hx
  | copy | cast | loadField | storeField | loadStatic | storeStatic | loadArray | storeArray
  | invoke | ret => cases hx

/-- What the rules of the analysis add to a state whose facts are in a closed family is in the
family too. -/
theorem of_coreRule (h : Derived r F s) (hF : F.Closed env.program env.selector entries)
    (hb : env.program.Built) (hr : r.Reads env s) (hs : s.Scoped) (ha : CoreRule env s a) :
    a.Derived r F := by
  have hbody : ∀ {m index stmt}, Executed env.program s m index stmt →
      F.Effect env.program env.selector (r.under m) index stmt :=
    fun hx => hF.body _ (h.reached hx.reachable) _ _ hx.stmt
  cases ha with
  | object | heapContext | staticContext | callContext => trivial
  | assign hx ho hi hc =>
      intro o hmem
      obtain rfl := OrderedSet.mem_singleton.1 hmem
      exact points_of_stmt hr (hs.reached hx.reachable) (hbody hx) ho hi hc
  | flow hx he => exact flow_of_stmt (hbody hx) he
  | @static m index site callee c hx ht hc =>
      have hcall := hbody hx callee ht
      rw [Addition.Derived, Reading.call, Reading.under, Reading.under,
        hr.marks_of_selects hc (hs.reached hx.reachable) (by simp)]
      exact hcall
  | access ho he => exact flow_of_accessEdges hF hb hr (hs.obj ho).2 (h.points (.inl ho)) he
  | @enter v o site callee kind c hd hc =>
      obtain ⟨hstmt, hbase, hinstance⟩ := hb.mem_invokes.1 hd.use
      have hobj := hs.obj hd.points
      have hcalled := flow_of_access hF (h.points (.inl hd.points)) hstmt hbase hinstance callee
        kind (by rw [hr.targetOn?_eq site hobj.2, hd.target]) hd.kind
      have hmarks := hr.marks_of_selects hc (hs.var hd.points) (by
        rintro _ ⟨⟩
        exact hobj)
      simp only [Addition.Derived, Reading.call, Reading.place, varPointer, Reading.under, hmarks]
      exact hcalled
  | wiring he hk hf => exact flow_of_wiring (hF.wiring _ (h.call (.inl he)) hk) hf

/-- An addition of facts of the family to a state leaves only facts of the family. -/
theorem of_adds (h : Derived r F s) (hF : F.Closed env.program env.selector entries)
    (hr : r.Reads env s) (hs : s.Scoped) (ha : a.Derived r F) (hadd : s.Adds env.program a t) :
    Derived r F t := by
  refine ⟨?_, ?_, ?_, ?_⟩
  · intro m hm
    rw [hadd.accretes.calls] at hm
    exact h.reached hm
  · intro ptr o ho
    rcases hadd.owes_cases ho with ho | hnew
    · exact h.points ho
    · cases a with
      | points ptr' os =>
          obtain ⟨rfl, ho⟩ := hnew
          exact ha o ho
      | flow e =>
          obtain ⟨rfl, ho, hpasses⟩ := hnew
          exact hF.flow _ ha _ (h.points (.inl ho)) ((hr.passes_iff (hs.obj ho).2).2 hpasses)
      | enter receiver o' e =>
          obtain ⟨rfl, this, hthis, rfl⟩ := hnew
          exact ha.2 this hthis
      | object | context | call | note => exact hnew.elim
  · intro e he
    rcases hadd.flow_cases he with he | rfl
    · exact h.flow he
    · exact ha
  · intro e he
    rcases hadd.announces_cases he with he | hnew
    · exact h.call he
    · cases a with
      | enter receiver o e' =>
          obtain rfl := hnew
          exact ha.1
      | call e' =>
          obtain rfl := hnew
          exact ha
      | object | context | points | flow | note => exact hnew.elim

/-- The rules of the analysis derive facts of the family only. -/
theorem of_evolves (h : Derived r F s) (hF : F.Closed env.program env.selector entries)
    (hb : env.program.Built) (hr : r.Reads env t) (hs : s.Scoped)
    (he : s.Evolves env.program (CoreRule env) t) : Derived r F t := by
  induction he with
  | refl => exact h
  | @tail u v hpre hstep ih =>
      obtain ⟨a, ha, hadd⟩ := hstep
      have hu := hr.of_le hadd.accretes.extends.settled
      have hscoped : u.Scoped :=
        Solver.Evolves.keeps hpre (fun hs hr hadd => hs.of_adds (hr.exists hs) hadd) hs
      have hderived := ih hu
      exact hderived.of_adds hF hu hscoped (hderived.of_coreRule hF hb hu hscoped ha) hadd

/-- The working in of a fact derives facts of the family only. -/
theorem of_take (h : Derived r F s) (hF : F.Closed env.program env.selector entries)
    (hr : r.Reads env s) (hs : s.Scoped) (hq : s.queue = w :: rest) :
    Derived r F (s.take env.program w rest) := by
  refine ⟨?_, ?_, ?_, ?_⟩
  · intro m hm
    rcases Solver.reachableIn_of_take hq hm with hm | ⟨e, he, rfl⟩
    · exact h.reached hm
    · exact hF.callee _ (h.call he)
  · intro ptr o ho
    rcases Solver.owes_of_take hq ho with ho | ⟨f, hf, rfl, ho, hpasses⟩
    · exact h.points ho
    · exact hF.flow _ (h.flow hf) _ (h.points ho) ((hr.passes_iff (hs.owes ho).2.2).2 hpasses)
  · intro e he
    rw [Solver.flow_take] at he
    exact h.flow he
  · exact fun he => h.call (Solver.announces_of_take hq he)

/-- A method of the family may be found to be reachable. -/
theorem of_discover (h : Derived r F s) {m : QMethod} (hm : F.reached (r.under m)) :
    Derived r F { s with calls := s.calls.discover m } := by
  refine ⟨?_, h.points, h.flow, ?_⟩
  · intro m' hm'
    rcases CallGraph.mem_reachableIn_discover.1 hm' with rfl | hm'
    · exact hm
    · exact h.reached hm'
  · rintro e (he | he)
    · exact h.call (.inl (by simpa using he))
    · exact h.call (.inr he)

end Derived

end PointsTo
