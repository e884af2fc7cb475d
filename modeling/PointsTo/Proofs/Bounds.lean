import PointsTo.Proofs.Accounting
import PointsTo.Proofs.Homes
import PointsTo.Proofs.IntermediateStates
import PointsTo.Proofs.Listings
import PointsTo.Proofs.Questions

/-!
# Ids within their tables

Whatever a run mentions by its number is looked up sooner or later: variables, methods and call
sites in the tables of the program, objects and contexts in those of the run.  Since a program that
is built mentions only what is there, and tables never shrink, no number is out of range.

Ids are compared with the sizes of the tables of a later state of the run, so that what is within
them stays within them.

Main results:

- {lit}`Id.Within`: an id is in its table; {lit}`Solver.Within`: so are all ids of a state.
- {lit}`Program.Coherent`, and theorem {lit}`Program.coherent_of_build`: what the tables of a
  program mention is in these tables.
- Theorem {lit}`CoreRule.within`: the rules of the analysis add nothing else.
- Theorem {lit}`Service.upholds_of_within`: that all ids are in their tables is upheld as long as
  plugins ask only for ids that are.
-/

namespace PointsTo

/-! ## Tables -/

namespace Selector

variable {s : Selector} {p : Program} {heap : Heap} {t u : ContextTable} {c : ContextId}

/-- The context for a call is in the table, or the empty one, or that of the site. -/
theorem callContext_origin {site : QSite} {receiver : Option QObj}
    (h : s.callContext p heap t site receiver = .ok (c, u)) :
    u.Has c ∨ c = emptyContext ∨ c = site.context := by
  unfold callContext at h
  split at h
  · cases h
    exact .inr (.inl rfl)
  iterate 3 exact .inl ⟨_, Interned.get?_of_intern h⟩
  iterate 2
    cases h
    exact .inr (.inr rfl)

/-- The heap context of an allocation is in the table, or the empty one. -/
theorem heapContext_origin {m : QMethod} (h : s.heapContext t m = .ok (c, u)) :
    u.Has c ∨ c = emptyContext := by
  unfold heapContext at h
  split at h
  · cases h
    exact .inr rfl
  · exact .inl ⟨_, Interned.get?_of_intern h⟩

end Selector

/-- A pointer that refers to something has an entry. -/
theorem PointsToMap.mem_pointers_of_mem_get {m : PointsToMap} {ptr : Pointer} {o : QObj}
    (h : o ∈ m.get ptr) : ptr ∈ m.pointers := by
  obtain ⟨os, hentry, _⟩ := exists_mem_entries h
  exact List.mem_map_of_mem hentry

/-! ## What is within -/

/-- The sizes of the tables that grow in the course of a run. -/
structure Sizes where
  objects : Nat
  contexts : Nat

/-- The sizes of the tables of a state. -/
def Solver.sizes (s : Solver) : Sizes := ⟨s.heap.size, s.contexts.size⟩

section Within

variable (p : Program) (T : Sizes)

/-- The id is in its table: that of the program, or for objects and contexts that of a run.
A call site is moreover one that a statement names. -/
def Id.Within {e : Entity} (i : Id e) : Prop :=
  match e, i with
  | .var, i => i.index < p.vars.size
  | .method, i => i.index < p.methods.size
  | .invoke, i => i.index < p.invokes.size ∧ p.HasStmt (.invoke i)
  | .field, i => i.index < p.fields.size
  | .cls, i => i.index < p.classes.size
  | .obj, i => i.index < T.objects
  | .context, i => i.index < T.contexts

/-- The id is in its table, and so is the context. -/
def Qualified.Within {e : Entity} (q : Qualified e) : Prop :=
  q.context.Within p T ∧ q.item.Within p T

/-- What the pointer belongs to is in its table. -/
def Pointer.Within : Pointer → Prop
  | .var v => v.Within p T
  | .field o _ | .array o => o.Within p T
  | .static _ => True

/-- Both ends of the edge are within the tables. -/
def FlowEdge.Within (e : FlowEdge) : Prop := e.source.Within p T ∧ e.target.Within p T

/-- What an edge carries is within the tables. -/
def CallKind.Within : CallKind → Prop
  | .lambda call =>
      (∀ v ∈ call.captured, v.Within p T) ∧ call.lambdaContext.Within p T ∧
        ∀ v ∈ call.result, v.Within p T
  | .reflective call => ∀ v ∈ call.args, v.Within p T
  | .static | .virtual | .interface | .special => True

/-- The ends of a call edge are within the tables, and so is what it carries. -/
structure CallEdge.Within (e : CallEdge) : Prop where
  site : e.site.Within p T
  callee : e.callee.Within p T
  kind : e.kind.Within p T

/-- What a stand-in is made for is in its table. -/
def MockSite.Within : MockSite → Prop
  | .invoke i => i.Within p T
  | .method m => m.Within p T
  | .type _ => True

/-- What an object stands for is in its table. -/
def ObjKind.Within : ObjKind → Prop
  | .alloc m _ => m.Within p T
  | .mock _ site => site.Within p T
  | .stringConstant _ | .classConstant _ => True

/-- The method or the call site that an object stands for is within the tables, and so is the
method that contains its allocation. -/
structure Obj.Within (x : Obj) : Prop where
  kind : x.kind.Within p T
  container : ∀ m ∈ x.container, m.Within p T

/-- The variables that a call site mentions are within the tables, and so are the site itself and
the method that contains it. -/
structure Invoke.Within (call : Invoke) : Prop where
  id : call.id.Within p T
  container : call.container.Within p T
  base : ∀ v ∈ call.base, v.Within p T
  args : ∀ v ∈ call.args, v.Within p T
  result : ∀ v ∈ call.result, v.Within p T

/-- A fact that waits is about what is in the tables. -/
def WorkItem.Within : WorkItem → Prop
  | .pointsTo ptr os => ptr.Within p T ∧ ∀ o ∈ os, o.Within p T
  | .call e => e.Within p T

/-- What is added is about what is in the tables. -/
def Addition.Within : Addition → Prop
  | .object x => x.Within p T
  | .points ptr os => ptr.Within p T ∧ ∀ o ∈ os, o.Within p T
  | .flow e => e.Within p T
  | .enter receiver o e =>
      (∀ this ∈ receiver, this.Within p T) ∧ o.Within p T ∧ e.Within p T
  | .call e => e.Within p T
  | .context _ | .note _ => True

end Within

/-- All ids that a state mentions are in the tables of the program and in those of a run. -/
structure Solver.Within (s : Solver) (p : Program) (T : Sizes) : Prop where
  empty : emptyContext.Within p T
  heap : ∀ {i x}, s.heap.get? i = some x → x.Within p T
  keys : ∀ ptr ∈ s.pointsTo.pointers, ptr.Within p T
  objects : ∀ {ptr o}, o ∈ s.pointsTo.get ptr → o.Within p T
  queue : ∀ w ∈ s.queue, w.Within p T
  flow : ∀ e ∈ s.flow.edges, e.Within p T
  edges : ∀ e ∈ s.calls.edges, e.Within p T
  reachable : ∀ m ∈ s.calls.reachable, m.Within p T
  reachableIn : ∀ m ∈ s.calls.reachableIn, m.Within p T

variable {env : Setting} {p : Program} {T : Sizes} {s t u : Solver}

/-- A context that has an id in a state has one within the tables of every later state. -/
theorem Id.within_of_has_context {c : ContextId} (h : s.contexts.Has c) (hu : s.Extends u) :
    c.Within p u.sizes :=
  Interned.has_iff_index_lt.1 (h.of_grows hu.settled.contexts)

/-- So has an object. -/
theorem Id.within_of_get? {i : ObjId} {x : Obj} (h : s.heap.get? i = some x) (hu : s.Extends u) :
    i.Within p u.sizes :=
  Interned.has_iff_index_lt.1 (Interned.Has.of_grows ⟨x, h⟩ hu.settled.heap)

/-- What a stand-in is made for is within the tables. -/
theorem Obj.Within.site {x : Obj} {kind : MockKind} {site : MockSite} (hx : x.Within p T)
    (hk : x.kind = .mock kind site) : site.Within p T := by
  have hkind := hx.kind
  rw [hk] at hkind
  exact hkind

/-! ## States -/

namespace Solver.Within

/-- A state without facts mentions nothing but the empty context. -/
theorem new (hempty : emptyContext.Within p T) : Solver.Within {} p T where
  empty := hempty
  heap := fun h => by simp [Interned.get?, Interned.empty, OrderedSet.get?, OrderedSet.empty] at h
  keys := fun _ h => absurd h List.not_mem_nil
  objects := fun {_ o} h => absurd h (OrderedSet.not_mem_empty o)
  queue := fun _ h => absurd h List.not_mem_nil
  flow := fun e h => absurd h (OrderedSet.not_mem_empty e)
  edges := fun e h => absurd h (OrderedSet.not_mem_empty e)
  reachable := fun m h => absurd h (OrderedSet.not_mem_empty m)
  reachableIn := fun m h => absurd h (OrderedSet.not_mem_empty m)

variable (h : s.Within p T)

include h

/-- A variable that refers to something is within the tables. -/
theorem var {v : QVar} {o : QObj} (ho : o ∈ s.pointsTo.get (.var v)) : v.Within p T :=
  h.keys _ (PointsToMap.mem_pointers_of_mem_get ho)

/-- Also an id outside the heap stands for an object that mentions no other ids. -/
theorem get (i : ObjId) : (s.heap.get i).Within p T := by
  unfold Heap.get
  cases hi : s.heap.get? i with
  | none => exact ⟨trivial, by simp [default]⟩
  | some x => exact h.heap hi

/-- A fact within the tables may wait. -/
theorem enqueue {w : WorkItem} (hw : w.Within p T) : (s.enqueue w).Within p T := by
  refine { h with queue := fun w' hw' => ?_ }
  rcases List.mem_append.1 hw' with hw' | hw'
  · exact h.queue w' hw'
  · rwa [List.mem_singleton.1 hw']

/-- Objects within the tables may be on their way to a pointer within them. -/
theorem addPointsTo {ptr : Pointer} {os : ObjSet} (hptr : ptr.Within p T)
    (hos : ∀ o ∈ os, o.Within p T) : (s.addPointsTo ptr os).Within p T := by
  unfold Solver.addPointsTo
  split
  · exact h
  · exact h.enqueue ⟨hptr, hos⟩

/-- They may be passed on along an edge. -/
theorem forward {os : ObjSet} {e : FlowEdge} (he : e.Within p T) (hos : ∀ o ∈ os, o.Within p T) :
    (s.forward p os e).Within p T :=
  h.addPointsTo he.2 fun o ho => hos o (mem_passing.1 ho).1

/-- A flow edge within the tables may be added. -/
theorem addFlow {e : FlowEdge} (he : e.Within p T) : (s.addFlow p e).Within p T := by
  unfold Solver.addFlow
  split
  · exact h
  · have hadd : Solver.Within { s with flow := s.flow.add e } p T := by
      refine { h with flow := fun f hf => ?_ }
      rcases OrderedSet.mem_insert.1 hf with rfl | hf
      · exact he
      · exact h.flow f hf
    exact hadd.forward he fun o ho => h.objects ho

/-- A method may be found to be reachable under a context. -/
theorem discover {m : QMethod} (hm : m.Within p T) :
    Solver.Within { s with calls := s.calls.discover m } p T := by
  refine { h with
    edges := fun e he => h.edges e (by simpa using he)
    reachable := fun n hn => ?_
    reachableIn := fun n hn => ?_ }
  · rcases CallGraph.mem_reachable_discover hn with rfl | hn
    · exact hm.2
    · exact h.reachable n hn
  · rcases CallGraph.mem_reachableIn_discover.1 hn with rfl | hn
    · exact hm
    · exact h.reachableIn n hn

/-- A pointer within the tables may refer to more. -/
theorem merge {ptr : Pointer} {os : ObjSet} (hptr : ptr.Within p T) (hos : ∀ o ∈ os, o.Within p T) :
    Solver.Within { s with pointsTo := s.pointsTo.merge ptr os } p T := by
  refine { h with keys := fun q hq => ?_, objects := fun {q o} ho => ?_ }
  · rw [PointsToMap.pointers_merge] at hq
    split at hq
    · exact h.keys q hq
    · rcases List.mem_append.1 hq with hq | hq
      · exact h.keys q hq
      · rwa [List.mem_singleton.1 hq]
  · rw [PointsToMap.get_merge] at ho
    split at ho
    · rcases OrderedSet.mem_union.1 ho with ho | ho
      · exact h.objects ho
      · exact hos o ho
    · exact h.objects ho

/-- Objects that reach a pointer are passed on along its edges. -/
theorem propagate {ptr : Pointer} {os : ObjSet} (hptr : ptr.Within p T)
    (hos : ∀ o ∈ os, o.Within p T) : (s.propagate p ptr os).Within p T := by
  unfold Solver.propagate
  refine List.foldlRecOn (motive := fun u => Solver.Within u p T) _ _ (h.merge hptr hos) ?_
  intro u hu e he
  exact hu.forward (h.flow e (FlowGraph.mem_outgoing.1 he).1) fun o ho =>
    hos o (OrderedSet.mem_newIn.1 ho).1

/-- The oldest fact may be taken from the queue and counted. -/
theorem counted {w : WorkItem} {rest : List WorkItem} (hq : s.queue = w :: rest) :
    Solver.Within { s with queue := rest, processed := s.processed + 1 } p T :=
  { h with queue := fun w' hw' => h.queue w' (by rw [hq]; exact List.mem_cons_of_mem _ hw') }

/-- And it may be worked in. -/
theorem take {w : WorkItem} {rest : List WorkItem} (hq : s.queue = w :: rest) :
    (s.take p w rest).Within p T := by
  have hw : w.Within p T := h.queue w (by rw [hq]; exact List.mem_cons_self)
  have hrest := h.counted hq
  unfold Solver.take
  cases w with
  | pointsTo ptr os => exact hrest.propagate hw.1 hw.2
  | call e =>
      dsimp only
      split
      · exact hrest
      · have hadd : Solver.Within { s with
            queue := rest, processed := s.processed + 1, calls := s.calls.addEdge e } p T := by
          refine { hrest with edges := fun e' he' => ?_ }
          rcases OrderedSet.mem_insert.1 he' with rfl | he'
          · exact hw
          · exact h.edges e' he'
        exact hadd.discover hw.callee

/-- An addition of what is within the tables leaves a state within them. -/
theorem of_adds {a : Addition} (ha : a.Within p T) (hadd : s.Adds p a t) : t.Within p T := by
  cases a with
  | object x =>
      obtain ⟨_, _, hintern, rfl⟩ := hadd
      refine { h with heap := fun hi => ?_ }
      rcases Interned.get?_of_intern_cases hintern hi with hi | rfl
      · exact h.heap hi
      · exact ha
  | context c =>
      obtain ⟨_, _, _, rfl⟩ := hadd
      exact { h with }
  | points ptr os =>
      obtain rfl := hadd
      exact h.addPointsTo ha.1 ha.2
  | flow e =>
      obtain rfl := hadd
      exact h.addFlow ha
  | enter receiver o e =>
      obtain rfl := hadd
      obtain ⟨hthis, ho, he⟩ := ha
      cases receiver with
      | none => exact h.enqueue he
      | some this =>
          have hptr : (varPointer e.callee.context this).Within p T :=
            ⟨he.callee.1, hthis this rfl⟩
          refine (h.addPointsTo hptr fun o' ho' => ?_).enqueue he
          rwa [OrderedSet.mem_singleton.1 ho']
  | call e =>
      obtain rfl := hadd
      exact h.enqueue ha
  | note line =>
      obtain rfl := hadd
      exact { h with }

end Solver.Within

/-! ## Programs -/

/-- What the tables of a program mention is in these tables. -/
structure Program.Coherent (p : Program) : Prop where
  built : p.Built
  housed : p.Housed
  listed : p.Listed
  sites : ∀ {i}, p.HasStmt (.invoke i) → i.index < p.invokes.size
  contained : ∀ call ∈ p.invokes, call.container.index < p.methods.size

namespace Program

/-- Programs that are built are like that, as far as statements name existing call sites and these
are in existing methods. -/
theorem coherent_of_build {ds : List Declaration} (hbuild : (Builder.ofList ds).build = .ok p)
    (hsites : ∀ i, p.HasStmt (.invoke i) → i.index < p.invokes.size)
    (hcontained : ∀ call ∈ p.invokes, call.container.index < p.methods.size) : p.Coherent where
  built := built_of_build (Builder.numbered_ofList ds) hbuild
  housed := housed_of_build (Builder.housed_ofList ds) hbuild
  listed := listed_of_build (Builder.listed_ofList ds) hbuild
  sites := hsites _
  contained := hcontained

namespace Coherent

variable (hp : p.Coherent) {i : InvokeId} {m : MethodId} {v : VarId}

include hp

/-- The variables that a statement mentions are in the table of variables. -/
theorem mentioned {stmt : Stmt} (h : p.HasStmt stmt) (hv : v ∈ p.mentioned stmt) :
    v.Within p T :=
  hp.built.mentioned stmt h v hv

/-- So are the parameters of a method. -/
theorem param (hv : v ∈ (p.method m).params) : v.Within p T := hp.housed.index_lt (.inr hv)

/-- So is its receiver. -/
theorem receiver (hv : v ∈ (p.method m).receiver) : v.Within p T := hp.housed.index_lt (.inl hv)

/-- So are the variables that it returns. -/
theorem returned (hv : v ∈ (p.method m).returnVars) : v.Within p T := by
  rw [hp.built.returned] at hv
  obtain ⟨stmt, hstmt, hret⟩ := List.mem_filterMap.1 (OrderedSet.mem_ofList.1 hv)
  refine hp.mentioned ⟨m, hstmt⟩ ?_
  cases stmt <;> cases hret
  exact List.mem_singleton_self v

/-- A call site that a statement names is in the table of call sites. -/
theorem site (h : p.HasStmt (.invoke i)) : i.Within p T := ⟨hp.sites h, h⟩

/-- What a call site of the program mentions is within the tables. -/
theorem call (hi : i.Within p T) : (p.invoke i).Within p T where
  id := by
    have hid : (p.invoke i).id = i := by
      simpa [invoke, hi.1] using hp.built.numbered.invokes _ _ (Array.getElem?_eq_getElem hi.1)
    rwa [hid]
  container := by
    refine hp.contained (p.invoke i) ?_
    simp [invoke, hi.1]
  base := fun v hv => hp.mentioned hi.2 (by simp [Program.mentioned, Option.mem_def.1 hv])
  args := fun v hv => hp.mentioned hi.2 (by simp [Program.mentioned, hv])
  result := fun v hv => hp.mentioned hi.2 (by simp [Program.mentioned, Option.mem_def.1 hv])

/-- A method that a class lists is in the table of methods. -/
theorem method (h : p.Lists m) : m.Within p T := hp.listed.index_lt h

end Coherent

end Program

/-! ## The rules of the analysis -/

section Rules

variable (hp : p.Coherent)

include hp

/-- The edges of an access lead between variables of the program and an object on the heap. -/
theorem within_of_accessEdges {heap : Heap} {v : QVar} {o : QObj} {e : FlowEdge}
    (he : e ∈ accessEdges p heap v o) (hv : v.context.Within p T) (ho : o.Within p T) :
    e.Within p T := by
  cases mem_accessEdges.1 he with
  | load huse => exact ⟨ho, hv, hp.mentioned (hp.built.mem_loads.1 huse) List.mem_cons_self⟩
  | store huse =>
      exact ⟨⟨hv, hp.mentioned (hp.built.mem_stores.1 huse)
        (List.mem_cons_of_mem _ (List.mem_singleton_self _))⟩, ho⟩
  | loadArray huse =>
      exact ⟨ho, hv, hp.mentioned (hp.built.mem_arrayLoads.1 huse) List.mem_cons_self⟩
  | storeArray huse =>
      exact ⟨⟨hv, hp.mentioned (hp.built.mem_arrayStores.1 huse)
        (List.mem_cons_of_mem _ (List.mem_singleton_self _))⟩, ho⟩

/-- Values that a method returns flow to the result of a call. -/
theorem within_of_returnEdges {result : Option VarId} {m : QMethod} {caller : ContextId}
    {f : FlowEdge} (hf : f ∈ returnEdges result (p.method m.item) caller m.context)
    (hcaller : caller.Within p T) (hresult : ∀ v ∈ result, v.Within p T) (hm : m.Within p T) :
    f.Within p T := by
  obtain ⟨r, v, hr, hv, rfl⟩ := mem_returnEdges.1 hf
  exact ⟨⟨hm.1, hp.returned hv⟩, hcaller, hresult r hr⟩

/-- Arguments and results flow between variables of the program. -/
theorem within_of_ordinaryWiring {e : CallEdge} {f : FlowEdge} (hf : f ∈ ordinaryWiring p e)
    (he : e.Within p T) : f.Within p T := by
  rcases List.mem_append.1 hf with hf | hf
  · obtain ⟨_, _, _, hmem, _, rfl⟩ := mem_argumentEdges.1 hf
    obtain ⟨harg, htyped⟩ := List.of_mem_zip hmem
    obtain ⟨hparam, _⟩ := List.of_mem_zip htyped
    exact ⟨⟨he.site.1, (hp.call he.site.2).args _ harg⟩, he.callee.1, hp.param hparam⟩
  · exact within_of_returnEdges hp hf he.site.1 (hp.call he.site.2).result he.callee

omit hp in
/-- The object of a statement stands for its method, if for anything. -/
theorem Stmt.within_of_obj? {m : MethodId} {index : Nat} {stmt : Stmt} {lhs : VarId} {x : Obj}
    {onHeap : Bool} (h : stmt.obj? m index = some (lhs, x, onHeap)) (hm : m.Within p T) :
    x.Within p T := by
  cases stmt with
  | new =>
      cases h
      refine ⟨hm, ?_⟩
      rintro _ ⟨⟩
      exact hm
  | literal lhs' value =>
      cases value <;> cases h <;>
        exact ⟨trivial, by simp [Obj.stringConstant, Obj.classConstant]⟩
  | _ => cases h

/-- The edge of a statement is about the variables that the statement mentions. -/
theorem Stmt.within_of_flow? {c : ContextId} {stmt : Stmt} {e : FlowEdge}
    (h : stmt.flow? c = some e) (hstmt : p.HasStmt stmt) (hc : c.Within p T) : e.Within p T := by
  have hmentioned : ∀ v ∈ p.mentioned stmt, (varPointer c v).Within p T :=
    fun v hv => ⟨hc, hp.mentioned hstmt hv⟩
  cases stmt with
  | copy | cast =>
      cases h
      exact ⟨hmentioned _ (by simp [Program.mentioned]), hmentioned _ (by simp [Program.mentioned])⟩
  | loadStatic =>
      cases h
      exact ⟨trivial, hmentioned _ (by simp [Program.mentioned])⟩
  | storeStatic =>
      cases h
      exact ⟨hmentioned _ (by simp [Program.mentioned]), trivial⟩
  | _ => cases h

end Rules

section Contexts

variable {sel : Selector} {heap : Heap} {table : ContextTable} {c : ContextId}

/-- A context that was chosen is in the table. -/
theorem within_of_callContext {site : QSite} {receiver : Option QObj}
    (h : sel.callContext p heap table site receiver = .ok (c, s.contexts)) (hu : s.Extends u)
    (hempty : emptyContext.Within p u.sizes) (hsite : site.context.Within p u.sizes) :
    c.Within p u.sizes := by
  rcases Selector.callContext_origin h with h | rfl | rfl
  · exact Id.within_of_has_context h hu
  · exact hempty
  · exact hsite

/-- The heap context that was chosen is in the table. -/
theorem within_of_heapContext {m : QMethod}
    (h : sel.heapContext table m = .ok (c, s.contexts)) (hu : s.Extends u)
    (hempty : emptyContext.Within p u.sizes) : c.Within p u.sizes := by
  rcases Selector.heapContext_origin h with h | rfl
  · exact Id.within_of_has_context h hu
  · exact hempty

end Contexts

/-- An ordinary call edge carries nothing. -/
theorem CallKind.within_of_ofInvoke? {i : InvokeKind} {kind : CallKind}
    (h : CallKind.ofInvoke? i = some kind) : kind.Within p T := by
  cases i <;> cases h <;> trivial

/-- The rules of the analysis add only what is within the tables. -/
theorem CoreRule.within {a : Addition} (h : CoreRule env s a) (hp : env.program.Coherent)
    (hs : s.Within env.program u.sizes) (hu : s.Extends u) : a.Within env.program u.sizes := by
  cases h with
  | heapContext | staticContext | callContext => trivial
  | object hx ho => exact Stmt.within_of_obj? ho (hs.reachableIn _ hx.reachable).2
  | @assign m index stmt lhs o onHeap i c hx ho hi hc =>
      have hm := hs.reachableIn _ hx.reachable
      refine ⟨⟨hm.1, hp.mentioned hx.hasStmt (Stmt.lhs_mem_mentioned ho)⟩, fun o' ho' => ?_⟩
      obtain rfl := OrderedSet.mem_singleton.1 ho'
      refine ⟨?_, Id.within_of_get? hi hu⟩
      unfold View.Houses at hc
      split at hc
      · exact within_of_heapContext hc hu hs.empty
      · rw [hc]
        exact hs.empty
  | flow hx he => exact Stmt.within_of_flow? hp he hx.hasStmt (hs.reachableIn _ hx.reachable).1
  | static hx ht hc =>
      have hm := hs.reachableIn _ hx.reachable
      exact ⟨⟨hm.1, hp.site hx.hasStmt⟩, ⟨within_of_callContext hc hu hs.empty hm.1,
        hp.method (Program.lists_of_staticTarget? ht)⟩, trivial⟩
  | access ho he => exact within_of_accessEdges hp he (hs.var ho).1 (hs.objects ho)
  | enter hd hc =>
      have hv := hs.var hd.points
      exact ⟨fun this hthis => hp.receiver hthis, hs.objects hd.points,
        ⟨hv.1, hp.site (hp.built.mem_invokes.1 hd.use).1⟩,
        ⟨within_of_callContext hc hu hs.empty hv.1,
          hp.method (Program.lists_of_receiverTarget? hd.target)⟩,
        CallKind.within_of_ofInvoke? hd.kind⟩
  | wiring he _ hf => exact within_of_ordinaryWiring hp hf (hs.edges _ he)

/-! ## Conversations -/

/-- What is asked for mentions only ids that are in their tables. -/
def Request.Within (p : Program) (T : Sizes) : Request → Prop
  | .mock x => x.obj.Within p T
  | .callContext site receiver => site.Within p T ∧ ∀ o ∈ receiver, o.Within p T
  | .heapContext m => m.Within p T
  | .obj i => i.Within p T
  | .pointsTo ptr => ptr.Within p T
  | .addPointsTo ptr os => ptr.Within p T ∧ ∀ o ∈ os, o.Within p T
  | .addFlow e => e.Within p T
  | .addCall e => e.Within p T
  | .note _ => True

/-- And so does an answer. -/
def Request.Yields (p : Program) (T : Sizes) : (r : Request) → r.Answer → Prop
  | .mock _, i => i.Within p T
  | .callContext .., c | .heapContext _, c => c.Within p T
  | .obj _, x => x.Within p T
  | .pointsTo _, os => ∀ o ∈ os, o.Within p T
  | .addPointsTo .., _ | .addFlow _, _ | .addCall _, _ | .note _, _ => True

/-- A conversation mentions only ids that are in their tables. -/
abbrev Service.Within (p : Program) (T : Sizes) {α : Type} (Q : α → Prop) : Service α → Prop :=
  Service.Asks (Request.Within p T) (Request.Yields p T) Q

/-- An answer to what is within the tables keeps the state within them, and is within them itself.
-/
theorem Request.Within.answer_ok {r : Request} {answer : r.Answer}
    (hr : r.Within env.program u.sizes) (hs : s.Within env.program u.sizes)
    (h : r.answer env s = .ok answer t) (hu : t.Extends u) :
    t.Within env.program u.sizes ∧ r.Yields env.program u.sizes answer := by
  cases r with
  | mock x =>
      obtain ⟨hadd, hget⟩ := SolverM.internObj_ok env h
      exact ⟨hs.of_adds (a := .object x.obj) hr hadd, Id.within_of_get? (p := env.program) hget hu⟩
  | callContext site receiver =>
      obtain ⟨contexts, rfl, hc⟩ := SolverM.callContext_ok h
      exact ⟨{ hs with }, within_of_callContext (s := { s with contexts }) hc hu hs.empty hr.1.1⟩
  | heapContext m =>
      obtain ⟨contexts, rfl, hc⟩ := SolverM.heapContext_ok h
      exact ⟨{ hs with }, within_of_heapContext (s := { s with contexts }) hc hu hs.empty⟩
  | obj i =>
      simp only [Request.answer, bind_eq_ok, get_eq_ok, pure_eq_ok] at h
      obtain ⟨_, _, ⟨rfl, rfl⟩, rfl, rfl⟩ := h
      exact ⟨hs, hs.get i⟩
  | pointsTo ptr =>
      simp only [Request.answer, bind_eq_ok, get_eq_ok, pure_eq_ok] at h
      obtain ⟨_, _, ⟨rfl, rfl⟩, rfl, rfl⟩ := h
      exact ⟨hs, fun o ho => hs.objects ho⟩
  | addPointsTo ptr os =>
      obtain rfl := modify_eq_ok.1 h
      exact ⟨hs.addPointsTo hr.1 hr.2, trivial⟩
  | addFlow e =>
      obtain rfl := modify_eq_ok.1 h
      exact ⟨hs.addFlow hr, trivial⟩
  | addCall e =>
      obtain rfl := modify_eq_ok.1 h
      exact ⟨hs.enqueue hr, trivial⟩
  | note line =>
      obtain rfl := modify_eq_ok.1 h
      exact ⟨{ hs with }, trivial⟩

/-! ## Events -/

/-- What plugins are told of mentions only ids that are in their tables. -/
def Event.Within (p : Program) (T : Sizes) : Event → Prop
  | .method m => m.Within p T
  | .methodIn m => m.Within p T
  | .unresolved o c site => o.Within p T ∧ c.Within p T ∧ site.Within p T
  | .edge e => e.Within p T
  | .grown v delta => v.Within p T ∧ ∀ o ∈ delta, o.Within p T
  | .start | .finish => True

/-- What is told of a state that is within the tables is so, too. -/
theorem Event.Holds.within {e : Event} (h : e.Holds env s) (hp : env.program.Coherent)
    (hs : s.Within env.program T) : e.Within env.program T := by
  cases e with
  | start | finish => trivial
  | method m => exact hs.reachable m h
  | methodIn m => exact hs.reachableIn m h.1
  | unresolved o c site =>
      obtain ⟨⟨v, rfl, ho, huse⟩, _⟩ := h
      exact ⟨hs.objects ho, (hs.var ho).1, hp.site (hp.built.mem_invokes.1 huse).1⟩
  | edge e => exact hs.edges e h
  | grown v delta =>
      obtain ⟨_, hdelta, o, ho⟩ := h
      exact ⟨hs.var (hdelta o ho), fun o ho => hs.objects (hdelta o ho)⟩

/-- Plugins that mention only ids that are in their tables uphold that a state does. -/
theorem Service.upholds_of_within {σ : Type} {P : Plugin σ} {entries : List MethodId}
    {K : σ → Prop} (hp : env.program.Coherent)
    (hentries : ∀ i ∈ entries, i.index < env.program.methods.size)
    (hP : ∀ {e x}, emptyContext.Within env.program u.sizes → e.Within env.program u.sizes → K x →
      (P.react env e x).Within env.program u.sizes K) :
    P.Upholds env entries u (fun s => s.Within env.program u.sizes) K
      (Request.Within env.program u.sizes) (Request.Yields env.program u.sizes) where
  enter := fun hs hi => hs.discover ⟨hs.empty, hentries _ hi⟩
  take := fun hs hq => hs.take hq
  rule := fun hs hr hadd hu => hs.of_adds (hr.within hp hs (hadd.accretes.extends.trans hu)) hadd
  react := fun hs _ he hx => hP hs.empty (he.within hp hs) hx
  answer := fun hs hr h hu => hr.answer_ok hs h hu

end PointsTo
