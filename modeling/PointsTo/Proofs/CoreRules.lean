import PointsTo.Proofs.Indexes
import PointsTo.Proofs.Requests

/-!
# What the rules of the analysis add

The rules for statements, for accesses through variables, for calls on objects and
for call edges, as a list of additions with their premises, and the proof that the
executable rules do exactly this: they add nothing else, and afterwards the effect
that a rule asks for is there.

Main results:

- {lit}`CoreRule`: which additions the rules allow, and when.
- Theorems {lit}`executeBody_ok`, {lit}`evolves_dispatch`: nothing else is added.
- Theorems {lit}`effect_of_executeBody`, {lit}`called_of_dispatch`: nothing is missing.
-/

namespace PointsTo

/-! ## Statements that make objects or flow -/

/-- The object that statement number {lit}`index` of a method assigns to a variable,
and whether it lies on the heap. -/
def Stmt.obj? (method : MethodId) (index : Nat) : Stmt → Option (VarId × Obj × Bool)
  | .new lhs type => some (lhs, .alloc method index type, true)
  | .literal lhs (.str value) => some (lhs, .stringConstant value, false)
  | .literal lhs (.cls type) => some (lhs, .classConstant type, false)
  | _ => none

/-- The variable that a statement assigns an object to is mentioned by it. -/
theorem Stmt.lhs_mem_mentioned {p : Program} {method : MethodId} {index : Nat} {stmt : Stmt}
    {lhs : VarId} {o : Obj} {onHeap : Bool} (h : stmt.obj? method index = some (lhs, o, onHeap)) :
    lhs ∈ p.mentioned stmt := by
  cases stmt with
  | new =>
      cases h
      exact List.mem_singleton_self _
  | literal lhs' value => cases value <;> cases h <;> exact List.mem_singleton_self _
  | copy | cast | loadField | storeField | loadStatic | storeStatic | loadArray | storeArray
    | invoke | ret => cases h

/-- The flow edge that a statement adds by itself. -/
def Stmt.flow? (context : ContextId) : Stmt → Option FlowEdge
  | .copy lhs rhs => some (assignEdge context .localAssign none rhs lhs)
  | .cast lhs rhs type => some (assignEdge context .cast type.reference? rhs lhs)
  | .loadStatic lhs f => some ⟨.static f, varPointer context lhs, .staticLoad, none⟩
  | .storeStatic f rhs => some ⟨varPointer context rhs, .static f, .staticStore, none⟩
  | _ => none

/-- The heap context of an object that a method assigns: objects that lie nowhere on
the heap have the empty one. -/
def View.Houses (env : Setting) (k : View) (m : QMethod) (onHeap : Bool) (c : ContextId) : Prop :=
  if onHeap = true then k.SelectsHeap env m c else c = emptyContext

/-- Statement number {lit}`index` of a method that is reachable under its context. -/
structure Executed (p : Program) (s : Solver) (m : QMethod) (index : Nat) (stmt : Stmt) :
    Prop where
  reachable : m ∈ s.calls.reachableIn
  stmt : (p.method m.item).stmts[index]? = some stmt

/-- A call site with a base variable that refers to an object, and the method that
the call runs on it. -/
structure Dispatched (p : Program) (s : Solver) (v : QVar) (o : QObj) (site : InvokeId)
    (callee : MethodId) (kind : CallKind) : Prop where
  points : o ∈ s.pointsTo.get (.var v)
  use : site ∈ (p.var v.item).uses.invokes
  target : receiverTarget? p s.heap (p.invoke site) o = some callee
  kind : CallKind.ofInvoke? (p.invoke site).kind = some kind

/-! ## The rules -/

/-- The additions that the rules of the analysis allow in a state. -/
inductive CoreRule (env : Setting) (s : Solver) : Addition → Prop
  | object {m index stmt lhs o onHeap} (hx : Executed env.program s m index stmt)
      (ho : stmt.obj? m.item index = some (lhs, o, onHeap)) : CoreRule env s (.object o)
  | heapContext {m index stmt lhs o w} (hx : Executed env.program s m index stmt)
      (ho : stmt.obj? m.item index = some (lhs, o, true))
      (hw : env.selector.wantedHeap? s.contexts m = some w) : CoreRule env s (.context w)
  | assign {m index stmt lhs o onHeap i c} (hx : Executed env.program s m index stmt)
      (ho : stmt.obj? m.item index = some (lhs, o, onHeap)) (hi : s.heap.get? i = some o)
      (hc : s.settled.Houses env m onHeap c) :
      CoreRule env s (.points (varPointer m.context lhs) (.singleton ⟨c, i⟩))
  | flow {m index stmt e} (hx : Executed env.program s m index stmt)
      (he : stmt.flow? m.context = some e) : CoreRule env s (.flow e)
  | staticContext {m index site callee w} (hx : Executed env.program s m index (.invoke site))
      (ht : staticTarget? env.program (env.program.invoke site) = some callee)
      (hw : env.selector.wanted? env.program s.heap s.contexts ⟨m.context, site⟩ none = some w) :
      CoreRule env s (.context w)
  | static {m index site callee c} (hx : Executed env.program s m index (.invoke site))
      (ht : staticTarget? env.program (env.program.invoke site) = some callee)
      (hc : s.settled.Selects env ⟨m.context, site⟩ none c) :
      CoreRule env s (.call ⟨⟨m.context, site⟩, ⟨c, callee⟩, .static⟩)
  | access {v o e} (ho : o ∈ s.pointsTo.get (.var v))
      (he : e ∈ accessEdges env.program s.heap v o) : CoreRule env s (.flow e)
  | callContext {v o site callee kind w} (hd : Dispatched env.program s v o site callee kind)
      (hw : env.selector.wanted? env.program s.heap s.contexts ⟨v.context, site⟩ (some o) =
        some w) : CoreRule env s (.context w)
  | enter {v o site callee kind c} (hd : Dispatched env.program s v o site callee kind)
      (hc : s.settled.Selects env ⟨v.context, site⟩ (some o) c) :
      CoreRule env s
        (.enter (env.program.method callee).receiver o ⟨⟨v.context, site⟩, ⟨c, callee⟩, kind⟩)
  | wiring {e f} (he : e ∈ s.calls.edges) (hk : e.kind.isOrdinary = true)
      (hf : f ∈ ordinaryWiring env.program e) : CoreRule env s (.flow f)

namespace Executed

variable {p : Program} {s t : Solver} {m : QMethod} {index : Nat} {stmt : Stmt}

theorem mono (h : Executed p s m index stmt) (hst : s.Accretes t) :
    Executed p t m index stmt :=
  ⟨by simpa only [hst.calls] using h.reachable, h.stmt⟩

theorem hasStmt (h : Executed p s m index stmt) : p.HasStmt stmt :=
  ⟨m.item, List.mem_of_getElem? h.stmt⟩

end Executed

namespace Dispatched

variable {p : Program} {s t : Solver} {v : QVar} {o : QObj} {site : InvokeId}
  {callee : MethodId} {kind : CallKind}

theorem mono (h : Dispatched p s v o site callee kind) (ho : s.heap.Has o.item)
    (hst : s.Accretes t) : Dispatched p t v o site callee kind where
  points := by simpa only [hst.pointsTo] using h.points
  use := h.use
  target := by rw [View.receiverTarget?_of_grows _ ho hst.heap, h.target]
  kind := h.kind

end Dispatched

/-- A position that could be given is the number of entries. -/
theorem nextIndex_eq_ok {n i : Nat} {what : String} (h : nextIndex n what = .ok i) : i = n := by
  unfold nextIndex at h
  split at h
  · cases h
    rfl
  · cases h

namespace SolverM

variable {env : Setting} {s t : Solver}

/-! ## Statements -/

/-- The steps of an assignment of an object: the object, its heap context, the fact. -/
theorem assignObj_ok {m : QMethod} {lhs : VarId} {o : Obj} {onHeap : Bool}
    (h : assignObj env m lhs o onHeap s = .ok ⟨⟩ t) :
    ∃ i u c v, internObj o s = .ok i u ∧
      (if onHeap then SolverM.heapContext env m else pure emptyContext) u = .ok c v ∧
      t = v.addObj (varPointer m.context lhs) ⟨c, i⟩ := by
  cases onHeap with
  | false =>
      simp only [assignObj, bind_eq_ok, modify_eq_ok, Bool.false_eq_true, if_false] at h
      obtain ⟨i, u, hi, c, v, hc, rfl⟩ := h
      exact ⟨i, u, c, v, hi, hc, rfl⟩
  | true =>
      simp only [assignObj, bind_eq_ok, modify_eq_ok, if_true] at h
      obtain ⟨i, u, hi, c, v, hc, rfl⟩ := h
      exact ⟨i, u, c, v, hi, hc, rfl⟩

/-- The heap context of an assigned object is the one that houses it, and finding it
is at most one addition. -/
theorem houses_of_heapContext (rules : Solver → Addition → Prop) {m : QMethod} {onHeap : Bool}
    {c : ContextId}
    (h : (if onHeap then SolverM.heapContext env m else pure emptyContext) s = .ok c t)
    (hm : s.contexts.Has m.context)
    (hr : onHeap = true → ∀ w, env.selector.wantedHeap? s.contexts m = some w →
      rules s (.context w)) :
    s.Evolves env.program rules t ∧ t.settled.Houses env m onHeap c := by
  cases onHeap with
  | false =>
      obtain ⟨rfl, rfl⟩ := pure_eq_ok.1 h
      exact ⟨.refl _, rfl⟩
  | true => exact ⟨evolves_heapContext h (hr rfl), selects_of_heapContext h hm⟩

/-- An assignment of an object adds what the rules allow. -/
theorem evolves_assignObj {m : QMethod} {index : Nat} {stmt : Stmt} {lhs : VarId} {o : Obj}
    {onHeap : Bool} (h : assignObj env m lhs o onHeap s = .ok ⟨⟩ t)
    (hx : Executed env.program s m index stmt)
    (ho : stmt.obj? m.item index = some (lhs, o, onHeap)) (hm : s.contexts.Has m.context) :
    s.Evolves env.program (CoreRule env) t := by
  obtain ⟨i, u, c, v, hi, hc, rfl⟩ := assignObj_ok h
  obtain ⟨hadd, hget⟩ := internObj_ok env hi
  have hsu : s.Evolves env.program (CoreRule env) u := hadd.evolves (.object hx ho)
  have hxu := hx.mono hsu.accretes
  obtain ⟨huv, hhouse⟩ := houses_of_heapContext (CoreRule env) hc
    (hm.of_grows hsu.accretes.contexts) (by
      rintro rfl w hw
      exact .heapContext hxu ho hw)
  have hxv := hxu.mono huv.accretes
  have hadd' : v.Adds env.program (.points (varPointer m.context lhs) (.singleton ⟨c, i⟩))
      (v.addObj (varPointer m.context lhs) ⟨c, i⟩) := rfl
  exact (hsu.trans huv).trans
    (hadd'.evolves (.assign hxv ho (huv.accretes.heap _ _ hget) hhouse))

/-- After an assignment of an object the variable is about to refer to it. -/
theorem effect_of_assignObj {m : QMethod} {lhs : VarId} {o : Obj} {onHeap : Bool}
    (h : assignObj env m lhs o onHeap s = .ok ⟨⟩ t) (hm : s.contexts.Has m.context) :
    ∃ c i, t.expected.Houses env m onHeap c ∧ t.heap.get? i = some o ∧
      t.Owes (varPointer m.context lhs) ⟨c, i⟩ := by
  obtain ⟨i, u, c, v, hi, hc, rfl⟩ := assignObj_ok h
  obtain ⟨hadd, hget⟩ := internObj_ok env hi
  obtain ⟨huv, hhouse⟩ := houses_of_heapContext anything hc
    (hm.of_grows hadd.accretes.contexts) (fun _ _ _ => trivial)
  have hvt := Solver.accretes_addObj v (varPointer m.context lhs) ⟨c, i⟩
  have hmv : v.contexts.Has m.context :=
    (hm.of_grows hadd.accretes.contexts).of_grows huv.accretes.contexts
  refine ⟨c, i, ?_, hvt.heap _ _ (huv.accretes.heap _ _ hget), Solver.owes_addObj _ _ _⟩
  unfold View.Houses at hhouse ⊢
  split at hhouse
  · rename_i htrue
    rw [if_pos htrue]
    exact hhouse.mono hmv ((Solver.settled_le_expected v).trans hvt.extends.expected)
  · rename_i hfalse
    rw [if_neg hfalse]
    exact hhouse

/-- A static call adds what the rules allow. -/
theorem evolves_callStatic {m : QMethod} {index : Nat} {site : InvokeId}
    (h : callStatic env ⟨m.context, site⟩ s = .ok ⟨⟩ t)
    (hx : Executed env.program s m index (.invoke site)) (hm : s.contexts.Has m.context) :
    s.Evolves env.program (CoreRule env) t := by
  cases hcallee : staticTarget? env.program (env.program.invoke site) with
  | none =>
      simp only [callStatic, hcallee, pure_eq_ok] at h
      obtain ⟨_, rfl⟩ := h
      exact .refl _
  | some callee =>
      simp only [callStatic, hcallee, bind_eq_ok, modify_eq_ok] at h
      obtain ⟨c, u, hc, rfl⟩ := h
      have hsu : s.Evolves env.program (CoreRule env) u :=
        evolves_callContext hc fun w hw => .staticContext hx hcallee hw
      have hsel := selects_of_callContext hc hm (fun o ho => absurd ho (by simp))
      have hadd : u.Adds env.program (.call ⟨⟨m.context, site⟩, ⟨c, callee⟩, .static⟩)
        (u.addCall _) := rfl
      exact hsu.trans (hadd.evolves (.static (hx.mono hsu.accretes) hcallee hsel))

/-- After a static call its edge is announced. -/
theorem effect_of_callStatic {m : QMethod} {index : Nat} {site : InvokeId}
    (h : callStatic env ⟨m.context, site⟩ s = .ok ⟨⟩ t) (hm : s.contexts.Has m.context) :
    t.expected.Effect env m index (.invoke site) := by
  intro callee hcallee
  simp only [callStatic, hcallee, bind_eq_ok, modify_eq_ok] at h
  obtain ⟨c, u, hc, rfl⟩ := h
  have hsel := selects_of_callContext hc hm (fun o ho => absurd ho (by simp))
  have hsu := accretes_callContext hc
  have hut := Solver.accretes_addCall u ⟨⟨m.context, site⟩, ⟨c, callee⟩, .static⟩
  refine ⟨c, ?_, Solver.announces_addCall _ _⟩
  exact hsel.mono (hm.of_grows hsu.contexts) (fun o ho => absurd ho (by simp))
    ((Solver.settled_le_expected u).trans hut.extends.expected)

/-- A statement of a reachable method adds what the rules allow. -/
theorem evolves_execute {m : QMethod} {index : Nat} {stmt : Stmt}
    (h : execute env m index stmt s = .ok ⟨⟩ t) (hx : Executed env.program s m index stmt)
    (hm : s.contexts.Has m.context) : s.Evolves env.program (CoreRule env) t := by
  have hflow : ∀ {e}, stmt.flow? m.context = some e → t = s.addFlow env.program e →
      s.Evolves env.program (CoreRule env) t := by
    intro e he ht
    exact Solver.Adds.evolves (a := .flow e) ht (.flow hx he)
  cases stmt with
  | new lhs type =>
      simp only [execute, bind_eq_ok, ofExcept_eq_ok] at h
      obtain ⟨i, _, ⟨hi, rfl⟩, h⟩ := h
      obtain rfl := nextIndex_eq_ok hi
      exact evolves_assignObj h hx rfl hm
  | literal lhs value =>
      cases value with
      | str value => exact evolves_assignObj h hx rfl hm
      | cls type => exact evolves_assignObj h hx rfl hm
      | null =>
          obtain ⟨_, rfl⟩ := pure_eq_ok.1 h
          exact .refl _
  | invoke site => exact evolves_callStatic h hx hm
  | copy | cast | loadStatic | storeStatic => exact hflow rfl (modify_eq_ok.1 h)
  | loadField | storeField | loadArray | storeArray | ret =>
      obtain ⟨_, rfl⟩ := pure_eq_ok.1 h
      exact .refl _

/-- After a statement its effect is there or on its way. -/
theorem effect_of_execute {m : QMethod} {index : Nat} {stmt : Stmt}
    (h : execute env m index stmt s = .ok ⟨⟩ t) (hm : s.contexts.Has m.context) :
    t.expected.Effect env m index stmt := by
  have hflow : ∀ {e}, t = s.addFlow env.program e → e ∈ t.flow.edges := by
    rintro e rfl
    exact Solver.mem_flow_addFlow s env.program e
  cases stmt with
  | new lhs type =>
      simp only [execute, bind_eq_ok, ofExcept_eq_ok] at h
      obtain ⟨i, _, ⟨hi, rfl⟩, h⟩ := h
      obtain rfl := nextIndex_eq_ok hi
      obtain ⟨c, o, hc, ho, hp⟩ := effect_of_assignObj h hm
      exact ⟨c, o, hc, ho, hp⟩
  | literal lhs value =>
      cases value with
      | str value =>
          obtain ⟨c, o, hc, ho, hp⟩ := effect_of_assignObj h hm
          obtain rfl : c = emptyContext := hc
          exact ⟨o, ho, hp⟩
      | cls type =>
          obtain ⟨c, o, hc, ho, hp⟩ := effect_of_assignObj h hm
          obtain rfl : c = emptyContext := hc
          exact ⟨o, ho, hp⟩
      | null => trivial
  | invoke site => exact effect_of_callStatic h hm
  | copy | cast | loadStatic | storeStatic => exact hflow (modify_eq_ok.1 h)
  | loadField | storeField | loadArray | storeArray | ret => trivial

/-- The body of a reachable method adds what the rules allow, and every statement of
it is executed on the way. -/
theorem executeBody_ok {m : QMethod} (h : executeBody env m s = .ok ⟨⟩ t)
    (hreach : m ∈ s.calls.reachableIn) (hm : s.contexts.Has m.context) :
    s.Evolves env.program (CoreRule env) t ∧
      ∀ a ∈ (env.program.method m.item).stmts.zipIdx, ∃ u v,
        s.Evolves env.program (CoreRule env) u ∧ execute env m a.2 a.1 u = .ok ⟨⟩ v ∧
        v.Evolves env.program (CoreRule env) t := by
  refine forM_rel (R := Solver.Evolves env.program (CoreRule env)) .refl .trans h ?_
  intro a ha u v hsu hex
  have hx : Executed env.program s m a.2 a.1 := ⟨hreach, List.mem_zipIdx_iff_getElem?.1 ha⟩
  exact evolves_execute hex (hx.mono hsu.accretes) (hm.of_grows hsu.accretes.contexts)

/-- After the body of a method was executed, the effects of all its statements are
there or on their way. -/
theorem effect_of_executeBody {m : QMethod} (h : executeBody env m s = .ok ⟨⟩ t)
    (hreach : m ∈ s.calls.reachableIn) (hm : s.contexts.Has m.context) {index : Nat}
    {stmt : Stmt} (hstmt : (env.program.method m.item).stmts[index]? = some stmt) :
    t.expected.Effect env m index stmt := by
  obtain ⟨u, v, hsu, hex, hvt⟩ :=
    (executeBody_ok h hreach hm).2 (stmt, index) (List.mem_zipIdx_iff_getElem?.2 hstmt)
  have hmu := hm.of_grows hsu.accretes.contexts
  have hx : Executed env.program s m index stmt := ⟨hreach, hstmt⟩
  have huv := evolves_execute hex (hx.mono hsu.accretes) hmu
  exact (effect_of_execute hex hmu).mono (hmu.of_grows huv.accretes.contexts) hvt.extends.expected

/-! ## Calls on objects -/

/-- A call on an object asks for a context and enters the method. -/
theorem callOn_ok {site : QSite} {o : QObj} {callee : MethodId} {kind : CallKind}
    (h : callOn env site o callee kind s = .ok ⟨⟩ t) :
    ∃ c u, callContext env site (some o) s = .ok c u ∧
      t = u.enterOn (env.program.method callee).receiver o ⟨site, ⟨c, callee⟩, kind⟩ := by
  cases hthis : (env.program.method callee).receiver with
  | none =>
      simp only [callOn, hthis, bind_eq_ok, modify_eq_ok] at h
      obtain ⟨c, u, hc, rfl⟩ := h
      exact ⟨c, u, hc, rfl⟩
  | some this =>
      simp only [callOn, hthis, bind_eq_ok, modify_eq_ok] at h
      obtain ⟨c, u, hc, _, _, rfl, rfl⟩ := h
      exact ⟨c, u, hc, rfl⟩

/-- A call site is resolved on an object exactly if there is a method to run; then the
method is called on the object, and else nothing happens. -/
theorem dispatch_ok {context : ContextId} {site : InvokeId} {o : QObj} {resolved : Bool}
    (h : dispatch env context site o s = .ok resolved t) :
    (∃ callee kind, resolved = true ∧
        receiverTarget? env.program s.heap (env.program.invoke site) o = some callee ∧
        CallKind.ofInvoke? (env.program.invoke site).kind = some kind ∧
        callOn env ⟨context, site⟩ o callee kind s = .ok ⟨⟩ t) ∨
      resolved = false ∧ t = s ∧ ∀ callee kind,
        receiverTarget? env.program s.heap (env.program.invoke site) o = some callee →
          CallKind.ofInvoke? (env.program.invoke site).kind ≠ some kind := by
  simp only [dispatch, bind_eq_ok, get_eq_ok] at h
  obtain ⟨_, _, ⟨rfl, rfl⟩, h⟩ := h
  cases hcallee : receiverTarget? env.program s.heap (env.program.invoke site) o with
  | none =>
      simp only [hcallee, pure_eq_ok] at h
      obtain ⟨rfl, rfl⟩ := h
      exact .inr ⟨rfl, rfl, by simp⟩
  | some callee =>
      cases hkind : CallKind.ofInvoke? (env.program.invoke site).kind with
      | none =>
          simp only [hcallee, hkind, pure_eq_ok] at h
          obtain ⟨rfl, rfl⟩ := h
          exact .inr ⟨rfl, rfl, by simp⟩
      | some kind =>
          simp only [hcallee, hkind, bind_eq_ok, pure_eq_ok] at h
          obtain ⟨_, _, hcall, rfl, rfl⟩ := h
          exact .inl ⟨callee, kind, rfl, rfl, rfl, hcall⟩

/-- A call site with a variable that refers to an object adds what the rules allow. -/
theorem evolves_dispatch {v : QVar} {site : InvokeId} {o : QObj} {resolved : Bool}
    (h : dispatch env v.context site o s = .ok resolved t)
    (hpoints : o ∈ s.pointsTo.get (.var v)) (huse : site ∈ (env.program.var v.item).uses.invokes)
    (hv : s.contexts.Has v.context) (ho : s.settled.HasObj o) :
    s.Evolves env.program (CoreRule env) t := by
  rcases dispatch_ok h with ⟨callee, kind, _, hcallee, hkind, hcall⟩ | ⟨_, rfl, _⟩
  · obtain ⟨c, u, hc, rfl⟩ := callOn_ok hcall
    have hd : Dispatched env.program s v o site callee kind := ⟨hpoints, huse, hcallee, hkind⟩
    have hsu : s.Evolves env.program (CoreRule env) u :=
      evolves_callContext hc fun w hw => .callContext hd hw
    have hsel : u.settled.Selects env ⟨v.context, site⟩ (some o) c := by
      refine selects_of_callContext hc hv ?_
      rintro _ ⟨⟩
      exact ho
    have hadd : u.Adds env.program (.enter (env.program.method callee).receiver o _)
      (u.enterOn (env.program.method callee).receiver o ⟨⟨v.context, site⟩, ⟨c, callee⟩, kind⟩) :=
      rfl
    exact hsu.trans (hadd.evolves (.enter (hd.mono ho.2 hsu.accretes) hsel))
  · exact .refl _

/-- After dispatch the call on the object is there or on its way. -/
theorem called_of_dispatch {context : ContextId} {site : InvokeId} {o : QObj} {resolved : Bool}
    (h : dispatch env context site o s = .ok resolved t) (hv : s.contexts.Has context)
    (ho : s.settled.HasObj o) : t.expected.Called env context site o := by
  have hreceiver : ∀ o' ∈ some o, s.settled.HasObj o' := by
    rintro _ ⟨⟩
    exact ho
  rcases dispatch_ok h with ⟨callee, kind, _, hcallee, hkind, hcall⟩ | ⟨_, rfl, hnone⟩
  · obtain ⟨c, u, hc, rfl⟩ := callOn_ok hcall
    have hsu := accretes_callContext hc
    have hut := Solver.accretes_enterOn u (env.program.method callee).receiver o
      ⟨⟨context, site⟩, ⟨c, callee⟩, kind⟩
    have hsel := (selects_of_callContext hc hv hreceiver).mono (hv.of_grows hsu.contexts)
      (fun o' ho' => (hreceiver o' ho').mono hsu.extends.settled)
      ((Solver.settled_le_expected u).trans hut.extends.expected)
    intro callee' kind' hcallee' hkind'
    rw [View.receiverTarget?_of_grows _ ho.2 (hsu.trans hut).extends.expected.heap] at hcallee'
    obtain rfl := Option.some.inj (hcallee.symm.trans hcallee')
    obtain rfl := Option.some.inj (hkind.symm.trans hkind')
    exact ⟨c, hsel, Solver.announces_enterOn _ _ _ _,
      fun this hthis => Solver.owes_enterOn _ _ _ hthis⟩
  · intro callee kind hcallee hkind
    exact absurd hkind (hnone callee kind hcallee)

end SolverM

end PointsTo
