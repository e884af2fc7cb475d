import PointsTo.Proofs.LambdaRules
import PointsTo.Proofs.LeastFixpoint

/-!
# Facts that the rules for lambdas derive

A run with no plugin but the one for lambdas finds only what the rules of the analysis and of
that plugin derive from the entry methods.  Read without ids, its facts are therefore in every
family that is closed under these rules.

Main results:

- Theorem {lit}`Derived.of_lambdaRule`: what the plugin adds is derived.
- {lit}`Machine.Reasoned`: the invariant of a run with lambdas, and theorem
  {lit}`Machine.reasoned_of_visits`.
-/

namespace PointsTo

open Lambda

variable {env : Setting} {s t : Solver} {r : Reading} {F : LambdaFacts}

/-! ## Lambda edges without ids -/

namespace Reading

/-- The variable that provides a receiver is the same without ids. -/
theorem receiver?_capture (r : Reading) (call : LambdaCall) (args : List VarId) (c : ContextId) :
    receiver? (r.capture call) args (r.marks c) =
      (receiverVar? call.captured args call.lambdaContext c).map r.under := by
  unfold receiverVar? receiver?
  simp only [capture]
  cases call.captured with
  | cons v captured => rfl
  | nil => cases args <;> rfl

/-- A lambda edge without ids. -/
def lambdaEdge (r : Reading) (e : CallEdge) (call : LambdaCall) : LambdaEdge :=
  ⟨r.under e.site, r.under e.callee, r.capture call⟩

/-- A lambda edge to a context that was picked leads, without ids, to the marks that are picked. -/
theorem lambdaEdge_of_selects (hr : r.Reads env s) {site : QSite} {receiver : Option QObj}
    {c : ContextId} (hc : s.settled.Selects env site receiver c)
    (hsite : s.contexts.Has site.context) (hreceiver : ∀ o ∈ receiver, s.settled.HasObj o)
    (m : MethodId) (call : LambdaCall) :
    r.lambdaEdge ⟨site, ⟨c, m⟩, .lambda call⟩ call =
      ⟨r.under site, ⟨env.selector.callMarks env.program (r.under site) (receiver.map r.obj), m⟩,
        r.capture call⟩ := by
  rw [← hr.marks_of_selects hc hsite hreceiver]
  rfl

theorem sides_lambdaEdge (r : Reading) (e : CallEdge) (call : LambdaCall) :
    (r.lambdaEdge e call).sides = fun side => r.marks (sides e call side) := by
  funext side
  cases side <;> rfl

/-- Without ids a wire stays a wire. -/
theorem flow_edge (r : Reading) (e : CallEdge) (call : LambdaCall) (w : Wire) :
    r.flow (w.edge (sides e call)) = w.flow (r.lambdaEdge e call).sides := by
  rw [sides_lambdaEdge]
  rfl

end Reading

theorem LambdaFacts.lambda_of_readBy {e : CallEdge} {call : LambdaCall}
    (h : (F.readBy r).call (r.call e)) (hk : e.kind = .lambda call) :
    F.lambda (r.lambdaEdge e call) := by
  obtain ⟨site, callee, kind⟩ := e
  obtain rfl : kind = .lambda call := hk
  exact h

/-- A handle whose methods take a receiver runs what it finds on whatever the receiver refers
to. -/
theorem LambdaFacts.Performs.on_receiver {p : Program} {sel : Selector} {site : Under InvokeId}
    {maker : InvokeId} {handle : MethodHandle} {capture : Capture}
    (h : F.Performs p sel site maker handle capture) (hk : takesReceiver handle.kind = true)
    {receiver : Under VarId}
    (hreceiver : receiver? capture (p.invoke site.item).args site.context = some receiver)
    {o : Under Obj} (ho : F.points (.var receiver) o) {m : MethodId}
    (hm : handleTarget? p handle o.item.type = some m) :
    F.lambda ⟨site, ⟨sel.callMarks p site (some o), m⟩, capture⟩ := by
  unfold LambdaFacts.Performs at h
  cases hkind : handle.kind with
  | invokeVirtual | invokeInterface | invokeSpecial =>
      rw [hkind] at h
      exact h receiver hreceiver o ho m hm
  | invokeStatic | newInvokeSpecial | getField | getStatic | putField | putStatic =>
      rw [hkind] at hk
      cases hk

/-- A call on a lambda object runs what its handle says in every family that is closed. -/
theorem Derived.performs (h : Derived r (F.readBy r) s)
    (hF : F.Handled env.program env.selector) (hb : env.program.Built) (hr : r.Reads env s)
    {v : QVar} {site : InvokeId} {o : QObj} {maker : InvokeId} {handle : MethodHandle}
    (happlies : Applies env s.settled v site o maker handle) :
    F.Performs env.program env.selector (r.under ⟨v.context, site⟩) maker handle
      (r.capture (payload env.program site maker o)) := by
  obtain ⟨hstmt, hbase, hinstance⟩ := hb.mem_invokes.1 happlies.use
  refine hF.applied (r.under v) (r.obj o) (h.points (.inl happlies.points)) site hstmt hbase
    hinstance ?_ maker handle ?_
  · intro callee kind hcallee
    rw [hr.targetOn?_eq site happlies.obj.2] at hcallee
    exact happlies.unresolved callee kind hcallee
  · have hfits := happlies.fits
    rw [Reading.obj, Heap.get_of_grows happlies.obj.2 hr.heap]
    exact hfits

/-- What the plugin for lambdas adds to a state whose facts are in a closed family is in the
family too. -/
theorem Derived.of_lambdaRule {a : Addition} (h : Derived r (F.readBy r) s)
    (hF : F.Handled env.program env.selector) (hb : env.program.Built) (hr : r.Reads env s)
    (hs : s.Scoped) (ha : LambdaRule env s a) : a.Derived r (F.readBy r) := by
  have hmade : ∀ {v : QVar} {site maker handle i},
      s.heap.get? i = some (MockTable.standIn env.program .lambdaConstructed maker
        (.cls handle.target.className)) →
      constructed env.program (r.under ⟨v.context, site⟩) maker handle = r.obj ⟨v.context, i⟩ :=
    fun hi => (hr.obj_of_get? hi _).symm
  cases ha with
  | object | context => trivial
  | @assign m site d o result hm hmakes ho hresult =>
      intro x hx
      obtain rfl := OrderedSet.mem_singleton.1 hx
      rw [hr.obj_of_get? ho]
      exact hF.made (r.under m) (h.reached hm) site d hmakes result hresult
  | @yield v site o maker handle m i result happlies hk hm hi hresult =>
      intro x hx
      obtain rfl := OrderedSet.mem_singleton.1 hx
      have hperforms := h.performs hF hb hr happlies
      simp only [LambdaFacts.Performs, hk, hmade hi] at hperforms
      exact (hperforms m hm).1 result hresult
  | @construct v site o maker handle m i c happlies hk hm hi hc =>
      have hperforms := h.performs hF hb hr happlies
      simp only [LambdaFacts.Performs, hk, hmade hi] at hperforms
      have hmarks := hr.marks_of_selects hc happlies.context (by
        rintro _ ⟨⟩
        exact ⟨happlies.context, _, hi⟩)
      obtain ⟨_, hcall, hthis⟩ := hperforms m hm
      rw [show env.selector.callMarks env.program (r.under ⟨v.context, site⟩)
        (some (r.obj ⟨v.context, i⟩)) = r.marks c from hmarks.symm] at hcall hthis
      exact ⟨hcall, hthis⟩
  | @static v site o maker handle m c happlies hk hm hc =>
      have hperforms := h.performs hF hb hr happlies
      simp only [LambdaFacts.Performs, hk] at hperforms
      show F.lambda (r.lambdaEdge _ _)
      rw [Reading.lambdaEdge_of_selects hr hc happlies.context (by simp)]
      exact hperforms m hm
  | @receive v site o maker handle receiver x m c happlies hk hv hx hm hc =>
      have hobj := hs.obj hx
      have hreceiver := (r.receiver?_capture (payload env.program site maker o)
        (env.program.invoke site).args v.context).trans (congrArg (Option.map r.under) hv)
      show F.lambda (r.lambdaEdge _ _)
      rw [Reading.lambdaEdge_of_selects hr hc happlies.context (by
        rintro _ ⟨⟩
        exact hobj)]
      exact (h.performs hF hb hr happlies).on_receiver hk hreceiver (h.points (.inl hx))
        (by rw [hr.type_of_has hobj.2, hm])
  | @wiring e call f he hk hf =>
      rw [wiring_eq] at hf
      obtain ⟨w, hw, rfl⟩ := List.mem_map.1 hf
      have hedge := LambdaFacts.lambda_of_readBy (h.call (.inl he)) hk
      show F.flow (r.flow (w.edge (sides e call)))
      rw [r.flow_edge]
      exact hF.wiring _ hedge w hw

/-- The rules of the plugin make contexts of objects that exist. -/
theorem Solver.Marked.of_lambdaRule {a : Addition} (h : s.Marked env) (ha : LambdaRule env s a)
    (hadd : s.Adds env.program a t) : t.Marked env := by
  refine h.of_adds hadd ?_
  rintro hs w rfl
  cases ha with
  | context hreceiver hw => exact of_wanted h hs hreceiver hw

/-! ## Runs -/

namespace Machine

variable {on : Bool} {m n : Machine Member} {entries : List MethodId}

/-- What may be added in a run whose plugins are for lambdas, and only if that is {lit}`on`. -/
def LambdaStep (env : Setting) (on : Bool) (s : Solver) (a : Addition) : Prop :=
  CoreRule env s a ∨ on = true ∧ LambdaRule env s a

/-- All plugins are for lambdas and have their reasons, all ids that are mentioned exist, and
all facts are in every closed family, with whatever later tables they are read. -/
structure Reasoned (env : Setting) (on : Bool) (entries : List MethodId) (m : Machine Member) :
    Prop where
  ids : Scoped (fun k p => on = true ∧ JustifiedMember env k p) m
  start : ContextTable.new.Grows m.solver.contexts
  marked : m.solver.Marked env
  derived : ∀ {r : Reading} {F : LambdaFacts}, r.Reads env m.solver →
    F.Closed env.program env.selector on entries → Derived r (F.readBy r) m.solver

/-- Additions by the rules bring derived facts, and contexts of objects that exist. -/
private theorem derived_of_evolves (he : s.Evolves env.program (LambdaStep env on) t)
    (hb : env.program.Built) (hs : s.Scoped) (hmarked : s.Marked env) :
    t.Scoped ∧ t.Marked env ∧ ∀ {r : Reading} {F : LambdaFacts}, r.Reads env t →
      F.Closed env.program env.selector on entries →
        Derived r (F.readBy r) s → Derived r (F.readBy r) t := by
  induction he with
  | refl => exact ⟨hs, hmarked, fun _ _ h => h⟩
  | @tail u v _ hstep ih =>
      obtain ⟨a, ha, hadd⟩ := hstep
      obtain ⟨hu, hmarkedu, hderived⟩ := ih
      have hexists : a.Exists u.settled :=
        ha.elim (fun hrule => hrule.exists hu) fun hrule => hrule.2.exists hu
      refine ⟨hu.of_adds hexists hadd, ?_, ?_⟩
      · exact ha.elim (fun hrule => hmarkedu.of_coreRule hu hrule hadd)
          fun hrule => hmarkedu.of_lambdaRule hrule.2 hadd
      · intro r F hr hF h
        have hru := hr.of_le hadd.accretes.extends.settled
        have hcore := hF.readBy r
        have hdu := hderived hru hF h
        exact hdu.of_adds hcore hru hu (ha.elim (hdu.of_coreRule hcore hb hru hu)
          fun hrule => hdu.of_lambdaRule (hF.handled hrule.1) hb hru hu hrule.2) hadd

namespace Reasoned

theorem of_acts (h : Reasoned env on entries m) (hb : env.program.Built)
    (ha : Acts Member.plugin env m n) : Reasoned env on entries n := by
  have hP := honest_justified hb.numbered on
  have hevolves : m.solver.Evolves env.program (LambdaStep env on) n.solver :=
    h.ids.evolves_of_acts hP ha
  obtain ⟨_, hmarked, hderived⟩ := derived_of_evolves hevolves hb h.ids.1 h.marked
  exact ⟨h.ids.of_acts hP ha, h.start.trans ha.accretes.contexts, hmarked, fun hr hF =>
    hderived hr hF (h.derived (hr.of_le hevolves.extends.settled) hF)⟩

/-- One round of the main loop derives facts only. -/
theorem of_process {w : WorkItem} {rest : List WorkItem} (h : Reasoned env on entries m)
    (hb : env.program.Built) (hq : m.solver.queue = w :: rest)
    (hp : process Member.plugin env w { m with solver := { m.solver with queue := rest } } =
      .ok ⟨⟩ n) : Reasoned env on entries n := by
  have hle := (Solver.extends_take env.program hq).settled
  have htaken : Reasoned env on entries (m.taken env w rest) := by
    refine ⟨h.ids.of_le (honest_justified hb.numbered on) (h.ids.1.of_take hq) hle rfl,
      h.start.trans hle.contexts, ?_, ?_⟩
    · exact h.marked.of_eq (Solver.contexts_take ..) hle.heap
    · exact fun hr hF => (h.derived (hr.of_le hle) hF).of_take (hF.readBy _) (hr.of_le hle)
        h.ids.1 hq
  exact htaken.of_acts hb (process_acts hp (h.ids.1.exists_of_queue hq))

/-- Entry methods are in every closed family. -/
theorem of_reach {i : MethodId} (h : Reasoned env on entries m) (hb : env.program.Built)
    (hi : i ∈ entries) (hr : reach Member.plugin env ⟨emptyContext, i⟩ m = .ok ⟨⟩ n) :
    Reasoned env on entries n := by
  rcases reach_ok hr h.ids.1.empty with ⟨_, rfl⟩ | hentered
  · exact h
  · have hfound : Reasoned env on entries (m.discover ⟨emptyContext, i⟩) := by
      refine ⟨h.ids.of_le (honest_justified hb.numbered on) (h.ids.1.of_discover h.ids.1.empty)
        (Solver.extends_discover m.solver ⟨emptyContext, i⟩).settled rfl, h.start, h.marked, ?_⟩
      intro r F hreads hF
      have hreads' : r.Reads env m.solver :=
        ⟨hreads.strategy, hreads.heap, hreads.contexts, hreads.empty⟩
      refine (h.derived hreads' hF).of_discover ?_
      rw [Reading.under, hreads'.marks_empty]
      exact hF.core.entry i hi
    exact hfound.of_acts hb hentered.acts

end Reasoned

/-- At every stage of a run with lambdas all facts are in every closed family. -/
theorem reasoned_of_visits {members : List Member} {stage : Stage Member}
    (hb : env.program.Built) (hmembers : ∀ p ∈ members, on = true ∧ p = .newLambda)
    (h : Visits Member.plugin env entries (.new members) stage) :
    Reasoned env on entries stage.machine := by
  have hnew : Reasoned env on entries (.new members) := by
    refine ⟨⟨.new, ?_⟩, .refl _, .new, fun _ _ => .new⟩
    intro p hp
    obtain ⟨hon, rfl⟩ := hmembers p hp
    exact ⟨hon, {}, rfl, State.justified_new⟩
  obtain ⟨m, hm, hrun⟩ := h
  induction hrun with
  | refl =>
      refine keeps_of_enter hm ?_ ?_
      · exact fun htell => hnew.of_acts hb (tell_acts htell trivial)
      · exact fun hi hu hreach => hu.of_reach hb hi hreach
  | tail _ hstep ih =>
      cases hstep with
      | work hq hp => exact ih.of_process hb hq hp
      | finish _ ht => exact ih.of_acts hb (tell_acts ht trivial)

end Machine

end PointsTo
