import PointsTo.Proofs.Closure

/-!
# Lambda calls are complete

Lambda objects, the receivers of their implementing methods and the calls on them become
known in any order.  A call whose receiver is not fully known waits, and is resolved on
whatever the receiver refers to later.  This file shows that when a run is finished, every
call on a lambda object runs what its handle says, on all receivers.

Main results:

- {lit}`Lambda.Complete`: the invariant that the plugin and the state of a run have in
  common, relative to what the plugin has been told so far.
- {lit}`Lambda.Attentive`: the invariant between the rounds of the main loop.
- Theorem {lit}`Lambda.performs_of_solve`: calls on lambda objects are complete.
-/

namespace PointsTo

namespace Lambda

variable {env : Setting} {s t : Solver} {st q : State} {seen : QVar → QObj → Prop}
  {asked : QSite → QObj → Prop}

/-! ## What the plugin keeps up -/

/-- Calls that wait have been resolved on what their receivers were {lit}`seen` to refer to,
and calls that the plugin was {lit}`asked` about have been answered. -/
structure Complete (env : Setting) (seen : QVar → QObj → Prop) (asked : QSite → QObj → Prop)
    (s : Solver) (st : State) : Prop where
  built : env.program.Built
  grounded : s.Grounded
  sound : st.Sound env.program s.settled
  points : ∀ v o, seen v o → o ∈ s.pointsTo.get (.var v)
  resolved : ∀ v r, st.Waits v r → ∀ o, seen v o → Resolved env s.expected r o
  exists_of_asked : ∀ site o, asked site o → s.contexts.Has site.context ∧ s.settled.HasObj o
  answered : ∀ site o, asked site o → Answered env s.expected st.Waits site o

namespace Complete

/-- What was kept up stays so while more is known and expected. -/
theorem of_extends (h : Complete env seen asked s st) (hst : s.Extends t) (ht : t.Grounded) :
    Complete env seen asked t st where
  built := h.built
  grounded := ht
  sound := h.sound.mono hst.settled
  points := fun v o ho => hst.settled.points (h.points v o ho)
  resolved := by
    intro v r hr o ho
    exact (h.resolved v r hr o ho).mono
      ((h.sound.pending v r hr).mono (Solver.settled_le_expected s))
      ((h.grounded.points _ o (h.points v o ho)).mono (Solver.settled_le_expected s)) hst.expected
  exists_of_asked := fun site o ho =>
    ⟨(h.exists_of_asked site o ho).1.of_grows hst.settled.contexts,
      (h.exists_of_asked site o ho).2.mono hst.settled⟩
  answered := by
    intro site o ho
    obtain ⟨hsite, hobj⟩ := h.exists_of_asked site o ho
    exact (h.answered site o ho).mono hsite (hobj.mono (Solver.settled_le_expected s))
      hst.expected fun _ _ hr => hr

/-- The plugin has done its part also when facts accrete. -/
theorem of_accretes (h : Complete env seen asked s st) (hst : s.Accretes t) :
    Complete env seen asked t st :=
  h.of_extends hst.extends (h.grounded.of_accretes hst)

/-- A reaction that makes progress keeps up what was kept up. -/
theorem of_progress (h : Complete env seen asked s st)
    (hp : Progress env s t st q) : Complete env seen asked t q := by
  have h' := h.of_accretes hp.evolves.accretes
  refine ⟨h.built, h'.grounded, hp.sound, h'.points, ?_, h'.exists_of_asked, ?_⟩
  · intro v r hr o ho
    rcases hp.new v r hr with hold | hnew
    · exact h'.resolved v r hold o ho
    · exact hnew o (h.points v o ho)
  · intro site o ho
    obtain ⟨hsite, hobj⟩ := h'.exists_of_asked site o ho
    exact (h'.answered site o ho).mono hsite (hobj.mono (Solver.settled_le_expected t)) (.refl _)
      hp.kept

/-- Every reaction keeps up what was kept up. -/
theorem of_react {e : Event} (h : Complete env seen asked s st) (he : e.Holds env s)
    (hr : (react env e st).run env s = .ok q t) : Complete env seen asked t q := by
  cases e with
  | edge e =>
      obtain rfl := react_edge hr
      exact h.of_accretes (Service.evolves hr).accretes
  | start | finish | method | methodIn | unresolved | grown =>
      exact h.of_progress (react_ok hr h.built h.grounded h.sound he (by simp))

/-- After it was told of a call on an object that has no target, the plugin has answered
that call too. -/
theorem of_react_unresolved {o : QObj} {context : ContextId} {site : InvokeId}
    (h : Complete env seen asked s st) (he : (Event.unresolved o context site).Holds env s)
    (hr : (react env (.unresolved o context site) st).run env s = .ok q t) :
    Complete env seen (fun site' o' => asked site' o' ∨ site' = ⟨context, site⟩ ∧ o' = o) t q := by
  have h' := h.of_react he hr
  have hsite := View.acting_of_unresolved h.built he
  obtain ⟨_, hcontext, hobj, _⟩ := he
  obtain ⟨hprogress, hanswered⟩ := callOn_ok hr h.grounded h.sound hsite hobj
  have hle := hprogress.evolves.extends.settled
  refine ⟨h.built, h'.grounded, h'.sound, h'.points, h'.resolved, ?_, ?_⟩
  · rintro site' o' (hold | ⟨rfl, rfl⟩)
    · exact h'.exists_of_asked site' o' hold
    · exact ⟨hcontext.of_grows hle.contexts, hobj.mono hle⟩
  · rintro site' o' (hold | ⟨rfl, rfl⟩)
    · exact h'.answered site' o' hold
    · exact hanswered

/-- After it was told of a variable that refers to more, the plugin has resolved what waits
on that variable on all that it refers to. -/
theorem of_react_grown {v : QVar} {delta : ObjSet} (h : Complete env seen asked s st)
    (he : (Event.grown v delta).Holds env s)
    (hr : (react env (.grown v delta) st).run env s = .ok q t) :
    Complete env (fun v' o => seen v' o ∨ v' = v ∧ o ∈ s.pointsTo.get (.var v)) asked t q := by
  have h' := h.of_react he hr
  simp only [react, Service.bind_eq, Service.run_bind, bind_eq_ok, Service.pure_eq,
    Service.run_done, pure_eq_ok] at hr
  obtain ⟨_, _, hwake, rfl, rfl⟩ := hr
  obtain ⟨hevolves, hresolved⟩ := wake_ok hwake h.grounded h.sound
  refine ⟨h.built, h'.grounded, h'.sound, ?_, ?_, h'.exists_of_asked, h'.answered⟩
  · rintro v' o (hold | ⟨rfl, ho⟩)
    · exact h'.points v' o hold
    · exact hevolves.extends.settled.points ho
  · rintro v' r hwaits o (hold | ⟨rfl, ho⟩)
    · exact h'.resolved v' r hwaits o hold
    · exact hresolved r hwaits o ho

end Complete

/-! ## The plugin among others -/

/-- Plugin number {lit}`k` is one for lambdas, and keeps up what it was told so far. -/
def Listens (env : Setting) (k : Nat) (seen : QVar → QObj → Prop) (asked : QSite → QObj → Prop)
    (m : Machine Member) : Prop :=
  ∃ st, m.plugins[k]? = some (.lambda st) ∧ Complete env seen asked m.solver st

namespace Listens

variable {k : Nat} {m n : Machine Member}

/-- The plugin goes on listening while a machine acts. -/
theorem of_acts (h : Listens env k seen asked m) (ha : Machine.Acts Member.plugin env m n) :
    Listens env k seen asked n := by
  obtain ⟨st, hk, hst⟩ := h
  obtain ⟨p, hp, q, rfl, hq⟩ := ha.keeps_at
    (J := fun s p => ∃ st, p = .lambda st ∧ Complete env seen asked s st) (by
      rintro s t _ ⟨st, rfl, hst⟩ hacc
      exact ⟨st, rfl, hst.of_accretes hacc⟩) (by
      rintro s t _ q e ⟨st, rfl, hst⟩ he hr
      obtain ⟨q, rfl, hq⟩ := Member.react_lambda.1 hr
      exact ⟨q, rfl, hst.of_react he hq⟩) hk ⟨st, rfl, hst⟩
  exact ⟨q, hp, hq⟩

/-- What is kept up piece by piece is kept up as a whole. -/
theorem combine {seen' : QVar → QObj → Prop} {asked' : QSite → QObj → Prop}
    (h : Listens env k seen asked m)
    (hseen : ∀ v o, seen' v o → ∃ seen'' asked'', seen'' v o ∧ Listens env k seen'' asked'' m)
    (hasked : ∀ site o, asked' site o →
      ∃ seen'' asked'', asked'' site o ∧ Listens env k seen'' asked'' m) :
    Listens env k seen' asked' m := by
  obtain ⟨st, hk, hst⟩ := h
  have hpiece : ∀ {seen'' asked''}, Listens env k seen'' asked'' m →
      Complete env seen'' asked'' m.solver st := by
    rintro seen'' asked'' ⟨st', hk', hst'⟩
    obtain rfl : st' = st := by simpa using hk'.symm.trans hk
    exact hst'
  refine ⟨st, hk, hst.built, hst.grounded, hst.sound, ?_, ?_, ?_, ?_⟩
  · intro v o ho
    obtain ⟨_, _, ho, hpart⟩ := hseen v o ho
    exact (hpiece hpart).points v o ho
  · intro v r hr o ho
    obtain ⟨_, _, ho, hpart⟩ := hseen v o ho
    exact (hpiece hpart).resolved v r hr o ho
  · intro site o ho
    obtain ⟨_, _, ho, hpart⟩ := hasked site o ho
    exact (hpiece hpart).exists_of_asked site o ho
  · intro site o ho
    obtain ⟨_, _, ho, hpart⟩ := hasked site o ho
    exact (hpiece hpart).answered site o ho

/-- What a reaction to an event achieves, the telling of the event does. -/
private theorem of_tell {seen' : QVar → QObj → Prop} {asked' : QSite → QObj → Prop} {e : Event}
    (h : Listens env k seen asked m) (htell : Machine.tell Member.plugin env e m = .ok ⟨⟩ n)
    (he : e.Holds env m.solver)
    (hreact : ∀ {s t st q}, m.solver.Accretes s → Complete env seen asked s st →
      e.Holds env s → (react env e st).run env s = .ok q t → Complete env seen' asked' t q) :
    Listens env k seen' asked' n := by
  obtain ⟨st, hk, hst⟩ := h
  obtain ⟨s, p, t, hms, hr, hp, htn⟩ := Machine.reaction_of_tell htell hk
  obtain ⟨q, rfl, hq⟩ := Member.react_lambda.1 hr
  exact ⟨q, hp, (hreact hms (hst.of_accretes hms) (he.mono hms) hq).of_accretes htn⟩

/-- It is asked about an object when it is told of a call on that object. -/
theorem of_tell_unresolved {o : QObj} {context : ContextId} {site : InvokeId}
    (h : Listens env k seen asked m)
    (htell : Machine.tell Member.plugin env (.unresolved o context site) m = .ok ⟨⟩ n)
    (he : (Event.unresolved o context site).Holds env m.solver) :
    Listens env k seen
      (fun site' o' => asked site' o' ∨ site' = ⟨context, site⟩ ∧ o' = o) n :=
  h.of_tell htell he fun _ hst he hr => hst.of_react_unresolved he hr

/-- It sees what a variable refers to when it is told that the variable refers to more. -/
theorem of_tell_grown {v : QVar} {delta : ObjSet} (h : Listens env k seen asked m)
    (htell : Machine.tell Member.plugin env (.grown v delta) m = .ok ⟨⟩ n)
    (he : (Event.grown v delta).Holds env m.solver) :
    Listens env k
      (fun v' o => seen v' o ∨ v' = v ∧ o ∈ m.solver.pointsTo.get (.var v)) asked n := by
  refine h.of_tell htell he fun hms hst he hr => ?_
  rw [← hms.pointsTo]
  exact hst.of_react_grown he hr

end Listens

/-! ## Between the rounds -/

/-- A call without a target on an object that its base variable refers to. -/
def Stuck (env : Setting) (s : Solver) (site : QSite) (o : QObj) : Prop :=
  ∃ v : QVar, v.context = site.context ∧ o ∈ s.pointsTo.get (.var v) ∧
    site.item ∈ (env.program.var v.item).uses.invokes ∧ Unresolved env.program s.heap site.item o

/-- The plugin has kept up with all that has been worked in. -/
def Attentive (env : Setting) (k : Nat) (m : Machine Member) : Prop :=
  Listens env k (fun v o => o ∈ m.solver.pointsTo.get (.var v)) (Stuck env m.solver) m

namespace Attentive

variable {k : Nat} {m n : Machine Member}

/-- While the sets stay the same, nothing new has to be kept up with. -/
theorem of_listens (h : Listens env k (fun v o => o ∈ m.solver.pointsTo.get (.var v))
      (Stuck env m.solver) n)
    (hmn : m.solver.Extends n.solver) (hpoints : n.solver.pointsTo = m.solver.pointsTo)
    (hm : m.solver.Grounded) : Attentive env k n := by
  obtain ⟨st, hk, hst⟩ := h
  have hstuck : ∀ site o, Stuck env n.solver site o → Stuck env m.solver site o := by
    rintro site o ⟨v, hv, ho, huse, hnone⟩
    rw [hpoints] at ho
    exact ⟨v, hv, ho, huse, hnone.of_grows (hm.points _ o ho).2 hmn.settled.heap⟩
  refine ⟨st, hk, hst.built, hst.grounded, hst.sound, fun v o ho => ho, ?_, ?_, ?_⟩
  · intro v r hr o ho
    rw [hpoints] at ho
    exact hst.resolved v r hr o ho
  · exact fun site o ho => hst.exists_of_asked site o (hstuck site o ho)
  · exact fun site o ho => hst.answered site o (hstuck site o ho)

/-- The plugin stays attentive while a machine acts. -/
theorem of_acts (h : Attentive env k m) (ha : Machine.Acts Member.plugin env m n) :
    Attentive env k n := by
  obtain ⟨st, hk, hst⟩ := h
  exact of_listens (Listens.of_acts ⟨st, hk, hst⟩ ha) ha.accretes.extends ha.accretes.pointsTo
    hst.grounded

/-- A method may be found to be reachable. -/
theorem of_discover (h : Attentive env k m) {q : QMethod}
    (hq : m.solver.contexts.Has q.context) : Attentive env k (m.discover q) := by
  obtain ⟨st, hk, hst⟩ := h
  exact ⟨st, hk, hst.of_extends (Solver.extends_discover m.solver q) (hst.grounded.of_discover hq)⟩

/-- After a fact was taken from the queue and worked in, the plugin still keeps up what it
kept up before. -/
theorem listens_taken {w : WorkItem} {rest : List WorkItem} (h : Attentive env k m)
    (hq : m.solver.queue = w :: rest) (hw : w.Exists m.solver.settled) :
    Listens env k (fun v o => o ∈ m.solver.pointsTo.get (.var v)) (Stuck env m.solver)
      (m.taken env w rest) := by
  obtain ⟨st, hk, hst⟩ := h
  exact ⟨st, hk, hst.of_extends (Solver.extends_take env.program hq)
    (hst.grounded.of_take (p := env.program) hq hw)⟩

/-- Objects on their way to a pointer are worked in. -/
theorem of_grew {ptr : Pointer} {os : ObjSet} {rest : List WorkItem}
    (h : Attentive env k m) (hq : m.solver.queue = .pointsTo ptr os :: rest)
    (hw : (WorkItem.pointsTo ptr os).Exists m.solver.settled)
    (hacts : Machine.Acts Member.plugin env (m.taken env (.pointsTo ptr os) rest) n)
    (hgrew : ∀ v, ptr = .var v → ∀ o ∈ m.solver.delta ptr os,
      Machine.Grew Member.plugin env v (m.solver.delta ptr os)
        (m.taken env (.pointsTo ptr os) rest) n) :
    Attentive env k n := by
  have hold := h.listens_taken hq hw
  obtain ⟨st, hk, hst⟩ := h
  have hmn : m.solver.Extends n.solver :=
    (Solver.extends_take env.program hq).trans hacts.accretes.extends
  have htaken : (m.taken env (.pointsTo ptr os) rest).solver.Grounded :=
    hst.grounded.of_take hq hw
  have hat : ∀ {u : Machine Member} {v o}, o ∈ n.solver.pointsTo.get (.var v) →
      Machine.Acts Member.plugin env (m.taken env (.pointsTo ptr os) rest) u →
      o ∈ u.solver.pointsTo.get (.var v) ∧ u.solver.Grounded := by
    intro u v o ho hu
    rw [hacts.accretes.pointsTo, ← hu.accretes.pointsTo] at ho
    exact ⟨ho, htaken.of_accretes hu.accretes⟩
  refine (hold.of_acts hacts).combine ?_ ?_
  · intro v o ho
    rcases (Machine.mem_pointsTo_of_taken hacts).1 ho with hbefore | ⟨hptr, hnew⟩
    · exact ⟨_, _, hbefore, hold.of_acts hacts⟩
    · obtain ⟨u, hu, htell⟩ := (hgrew v hptr o hnew).told
      obtain ⟨hou, hground⟩ := hat ho hu
      have hholds : (Event.grown v (m.solver.delta ptr os)).Holds env u.solver :=
        ⟨hground.var v o hou,
          fun o' ho' => (Machine.mem_pointsTo_of_taken hu).2 (.inr ⟨hptr, ho'⟩), o, hnew⟩
      exact ⟨_, _, .inr ⟨rfl, hou⟩, (hold.of_acts hu).of_tell_grown htell hholds⟩
  · rintro ⟨_, site⟩ o ⟨v, rfl, ho, huse, hnone⟩
    rcases (Machine.mem_pointsTo_of_taken hacts).1 ho with hbefore | ⟨hptr, hnew⟩
    · exact ⟨_, _, ⟨v, rfl, hbefore, huse, hnone.of_grows (hst.grounded.points _ o hbefore).2
        hmn.settled.heap⟩, hold.of_acts hacts⟩
    · obtain ⟨a, b, ha, hcall, hb⟩ := (hgrew v hptr o hnew).called site huse o hnew
      obtain ⟨hoa, hground⟩ := hat ho ha
      have hv := hground.var v o hoa
      have hobj := hground.points _ o hoa
      obtain ⟨hab, _, htell⟩ := Machine.callOn_ok hcall hoa huse hv hobj
      have hnone' : Unresolved env.program a.solver.heap site o :=
        hnone.of_grows hobj.2 (hab.trans hb).accretes.heap
      exact ⟨_, _, .inr ⟨rfl, rfl⟩, ((hold.of_acts ha).of_tell_unresolved (htell hnone')
        ⟨⟨v, rfl, hoa, huse⟩, hv, hobj, hnone'⟩).of_acts hb⟩

/-- When a call edge is taken from the queue, there is nothing new to keep up with. -/
theorem taken_call {e : CallEdge} {rest : List WorkItem} (h : Attentive env k m)
    (hq : m.solver.queue = .call e :: rest) (hw : (WorkItem.call e).Exists m.solver.settled) :
    Attentive env k (m.taken env (.call e) rest) := by
  have hold := h.listens_taken hq hw
  obtain ⟨st, hk, hst⟩ := h
  exact of_listens hold (Solver.extends_take env.program hq) (Solver.pointsTo_take _ _ _ _)
    hst.grounded

/-- The plugin keeps up with every step of a run. -/
theorem invariant : Machine.Invariant Member.plugin env (Attentive env k) where
  acts := of_acts
  entered := fun h hq hentered => (h.of_discover hq).of_acts hentered.acts
  pointsTo := of_grew
  known := fun h hq hw _ => h.taken_call hq hw
  linked := by
    intro m n e rest h hq hw hnew hlinked
    refine (h.taken_call hq hw).of_acts ?_
    rw [Machine.taken_call hnew]
    exact hlinked.acts

end Attentive

/-- Before a run the plugin has nothing to keep up with. -/
theorem attentive_new (hb : env.program.Built) {k : Nat} {members : List Member}
    (hk : members[k]? = some Member.newLambda) : Attentive env k (.new members) := by
  have hnone : ∀ {ptr o}, ¬ o ∈ ({} : Solver).pointsTo.get ptr :=
    fun h => OrderedSet.not_mem_empty _ h
  refine ⟨{}, hk, hb, Solver.Scoped.new.grounded, State.sound_new, fun v o ho => ho, ?_, ?_, ?_⟩
  · exact fun v r hr => absurd hr (OrderedSet.not_mem_empty _)
  · exact fun site o ⟨v, _, ho, _⟩ => absurd ho hnone
  · exact fun site o ⟨v, _, ho, _⟩ => absurd ho hnone

/-- At every stage of a grounded run the plugin has kept up with all that has been worked
in. -/
theorem attentive_of_visits (hb : env.program.Built) {k : Nat} {members : List Member}
    {entries : List MethodId} {stage : Machine.Stage Member}
    (hk : members[k]? = some Member.newLambda)
    (h : Machine.Visits Member.plugin env entries (.new members) stage)
    (hg : Machine.Grounded Member.plugin env entries (.new members)) :
    Attentive env k stage.machine :=
  Attentive.invariant.visits (attentive_new hb hk) h hg

/-! ## The fixpoint -/

/-- In a finished run of a built program with the plugin for lambdas, whatever other
plugins there are, every call without a target on a lambda object for the name that is
called runs what the handle of the object says: a static method at once, a constructor on
the object it makes, and an instance method on everything that the variable which provides
its receiver refers to in the end. -/
theorem performs_of_solve (env : Setting) (ds : List Declaration)
    (hbuild : (Builder.ofList ds).build = .ok env.program) {steps : Nat}
    {entries : List MethodId} {members : List Member} {n : Machine Member} {k : Nat}
    (hk : members[k]? = some Member.newLambda)
    (hsolve : Machine.solve Member.plugin env steps entries (.new members) = (.finished, n))
    (hids : (∀ m ∈ members, m.Sound env.program ({} : Solver).settled) ∨
      Machine.Grounded Member.plugin env entries (.new members))
    {site maker : InvokeId} {base : VarId} {c : ContextId} {o : QObj} {obj : Obj}
    {d : DynamicCall} {handle : MethodHandle} (hstmt : env.program.HasStmt (.invoke site))
    (hbase : (env.program.invoke site).base = some base)
    (hinstance : (env.program.invoke site).kind.isInstance = true)
    (ho : o ∈ n.solver.pointsTo.get (varPointer c base))
    (hobj : n.solver.heap.get? o.item = some obj)
    (hmock : obj.kind = .mock .lambda (.invoke maker))
    (hnone : receiverTarget? env.program n.solver.heap (env.program.invoke site) o = none)
    (hdynamic : (env.program.invoke maker).dynamic = some d)
    (hname : (env.program.invoke site).target.name = d.methodName)
    (hhandle : d.handle? implIndex = some handle) :
    Performs env n.solver.settled
      (fun v r => ∀ o ∈ n.solver.pointsTo.get (.var v), Resolved env n.solver.settled r o)
      ⟨c, site⟩ maker handle
      { captured := (env.program.invoke maker).args, lambdaContext := o.context
        result := (env.program.invoke site).result } := by
  obtain ⟨hvisit, hq⟩ := Machine.visits_of_solve hsolve
  have hb := Program.built_of_build (Builder.numbered_ofList ds) hbuild
  have hground := hids.elim (Member.grounded hb) id
  obtain ⟨st, _, hst⟩ := attentive_of_visits hb hk hvisit hground
  have hstuck : Stuck env n.solver ⟨c, site⟩ o := by
    refine ⟨⟨c, base⟩, rfl, ho, hb.mem_invokes.2 ⟨hstmt, hbase, hinstance⟩, ?_⟩
    intro callee kind hcallee
    exact absurd (hnone.symm.trans hcallee) (by simp)
  have hfits : Fits env.program (n.solver.heap.get o.item) site maker handle := by
    rw [Heap.get_of_get? hobj]
    exact ⟨hmock, d, hdynamic, hname, hhandle⟩
  have hperforms := hst.answered _ _ hstuck maker handle hfits
  rw [Solver.expected_eq_settled hq] at hperforms
  refine hperforms.mono (hst.exists_of_asked _ _ hstuck).1 (.refl _) ?_
  intro v r hr o' ho'
  rw [← Solver.expected_eq_settled hq]
  exact hst.resolved v r hr o' ho'

/-- A method that captures an object in a reference to one of its methods, and calls that. -/
def capturingProgram : List Declaration :=
  [.cls (.interface "F"), .method ⟨"F", "run", [], .void, false, true, true⟩,
    .cls (.plain "A"), .method ⟨"A", "m", [], .void, false, false, true⟩,
    .method ⟨"A", "main", [], .void, true, false, true⟩,
    .var ⟨2⟩ "a" (.cls "A"), .var ⟨2⟩ "f" (.cls "F"), .stmt ⟨2⟩ (.new ⟨2⟩ (.cls "A")),
    .dynamicCall ⟨2⟩
      { dynamic :=
          { bootstrap := metafactory, methodName := "run"
            methodType := ⟨[.cls "A"], .cls "F"⟩
            bootstrapArgs :=
              [.methodType ⟨[], .void⟩, .handle ⟨.invokeVirtual, ⟨"A", "m", [], .void⟩⟩] }
        captured := [⟨2⟩], result := some ⟨3⟩ },
    .call ⟨2⟩ ⟨.interface, ⟨"F", "run", [], .void⟩, some ⟨3⟩, [], none⟩]

/-- The call of the reference runs the method of the captured object. -/
theorem performs_of_solve_capturing :
    let env := settingOf capturingProgram (oneCallSite true false)
    let run := Machine.solve Member.plugin env 10 [⟨2⟩] (.new [.newLambda])
    run.1 = .finished ∧ run.2.solver.settled.Runs env ⟨emptyContext, ⟨1⟩⟩
      (some ⟨emptyContext, ⟨1⟩⟩) ⟨1⟩
      (.lambda { captured := [⟨2⟩], lambdaContext := emptyContext, result := none }) := by
  intro env run
  have hfinished : run.1 = .finished := by decide +kernel
  refine ⟨hfinished, ?_⟩
  have hsolve : Machine.solve Member.plugin env 10 [⟨2⟩] (.new [.newLambda]) = (.finished, run.2) :=
    Prod.ext hfinished rfl
  have hsound : ∀ m ∈ [Member.newLambda], m.Sound env.program ({} : Solver).settled := by
    intro m hm
    obtain rfl := List.mem_singleton.1 hm
    exact Member.sound_newLambda
  have hbase : (env.program.invoke ⟨1⟩).base = some ⟨3⟩ := by decide +kernel
  have hobj : run.2.solver.heap.get? ⟨0⟩ =
      some { kind := .mock .lambda (.invoke ⟨0⟩), type := .cls "F", container := some ⟨2⟩ } := by
    decide +kernel
  have hpoints : (⟨emptyContext, ⟨0⟩⟩ : QObj) ∈
      run.2.solver.pointsTo.get (varPointer emptyContext ⟨3⟩) := by decide +kernel
  have hperforms := performs_of_solve env capturingProgram
    (Program.build_of_checks (by decide +kernel) (by decide +kernel)) (k := 0) rfl hsolve
    (.inl hsound) ⟨⟨2⟩, by decide +kernel⟩ hbase (by decide +kernel) hpoints hobj rfl
    (by decide +kernel) rfl (by decide +kernel) rfl
  exact hperforms ⟨emptyContext, ⟨2⟩⟩ (by decide +kernel) ⟨emptyContext, ⟨1⟩⟩
    (by decide +kernel) ⟨1⟩ (by decide +kernel)

end Lambda

end PointsTo
