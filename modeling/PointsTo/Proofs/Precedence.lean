import PointsTo.Proofs.Places
import PointsTo.Proofs.ReflectionMemory
import PointsTo.Proofs.ReflectionRequests

/-!
# The log comes first

Where the log speaks of a call, the edges that leave the call by reflection, and the objects that
are made there, are to be those that the entries of the log ask for.  Whether a conversation
keeps to this shows in what it asks for, given that a state answers as it is.

Main results:

- {lit}`LogModel.AllowsObj`, {lit}`LogModel.AllowsEdge`: what may be made at a call, and where it
  may lead, if the log speaks of it.
- {lit}`LogModel.Governs`: only what the log allows is there; theorem
  {lit}`LogModel.Governs.of_obeyed`: this is kept by conversations that ask for nothing else.
- Theorems {lit}`Instantiating.permits`, {lit}`Invoking.permits`: reflective allocation and
  invocation ask for what the log allows, where the log asks for them.
-/

namespace PointsTo

namespace Reflection

variable {env : Setting} {p : Program} {log m : LogModel} {s t : Solver} {call : Invoke}
  {site : QSite}

/-! ## What the log says -/

/-- A log asks nothing of a call that is no reflective one. -/
theorem LogModel.asked_default (log : LogModel) : log.asked default = [] := by
  have hclassify : Api.classify (default : Invoke).target = none := by decide +kernel
  simp only [asked, hclassify]

/-- What is asked of a call, the call itself is asked. -/
theorem LogModel.site_of_asked {claim : Claim} (hp : p.Numbered) {i : InvokeId}
    (h : claim ∈ log.asked (p.invoke i)) : claim.site = i := by
  obtain ⟨e, _, _, rfl⟩ := mem_asked.1 h
  refine (hp.invoke_cases i).resolve_right fun hdefault => ?_
  rw [hdefault, asked_default] at h
  exact absurd h List.not_mem_nil

/-- An object of the type is made because of what is asked. -/
def Claim.Makes (p : Program) (type : JavaType) (c : Claim) : Prop :=
  match c.api, c.target with
  | .classNewInstance, .cls className => type = .cls className
  | .constructorNewInstance, .method m => type = (p.method m).declaringType
  | _, _ => False

/-- An edge leaves a call, with a payload, because of what is asked. -/
def Claim.Leads (p : Program) (heap : Heap) (points : PointsToMap) (e : CallEdge)
    (payload : ReflectiveCall) (c : Claim) : Prop :=
  let call := p.invoke e.site.item
  match c.api, c.target with
  | .classNewInstance, .cls className =>
      p.defaultConstructor? className = some e.callee.item ∧
        payload = { api := .classNewInstance, args := none }
  | .constructorNewInstance, .method m => e.callee.item = m ∧
      payload = { api := .constructorNewInstance, args := call.args.head? }
  | .methodInvoke, .method m => (p.method m).isConstructor = false ∧
      payload = { api := .methodInvoke, args := call.args[1]? } ∧
      ((p.method m).isStatic = true ∧ e.callee.item = m ∨
        (p.method m).isStatic = false ∧ ∃ r ∈ call.args.head?,
          ∃ o ∈ points.get (varPointer e.site.context r),
            invokedOn? p m (heap.get o.item).type = some e.callee.item)
  | _, _ => False

namespace LogModel

/-- An object is allowed, unless it was made by a call that the log speaks of and is none that
the log asks for. -/
def AllowsObj (p : Program) (log : LogModel) (x : Obj) : Prop :=
  ∀ site, x.kind = .mock .reflective (.invoke site) → log.asked (p.invoke site) ≠ [] →
    ∃ claim ∈ log.asked (p.invoke site), claim.Makes p x.type

/-- An edge is allowed, unless it leaves a call that the log speaks of by reflection and is none
that the log asks for. -/
def AllowsEdge (p : Program) (heap : Heap) (points : PointsToMap) (log : LogModel)
    (e : CallEdge) : Prop :=
  ∀ payload, e.kind = .reflective payload → log.asked (p.invoke e.site.item) ≠ [] →
    ∃ claim ∈ log.asked (p.invoke e.site.item), claim.Leads p heap points e payload

/-- What an addition brings is allowed. -/
def Allows (p : Program) (s : Solver) (log : LogModel) : Addition → Prop
  | .object x => log.AllowsObj p x
  | .enter _ _ e | .call e => log.AllowsEdge p s.heap s.pointsTo e
  | .context _ | .points .. | .flow _ | .note _ => True

/-- All objects and edges are allowed. -/
structure Governs (p : Program) (log : LogModel) (s : Solver) : Prop where
  objects : ∀ {i x}, s.heap.get? i = some x → log.AllowsObj p x
  edges : ∀ {e}, s.Announces e → log.AllowsEdge p s.heap s.pointsTo e

/-- What the log asks for stays what it asks for, as variables refer to more. -/
theorem AllowsEdge.mono {heap heap' : Heap} {points points' : PointsToMap} {e : CallEdge}
    (h : log.AllowsEdge p heap points e) (hhas : ∀ {ptr o}, o ∈ points.get ptr → heap.Has o.item)
    (hheap : heap.Grows heap')
    (hpoints : ∀ {ptr o}, o ∈ points.get ptr → o ∈ points'.get ptr) :
    log.AllowsEdge p heap' points' e := by
  intro payload hkind hasked
  obtain ⟨claim, hclaim, hleads⟩ := h payload hkind hasked
  refine ⟨claim, hclaim, ?_⟩
  unfold Claim.Leads at hleads ⊢
  dsimp only at hleads ⊢
  split
  · rename_i hapi htarget
    rwa [hapi, htarget] at hleads
  · rename_i hapi htarget
    rwa [hapi, htarget] at hleads
  · rename_i hapi htarget
    rw [hapi, htarget] at hleads
    obtain ⟨hno, hpayload, hcallee⟩ := hleads
    refine ⟨hno, hpayload, hcallee.imp_right ?_⟩
    rintro ⟨hstatic, r, hr, o, ho, htype⟩
    refine ⟨hstatic, r, hr, o, hpoints ho, ?_⟩
    rwa [Heap.get_of_grows (hhas ho) hheap]
  · rename_i hclass hconstructor hinvoke
    split at hleads
    · rename_i hapi htarget
      exact (hclass _ hapi htarget).elim
    · rename_i hapi htarget
      exact (hconstructor _ hapi htarget).elim
    · rename_i hapi htarget
      exact (hinvoke _ hapi htarget).elim
    · exact hleads

namespace Governs

theorem new : log.Governs p {} where
  objects := fun h => by simp [Interned.get?, OrderedSet.get?, Interned.empty] at h
  edges := by
    rintro e (h | h)
    · exact absurd h (OrderedSet.not_mem_empty e)
    · exact absurd h List.not_mem_nil

variable {a : Addition} {u : Solver}

/-- An addition that is allowed leaves only what is allowed. -/
theorem of_adds (h : log.Governs p u) (hs : s.Scoped) (hsu : s.Accretes u)
    (ha : log.Allows p s a) (hadd : u.Adds p a t) : log.Governs p t where
  objects := by
    intro i x hi
    rcases hadd.heap_cases hi with hi | rfl
    · exact h.objects hi
    · exact ha
  edges := by
    intro e he
    have hsame : t.pointsTo = u.pointsTo := hadd.accretes.pointsTo
    rcases hadd.announces_cases he with he | hnew
    · rw [hsame]
      refine (h.edges he).mono (fun ho => ?_) hadd.accretes.heap id
      rw [hsu.pointsTo] at ho
      exact (hs.obj ho).2.of_grows hsu.heap
    · have hlater : ∀ {e}, log.AllowsEdge p s.heap s.pointsTo e →
          log.AllowsEdge p t.heap t.pointsTo e := by
        intro e he
        rw [hsame, hsu.pointsTo]
        exact he.mono (fun ho => (hs.obj ho).2) (hsu.heap.trans hadd.accretes.heap) id
      cases a with
      | enter receiver o e' =>
          obtain rfl := hnew
          exact hlater ha
      | call e' =>
          obtain rfl := hnew
          exact hlater ha
      | object | context | points | flow | note => exact hnew.elim

/-- The working in of a fact brings no objects and no edges. -/
theorem of_take {w : WorkItem} {rest : List WorkItem} (h : log.Governs p s) (hs : s.Scoped)
    (hq : s.queue = w :: rest) : log.Governs p (s.take p w rest) where
  objects := by
    intro i x hi
    rw [Solver.heap_take] at hi
    exact h.objects hi
  edges := fun he => (h.edges (Solver.announces_of_take hq he)).mono (fun ho => (hs.obj ho).2)
    (Solver.extends_take p hq).settled.heap fun ho => (Solver.extends_take p hq).settled.points ho

end Governs

/-- The rules of the analysis make no objects for reflective calls, and add no edges by
reflection. -/
theorem allows_of_coreRule {a : Addition} (ha : CoreRule env s a) :
    log.Allows env.program s a := by
  cases ha with
  | @object m index stmt lhs o onHeap hx ho =>
      intro site hkind
      cases stmt with
      | new => cases ho; cases hkind
      | literal lhs value => cases value <;> cases ho <;> cases hkind
      | _ => cases ho
  | static => exact fun payload hkind => by cases hkind
  | enter hd hc =>
      rintro payload rfl
      exact absurd (CallKind.isOrdinary_of_ofInvoke? hd.kind) (by simp [CallKind.isOrdinary])
  | heapContext | assign | flow | staticContext | access | callContext | wiring => trivial

end LogModel

/-! ## What is asked for -/

/-- What is asked for is allowed in a state. -/
def LogModel.Permits (p : Program) (s : Solver) (log : LogModel) : Request → Prop
  | .mock x => log.Allows p s (.object x.obj)
  | .addCall e => log.Allows p s (.call e)
  | .callContext .. | .heapContext _ | .obj _ | .pointsTo _ | .addPointsTo .. | .addFlow _
  | .note _ => True

/-- What may be relied on of an answer, in a conversation that began in a state. -/
def Request.Recalls (s : Solver) : (r : Request) → r.Answer → Prop
  | .obj i, x => s.heap.Has i → x = s.heap.get i
  | .pointsTo ptr, os => os = s.pointsTo.get ptr
  | .mock _, _ | .callContext .., _ | .heapContext _, _ | .addPointsTo .., _ | .addFlow _, _
  | .addCall _, _ | .note _, _ => True

/-- A conversation that began in a state asks only for what the log allows. -/
abbrev LogModel.Obeyed (p : Program) (s : Solver) (log : LogModel) {α : Type} (Q : α → Prop) :
    Service α → Prop :=
  Service.Asks (log.Permits p s) (Request.Recalls s) Q

open Service

variable {α : Type} {Q : α → Prop}

/-- What is asked for, if it is permitted, adds only what the log allows. -/
theorem evolves_of_permits {r : Request} {answer : r.Answer} {u v : Solver}
    (hr : log.Permits env.program s r) (h : r.answer env u = .ok answer v) :
    u.Evolves env.program (fun _ => log.Allows env.program s) v := by
  cases r with
  | mock x => exact (SolverM.internObj_ok env h).1.evolves hr
  | callContext site receiver => exact SolverM.evolves_callContext h fun _ _ => trivial
  | heapContext m => exact SolverM.evolves_heapContext h fun _ _ => trivial
  | obj o =>
      simp only [Request.answer, bind_eq_ok, get_eq_ok, pure_eq_ok] at h
      obtain ⟨_, _, ⟨rfl, rfl⟩, _, rfl⟩ := h
      exact .refl _
  | pointsTo ptr =>
      simp only [Request.answer, bind_eq_ok, get_eq_ok, pure_eq_ok] at h
      obtain ⟨_, _, ⟨rfl, rfl⟩, _, rfl⟩ := h
      exact .refl _
  | addPointsTo ptr os =>
      exact Solver.Adds.evolves (a := .points ptr os) (modify_eq_ok.1 h) trivial
  | addFlow e => exact Solver.Adds.evolves (a := .flow e) (modify_eq_ok.1 h) trivial
  | addCall e => exact Solver.Adds.evolves (a := .call e) (modify_eq_ok.1 h) hr
  | note line => exact Solver.Adds.evolves (a := .note line) (modify_eq_ok.1 h) trivial

/-- Since facts only accrete, an answer is as it would have been at the start. -/
theorem Request.recalls_of_answer {r : Request} {answer : r.Answer} {u v : Solver}
    (hsu : s.Accretes u) (h : r.answer env u = .ok answer v) : Request.Recalls s r answer := by
  cases r with
  | obj o =>
      simp only [Request.answer, bind_eq_ok, get_eq_ok, pure_eq_ok] at h
      obtain ⟨_, _, ⟨rfl, rfl⟩, rfl, rfl⟩ := h
      exact fun ho => Heap.get_of_grows ho hsu.heap
  | pointsTo ptr =>
      simp only [Request.answer, bind_eq_ok, get_eq_ok, pure_eq_ok] at h
      obtain ⟨_, _, ⟨rfl, rfl⟩, rfl, rfl⟩ := h
      exact congrArg (·.get ptr) hsu.pointsTo
  | mock | callContext | heapContext | addPointsTo | addFlow | addCall | note => trivial

/-- A conversation that asks only for what the log allows leaves a state that the log governs. -/
theorem LogModel.Governs.of_obeyed {x : Service α} {a : α}
    (hx : log.Obeyed env.program s Q x) (hs : s.Scoped) (h : log.Governs env.program s)
    (hrun : x.run env s = .ok a t) : log.Governs env.program t ∧ Q a := by
  refine (Asks.run_ok (I := fun u => s.Accretes u ∧ log.Governs env.program u) ?_ hx
    ⟨.refl s, h⟩ hrun).imp_left And.right
  rintro r answer u v hr hu hanswer
  refine ⟨(evolves_of_permits hr hanswer).keeps
    (I := fun u => s.Accretes u ∧ log.Governs env.program u) ?_ hu,
    Request.recalls_of_answer hu.1 hanswer⟩
  rintro u a v ⟨hsu, hu⟩ ha hadd
  exact ⟨hsu.trans hadd.accretes, hu.of_adds hs hsu ha hadd⟩

/-! ### Requests that are allowed -/

section Requests

variable {A : (r : Request) → r.Answer → Prop} {r : Request}

/-- Stand-ins may be asked for that are not made for reflective calls. -/
theorem LogModel.permits_mock {x : MockObj} (h : x.kind ≠ .reflective) :
    log.Permits p s (.mock x) := by
  intro site hkind
  simp only [MockObj.obj, ObjKind.mock.injEq] at hkind
  exact absurd hkind.1 h

/-- A method may be run at a call where edges to it are allowed. -/
theorem permits_of_runs {receiver : Option QObj} {m : MethodId} {kind : CallKind}
    (hr : Request.Runs A site receiver m kind r)
    (h : ∀ c, log.AllowsEdge p s.heap s.pointsTo ⟨site, ⟨c, m⟩, kind⟩) : log.Permits p s r := by
  cases hr with
  | context => trivial
  | edge => exact h _

theorem permits_of_runsOn {o : QObj} {m : MethodId} {kind : CallKind}
    (hr : Request.RunsOn p A site o m kind r)
    (h : ∀ c, log.AllowsEdge p s.heap s.pointsTo ⟨site, ⟨c, m⟩, kind⟩) : log.Permits p s r := by
  cases hr with
  | run hr => exact permits_of_runs hr h
  | receiver => trivial

/-- An object may be made, and a constructor run on it, at a call that the log does not speak of,
and where the log asks for both. -/
theorem Instantiating.permits {table : MockTable} {type : JavaType}
    {constructor? : Option MethodId} {payload : ReflectiveCall}
    (hr : Instantiating p A table site type constructor? payload r)
    (h : log.asked (p.invoke site.item) ≠ [] →
      ∃ claim ∈ log.asked (p.invoke site.item), claim.Makes p type ∧
        ∀ m ∈ constructor?, ∀ c, claim.Leads p s.heap s.pointsTo
          ⟨site, ⟨c, m⟩, .reflective payload⟩ payload) : log.Permits p s r := by
  cases hr with
  | make =>
      intro site' hkind hasked
      simp only [MockTable.wanted, MockObj.obj, ObjKind.mock.injEq, MockSite.invoke.injEq] at hkind
      obtain ⟨_, rfl⟩ := hkind
      obtain ⟨claim, hclaim, hmakes, _⟩ := h hasked
      exact ⟨claim, hclaim, hmakes⟩
  | heapContext | result => trivial
  | @run _ _ m _ _ _ _ hm hr =>
      refine permits_of_runsOn hr fun c payload' hkind hasked => ?_
      cases hkind
      obtain ⟨claim, hclaim, _, hleads⟩ := h hasked
      exact ⟨claim, hclaim, hleads m hm c⟩

/-- What the log asks of a call that invokes a method on some receivers. -/
structure LogModel.Invokes (p : Program) (s : Solver) (log : LogModel) (site : QSite)
    (target : MethodId) (O : QObj → Prop) (args : Option VarId) : Prop where
  claim : ∃ claim ∈ log.asked (p.invoke site.item), claim.api = .methodInvoke ∧
    claim.target = .method target
  args : args = (p.invoke site.item).args[1]?
  receivers : ∀ o, O o → ∃ r ∈ (p.invoke site.item).args.head?,
    o ∈ s.pointsTo.get (varPointer site.context r)

/-- A method may be invoked at a call that the log does not speak of, and where the log asks for
that. -/
theorem Invoking.permits {target : MethodId} {O : QObj → Prop} {args : Option VarId}
    (hr : Invoking p (Request.Recalls s) site target O args r) (hs : s.Scoped)
    (h : log.asked (p.invoke site.item) ≠ [] → log.Invokes p s site target O args) :
    log.Permits p s r := by
  -- an edge of the invocation is allowed if the callee is right
  have hallows : ∀ {m}, (p.method target).isConstructor = false →
      (log.Invokes p s site target O args →
        (p.method target).isStatic = true ∧ m = target ∨
          (p.method target).isStatic = false ∧ ∃ r ∈ (p.invoke site.item).args.head?,
            ∃ o ∈ s.pointsTo.get (varPointer site.context r),
              invokedOn? p target (s.heap.get o.item).type = some m) →
      ∀ c, log.AllowsEdge p s.heap s.pointsTo
        ⟨site, ⟨c, m⟩, .reflective { api := .methodInvoke, args }⟩ := by
    intro m hno hcallee c payload hkind hasked
    cases hkind
    have hinvokes := h hasked
    obtain ⟨claim, hclaim, hapi, htarget⟩ := hinvokes.claim
    refine ⟨claim, hclaim, ?_⟩
    simp only [Claim.Leads, hapi, htarget]
    exact ⟨hno, by rw [hinvokes.args], hcallee hinvokes⟩
  cases hr with
  | static hno hstatic hr => exact permits_of_runs hr (hallows hno fun _ => .inl ⟨hstatic, rfl⟩)
  | look => trivial
  | @run o x m _ hno hstatic ho hx hm hr =>
      refine permits_of_runsOn hr (hallows hno fun hinvokes => .inr ⟨hstatic, ?_⟩)
      obtain ⟨w, hw, hpoints⟩ := hinvokes.receivers o ho
      exact ⟨w, hw, o, hpoints, hx (hs.obj hpoints).2 ▸ hm⟩

end Requests

end Reflection

end PointsTo
