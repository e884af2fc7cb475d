import Mathlib.Data.Set.NAry
import PointsTo.Proofs.PluginConfinement
import PointsTo.Proofs.Refinement

/-!
# Every run ends

A run with the provided plugins stays within its universe, so there are only finitely many
points-to facts and call edges for it to learn.  A fact that is taken from the queue either
teaches the run one of them, or it leaves nothing behind it in the queue.  With what is still
unknown as the first component and the length of the queue as the second, every round of the
main loop therefore descends lexicographically.

Main results:

- {lit}`Universe.findings`: what a run can learn, which is finitely much
  ({lit}`Universe.finite_findings`).
- {lit}`Solver.unknown`: how much of it is still unknown.
- {lit}`Machine.Confined`: a machine within its universe; kept by every round of the main loop
  ({lit}`Machine.Confined.of_process`).
- Theorem {lit}`Machine.descends_of_process`: every round learns something or shortens the queue.
- {lit}`Machine.Ends`, and theorem {lit}`Machine.drain_ends`: the main loop ends if every round
  descends.
- Theorem {lit}`Analysis.runFrom_ends`: every run with the provided plugins ends.
-/

namespace PointsTo

/-! ## What a run can learn -/

/-- Something that is learned when a fact is worked in. -/
inductive Finding where
  | points (ptr : Pointer) (o : QObj)
  | call (e : CallEdge)

namespace Universe

variable (U : Universe)

/-- The ids of contexts. -/
def contextIds : Set ContextId := {c | c.index < U.contexts.ncard}

/-- The objects under heap contexts. -/
def qobjs : Set QObj := Set.image2 Qualified.mk U.contextIds {i | i.index < U.limit}

/-- The pointers of variables, fields, static fields and arrays. -/
def pointers : Set Pointer :=
  (fun x => Pointer.var x) '' Set.image2 Qualified.mk U.contextIds U.vars ∪
    Set.image2 Pointer.field U.qobjs U.fields ∪ Pointer.static '' U.fields ∪
    Pointer.array '' U.qobjs

/-- The kinds of call edges, with their payloads. -/
def kinds : Set CallKind :=
  {.static, .virtual, .interface, .special} ∪
    CallKind.lambda '' {call | call.captured ∈ U.captures ∧ call.lambdaContext ∈ U.contextIds ∧
      ∃ i, call.result ∈ [(U.program.invoke i).result]} ∪
    CallKind.reflective '' {call | ∀ v ∈ call.args, v ∈ U.args}

/-- The call edges between call sites and methods. -/
def calls : Set CallEdge :=
  {e | (e.site ∈ Set.image2 Qualified.mk U.contextIds U.sites) ∧
    (e.callee ∈ Set.image2 Qualified.mk U.contextIds U.methods) ∧ e.kind ∈ U.kinds}

/-- What a run can learn. -/
def findings : Set Finding := Set.image2 Finding.points U.pointers U.qobjs ∪ Finding.call '' U.calls

/-! ### Finitely many -/

/-- Finitely many numbers belong to finitely many ids. -/
theorem finite_ids (e : Entity) (n : Nat) : {i : Id e | i.index < n}.Finite := by
  refine ((Set.finite_lt_nat n).image Id.mk).subset ?_
  rintro ⟨i⟩ hi
  exact ⟨i, hi, rfl⟩

/-- There are finitely many ids of contexts. -/
theorem finite_contextIds : U.contextIds.Finite := finite_ids _ _

/-- There are finitely many objects under heap contexts. -/
theorem finite_qobjs : U.qobjs.Finite := U.finite_contextIds.image2 _ (finite_ids _ _)

/-- There are finitely many pointers. -/
theorem finite_pointers : U.pointers.Finite :=
  ((((U.finite_contextIds.image2 _ U.finite_vars).image _).union
    (U.finite_qobjs.image2 _ U.finite_fields)).union (U.finite_fields.image _)).union
    (U.finite_qobjs.image _)

/-- There are finitely many kinds of call edges. -/
theorem finite_kinds : U.kinds.Finite := by
  refine ((Set.toFinite _).union (Set.Finite.image _ ?_)).union (Set.Finite.image _ ?_)
  · have hresults := finite_listed U.program.finite_range_invoke fun call => [call.result]
    refine ((U.finite_captures.prod (U.finite_contextIds.prod hresults)).image
      fun x : List VarId × ContextId × Option VarId => LambdaCall.mk x.1 x.2.1 x.2.2).subset ?_
    rintro ⟨captured, context, result⟩ h
    exact ⟨(captured, context, result), h, rfl⟩
  · have happis : ({.classNewInstance, .constructorNewInstance, .methodInvoke} :
        Set ReflectiveApi).Finite := Set.toFinite _
    refine (happis.image2 ReflectiveCall.mk ((U.finite_args.image some).insert none)).subset ?_
    rintro ⟨api, args⟩ h
    refine ⟨api, by cases api <;> simp, args, ?_, rfl⟩
    cases args with
    | none => exact .inl rfl
    | some v => exact .inr ⟨v, h v rfl, rfl⟩

/-- There are finitely many call edges. -/
theorem finite_calls : U.calls.Finite := by
  refine (((U.finite_contextIds.image2 Qualified.mk U.finite_sites).prod
    ((U.finite_contextIds.image2 Qualified.mk U.finite_methods).prod U.finite_kinds)).image
    fun x : QSite × QMethod × CallKind => CallEdge.mk x.1 x.2.1 x.2.2).subset ?_
  rintro ⟨site, callee, kind⟩ h
  exact ⟨(site, callee, kind), h, rfl⟩

/-- There is finitely much to learn. -/
theorem finite_findings : U.findings.Finite :=
  (U.finite_pointers.image2 _ U.finite_qobjs).union (U.finite_calls.image _)

end Universe

namespace Solver

variable {U : Universe} {s t : Solver}

/-! ### What a state knows of it -/

/-- A points-to fact or a call edge has been worked in. -/
def Knows (s : Solver) : Finding → Prop
  | .points ptr o => o ∈ s.pointsTo.get ptr
  | .call e => e ∈ s.calls.edges

/-- What a run knows it knows from then on. -/
theorem Knows.of_extends {x : Finding} (h : s.Knows x) (hext : s.Extends t) : t.Knows x := by
  cases x with
  | points ptr o => exact hext.settled.points h
  | call e => exact hext.settled.call h

/-- A points-to fact that is on its way is one that the run can learn. -/
theorem Confined.points_mem_findings {ptr : Pointer} {o : QObj} (h : s.Confined U)
    (hs : s.Scoped) (ho : s.Owes ptr o) : .points ptr o ∈ U.findings := by
  have hqobj : ∀ {o : QObj}, s.settled.HasObj o → o ∈ U.qobjs := fun ho =>
    ⟨_, h.context_index_lt ho.1, _, h.obj_index_lt ho.2, rfl⟩
  obtain ⟨hptr, hobj⟩ := hs.owes ho
  have hconfined := h.owes ho
  refine .inl ⟨ptr, ?_, o, hqobj hobj, rfl⟩
  cases ptr with
  | var v =>
      exact .inl (.inl (.inl ⟨v, ⟨_, h.context_index_lt hptr, _, hconfined, rfl⟩, rfl⟩))
  | field o f => exact .inl (.inl (.inr ⟨o, hqobj hptr, f, hconfined, rfl⟩))
  | static f => exact .inl (.inr ⟨f, hconfined, rfl⟩)
  | array o => exact .inr ⟨o, hqobj hptr, rfl⟩

/-- And so is a call edge that is on its way. -/
theorem Confined.call_mem_findings {e : CallEdge} (h : s.Confined U) (hs : s.Scoped)
    (he : s.Announces e) : .call e ∈ U.findings := by
  have hexists := hs.call he
  obtain ⟨hsite, hcallee, hkind⟩ := h.call he
  refine .inr ⟨e, ⟨⟨_, h.context_index_lt hexists.site, _, hsite, rfl⟩,
    ⟨_, h.context_index_lt hexists.callee, _, hcallee, rfl⟩, ?_⟩, rfl⟩
  cases hk : e.kind with
  | static | virtual | interface | special => exact .inl (.inl (by simp))
  | lambda call =>
      rw [hk] at hkind
      refine .inl (.inr ⟨call, ⟨hkind.1, h.context_index_lt (hexists.payload call hk), ?_⟩, rfl⟩)
      exact ⟨e.site.item, List.mem_singleton.2 hkind.2⟩
  | reflective call =>
      rw [hk] at hkind
      exact .inr ⟨call, hkind, rfl⟩

/-- The number of findings that are still to be made. -/
noncomputable def unknown (U : Universe) (s : Solver) : Nat :=
  {x ∈ U.findings | ¬ s.Knows x}.ncard

/-- Nothing that is known is forgotten. -/
theorem unknown_subset_of_extends (h : s.Extends t) :
    {x ∈ U.findings | ¬ t.Knows x} ⊆ {x ∈ U.findings | ¬ s.Knows x} :=
  fun _ hx => ⟨hx.1, fun hknown => hx.2 (hknown.of_extends h)⟩

/-- Finitely much is unknown. -/
theorem finite_unknown (U : Universe) (s : Solver) : {x ∈ U.findings | ¬ s.Knows x}.Finite :=
  U.finite_findings.subset fun _ hx => hx.1

/-- No more is unknown later than before. -/
theorem unknown_le_of_extends (h : s.Extends t) : t.unknown U ≤ s.unknown U :=
  Set.ncard_le_ncard (unknown_subset_of_extends h) (finite_unknown U s)

/-- A state that has learned something has less to learn. -/
theorem unknown_lt_of_knows {x : Finding} (h : s.Extends t) (hx : x ∈ U.findings)
    (hs : ¬ s.Knows x) (ht : t.Knows x) : t.unknown U < s.unknown U := by
  refine Set.ncard_lt_ncard ?_ (finite_unknown U s)
  exact (Set.ssubset_iff_of_subset (unknown_subset_of_extends h)).2
    ⟨x, ⟨hx, hs⟩, fun hunknown => hunknown.2 ht⟩

/-! ### Facts that teach nothing -/

/-- Objects that are known already are not passed on. -/
theorem queue_take_of_known {p : Program} {ptr : Pointer} {os : ObjSet} {rest : List WorkItem}
    (h : s.delta ptr os = .empty) : (s.take p (.pointsTo ptr os) rest).queue = rest := by
  have hforward : ∀ (es : List FlowEdge) (u : Solver),
      es.foldl (fun t e => t.forward p .empty e) u = u := by
    intro es
    induction es with
    | nil => exact fun _ => rfl
    | cons e es ih =>
        intro u
        have hpassing : u.passing p e.filter .empty = .empty := by
          cases e.filter <;> rfl
        have hsame : u.forward p .empty e = u := by
          simp only [forward, hpassing, addPointsTo]
          rfl
        rw [List.foldl_cons, hsame]
        exact ih u
  have hdelta : Solver.delta { s with queue := rest, processed := s.processed + 1 } ptr os =
      .empty := h
  simp only [take, propagate, hdelta, hforward]

end Solver

/-! ## Machines within their universe -/

namespace Machine

variable {U : Universe} {m n : Machine Member} {w : WorkItem} {rest : List WorkItem}

/-- All that a machine and its plugins mention exists, and is of the universe. -/
structure Confined (U : Universe) (m : Machine Member) : Prop where
  sound : m.Scoped fun k p => p.Sound U.program k
  solver : m.solver.Confined U
  plugins : ∀ p ∈ m.plugins, p.Confined U

namespace Confined

variable (hb : U.program.Built) (h : m.Confined U)

include hb h

/-- A machine stays within its universe when a rule or a plugin acts. -/
theorem of_act (ha : Act Member.plugin U.env m n) : n.Confined U := by
  have hscoped := h.sound.of_acts (Member.honest hb) ha.acts
  obtain ⟨⟨hs, _⟩, hsolver, hplugins⟩ := h
  cases ha with
  | rule he =>
      refine ⟨hscoped, ?_, hplugins⟩
      exact (he.keeps (I := fun s => s.Scoped ∧ s.Confined U) (fun hI hrule hadd =>
        ⟨hI.1.of_adds (hrule.exists hI.1) hadd,
          hI.2.of_adds (hrule.confined hb hI.2 hI.1) hadd⟩) ⟨hs, hsolver⟩).2
  | @react s t pre p q post e hholds hr =>
      have hp := hplugins p (List.mem_append_right _ List.mem_cons_self)
      have hreact := Member.confined_react (hholds.confined hb hsolver hs) hp
      obtain ⟨ht, hq⟩ := hreact.run_ok hsolver (fun ho => hsolver.obj_index_lt (hs.obj ho).2) hr
      refine ⟨hscoped, ht, ?_⟩
      intro p' hp'
      rcases List.mem_append.1 hp' with hpre | hpost
      · exact hplugins p' (List.mem_append_left _ hpre)
      · rcases List.mem_cons.1 hpost with rfl | hpost
        · exact hq
        · exact hplugins p' (List.mem_append_right _ (List.mem_cons_of_mem _ hpost))

/-- It does so while they act. -/
theorem of_acts (ha : Acts Member.plugin U.env m n) : n.Confined U := by
  induction ha with
  | refl => exact h
  | tail _ hstep ih => exact ih.of_act hb hstep

/-- It does so when plugins are told of something. -/
theorem of_tell {e : Event} (ht : tell Member.plugin U.env e m = .ok ⟨⟩ n)
    (he : e.Holds U.env m.solver) : n.Confined U :=
  h.of_acts hb (tell_acts ht he)

/-- It does so when a method of the universe is reached. -/
theorem of_reach {q : QMethod} (hr : reach Member.plugin U.env q m = .ok ⟨⟩ n)
    (hq : m.solver.contexts.Has q.context) (hmethod : q.item ∈ U.methods) : n.Confined U := by
  have hdiscover : (m.discover q).Confined U :=
    ⟨h.sound.of_le (Member.honest hb) (h.sound.1.of_discover hq)
      (Solver.extends_discover m.solver q).settled rfl, h.solver.of_discover hmethod, h.plugins⟩
  rcases reach_ok hr hq with ⟨_, rfl⟩ | hentered
  · exact h
  · exact hdiscover.of_acts hb hentered.acts

/-- It does so when a fact is taken. -/
theorem of_taken (hq : m.solver.queue = w :: rest) : (m.taken U.env w rest).Confined U :=
  ⟨h.sound.of_le (Member.honest hb) (h.sound.1.of_take hq)
    (Solver.extends_take U.program hq).settled rfl, h.solver.of_take hq, h.plugins⟩

/-- One round of the main loop stays within the universe. -/
theorem of_process (hq : m.solver.queue = w :: rest)
    (hp : process Member.plugin U.env w { m with solver := { m.solver with queue := rest } } =
      .ok ⟨⟩ n) : n.Confined U :=
  (h.of_taken hb hq).of_acts hb (process_acts hp (h.sound.1.exists_of_queue hq))

end Confined

/-- Entering the entry methods stays within the universe. -/
theorem confined_of_enter {members : List Member} (hb : U.program.Built)
    (hsound : ∀ p ∈ members, p.Sound U.program ({} : Solver).settled)
    (hconfined : ∀ p ∈ members, p.Confined U)
    (h : enter Member.plugin U.env U.entries (.new members) = .ok ⟨⟩ n) : n.Confined U := by
  have hnew : Confined U (.new members) := ⟨⟨.new, hsound⟩, .new, hconfined⟩
  refine keeps_of_enter h ?_ ?_
  · exact fun htell => hnew.of_tell hb htell trivial
  · exact fun hi hu hreach => hu.of_reach hb hreach hu.sound.1.empty
      (Universe.mem_methods_of_entry hi)

/-! ## Descent -/

section Known

variable {σ : Type} {P : Plugin σ} {env : Setting} {m n : Machine σ}

/-- Objects that are known already are worked in, and that is all. -/
theorem taken_of_known {ptr : Pointer} {os : ObjSet}
    (h : process P env (.pointsTo ptr os) { m with solver := { m.solver with queue := rest } } =
      .ok ⟨⟩ n)
    (hknown : m.solver.delta ptr os = .empty) : n = m.taken env (.pointsTo ptr os) rest := by
  simp only [process, bind_eq_ok] at h
  obtain ⟨_, m₁, hcount, h⟩ := h
  obtain rfl := count_ok hcount
  simp only [processPointsTo, bind_eq_ok, get_eq_ok] at h
  obtain ⟨_, _, ⟨rfl, rfl⟩, _, m₁, hm₁, h⟩ := h
  obtain rfl := modifySolver_eq_ok.1 hm₁
  have hdelta : Solver.delta
      { m.solver with queue := rest, processed := m.solver.processed + 1 } ptr os = .empty := hknown
  cases ptr with
  | field | static | array => exact (pure_eq_ok.1 h).2.symm
  | var v =>
      rw [hdelta] at h
      exact (pure_eq_ok.1 h).2.symm

end Known

/-- A round of the main loop learns something, or it forgets nothing and leaves what waited
behind the fact that it took. -/
theorem descends_of_process (h : m.Confined U) (hq : m.solver.queue = w :: rest)
    (hp : process Member.plugin U.env w { m with solver := { m.solver with queue := rest } } =
      .ok ⟨⟩ n) :
    n.solver.unknown U < m.solver.unknown U ∨
      n.solver.unknown U ≤ m.solver.unknown U ∧ n.solver.queue = rest := by
  have hexists := h.sound.1.exists_of_queue hq
  have hacts := process_acts hp hexists
  have hextends := (Solver.extends_take U.program hq).trans hacts.accretes.extends
  have hmem : w ∈ m.solver.queue := hq ▸ List.mem_cons_self
  cases w with
  | pointsTo ptr os =>
      by_cases hknown : m.solver.delta ptr os = .empty
      · obtain rfl := taken_of_known hp hknown
        exact .inr ⟨Solver.unknown_le_of_extends hextends, Solver.queue_take_of_known hknown⟩
      · obtain ⟨o, ho⟩ : ∃ o, o ∈ m.solver.delta ptr os :=
          OrderedSet.not_isEmpty_iff.1 fun hempty => hknown (OrderedSet.isEmpty_iff.1 hempty)
        obtain ⟨hos, hnew⟩ := OrderedSet.mem_newIn.1 ho
        refine .inl (Solver.unknown_lt_of_knows hextends
          (h.solver.points_mem_findings h.sound.1 (.inr ⟨os, hmem, hos⟩)) hnew ?_)
        show o ∈ n.solver.pointsTo.get ptr
        rw [hacts.accretes.pointsTo]
        exact Solver.mem_pointsTo_take_pointsTo.2 (.inr ⟨rfl, ho⟩)
  | call e =>
      rcases process_call_ok hp hexists with ⟨_, rfl⟩ | ⟨hnew, _⟩
      · exact .inr ⟨Solver.unknown_le_of_extends hextends,
          Solver.queue_take_call m.solver U.program e rest⟩
      · refine .inl (Solver.unknown_lt_of_knows hextends
          (h.solver.call_mem_findings h.sound.1 (.inr hmem)) hnew ?_)
        show e ∈ n.solver.calls.edges
        rw [hacts.accretes.calls]
        exact (Solver.mem_edges_take_call (p := U.program)).2 (.inl rfl)

/-! ## Loops that end -/

section Ends

variable {σ : Type} {P : Plugin σ} {env : Setting} {m : Machine σ}

/-- The main loop goes on after a round that succeeds. -/
theorem drain_of_process_ok {n : Machine σ} (hq : m.solver.queue = w :: rest)
    (hp : process P env w { m with solver := { m.solver with queue := rest } } = .ok ⟨⟩ n)
    (steps : Nat) : drain P env (steps + 1) m = drain P env steps n := by
  rw [drain]
  split
  · rename_i hnil
    cases hq.symm.trans hnil
  · rename_i w' rest' hcons
    cases hq.symm.trans hcons
    simp only [hp]

/-- And it stops after one that fails. -/
theorem drain_of_process_error {e : Error} {n : Machine σ} (hq : m.solver.queue = w :: rest)
    (hp : process P env w { m with solver := { m.solver with queue := rest } } = .error e n)
    (steps : Nat) : drain P env (steps + 1) m = (.failed e, n) := by
  rw [drain]
  split
  · rename_i hnil
    cases hq.symm.trans hnil
  · rename_i w' rest' hcons
    cases hq.symm.trans hcons
    simp only [hp]

/-- From some number of steps on a computation ends in one and the same way: it fails, or it
finishes with an empty queue and in a machine as {lit}`Q` says. -/
def Ends (Q : Machine σ → Prop) (run : Nat → Outcome × Machine σ) : Prop :=
  ∃ bound, (∃ n, (Q n ∧ n.solver.queue = []) ∧ ∀ steps ≥ bound, run steps = (.finished, n)) ∨
    ∃ e n, ∀ steps ≥ bound, run steps = (.failed e, n)

/-- A computation ends if from some number of steps on it is another one that does, a number of
steps later. -/
theorem Ends.of_later {Q : Machine σ → Prop} {run run' : Nat → Outcome × Machine σ}
    (h : Ends Q run) (start delay : Nat)
    (hrun : ∀ steps ≥ start, run' (steps + delay) = run steps) : Ends Q run' := by
  obtain ⟨bound, hends⟩ := h
  have hlater : ∀ {out}, (∀ steps ≥ bound, run steps = out) →
      ∀ steps ≥ max bound start + delay, run' steps = out := by
    intro out hout steps hsteps
    obtain ⟨steps, rfl⟩ := Nat.exists_eq_add_of_le' (Nat.le_of_add_left_le hsteps)
    have hmax : max bound start ≤ steps := Nat.le_of_add_le_add_right hsteps
    rw [hrun steps (Nat.le_trans (Nat.le_max_right _ _) hmax)]
    exact hout steps (Nat.le_trans (Nat.le_max_left _ _) hmax)
  refine ⟨max bound start + delay, hends.imp ?_ ?_⟩
  · rintro ⟨n, hn, hout⟩
    exact ⟨n, hn, hlater hout⟩
  · rintro ⟨e, n, hout⟩
    exact ⟨e, n, hlater hout⟩

/-- The main loop ends if every round keeps an invariant and descends: either the rank becomes
smaller, or it does not become larger and the queue becomes shorter. -/
theorem drain_ends {I : Machine σ → Prop} (rank : Machine σ → Nat)
    (hround : ∀ {m n w rest}, I m → m.solver.queue = w :: rest →
      process P env w { m with solver := { m.solver with queue := rest } } = .ok ⟨⟩ n →
        I n ∧ (rank n < rank m ∨ rank n ≤ rank m ∧ n.solver.queue = rest))
    (hm : I m) : Ends I fun steps => drain P env steps m := by
  -- the lexicographic order of rank and length of the queue
  induction hk : (rank m, m.solver.queue.length) using WellFounded.induction
    (Prod.lex Nat.lt_wfRel Nat.lt_wfRel).wf generalizing m with
  | _ k ih =>
  subst hk
  cases hq : m.solver.queue with
  | nil => exact ⟨0, .inl ⟨m, ⟨hm, hq⟩, fun steps _ => drain_of_queue_eq_nil P env hq steps⟩⟩
  | cons w rest =>
      cases hp : process P env w { m with solver := { m.solver with queue := rest } } with
      | error e n =>
          refine ⟨1, .inr ⟨e, n, fun steps hsteps => ?_⟩⟩
          obtain ⟨steps, rfl⟩ := Nat.exists_eq_add_of_le' hsteps
          exact drain_of_process_error hq hp steps
      | ok _ n =>
          obtain ⟨hn, hdescends⟩ := hround hm hq hp
          have hlex : Prod.Lex (· < ·) (· < ·) (rank n, n.solver.queue.length)
              (rank m, m.solver.queue.length) := by
            rcases hdescends with hlt | ⟨hle, hqueue⟩
            · exact .left _ _ hlt
            · rcases Nat.lt_or_eq_of_le hle with hlt | heq
              · exact .left _ _ hlt
              · rw [heq, hqueue, hq]
                exact .right _ (Nat.lt_succ_self _)
          exact (ih _ hlex hn rfl).of_later 0 1 fun steps _ => drain_of_process_ok hq hp steps

/-- What is settled ends if the main loop does after the computation that is settled. -/
theorem settle_ends {Q : Machine σ → Prop} {x : MachineM σ Unit}
    (hdrain : ∀ {n}, x m = .ok ⟨⟩ n → Ends Q fun steps => drain P env steps n) :
    Ends Q fun steps => settle P env steps x m := by
  unfold settle
  cases hx : x m with
  | ok _ n => exact hdrain hx
  | error e n => exact ⟨0, .inr ⟨e, n, fun _ _ => rfl⟩⟩

/-- A run ends if both of its fixpoints are reached. -/
theorem solve_ends {Q : Machine σ → Prop} {entries : List MethodId}
    (hfirst : Ends Q fun steps => settle P env steps (enter P env entries) m)
    (hsecond : ∀ {n}, Q n → Ends Q fun steps => settle P env steps (tell P env .finish) n) :
    Ends Q fun steps => solve P env steps entries m := by
  obtain ⟨bound, ⟨n, ⟨hn, _⟩, hrun⟩ | ⟨e, n, hrun⟩⟩ := hfirst
  · refine (hsecond hn).of_later bound 0 fun steps hsteps => ?_
    have hfinished : settle P env steps (enter P env entries) m = (.finished, n) :=
      hrun steps hsteps
    dsimp only [Nat.add_zero]
    unfold solve
    rw [hfinished]
  · refine ⟨bound, .inr ⟨e, n, fun steps hsteps => ?_⟩⟩
    have hfailed : settle P env steps (enter P env entries) m = (.failed e, n) := hrun steps hsteps
    dsimp only
    unfold solve
    rw [hfailed]

end Ends

/-- The main loop ends within the universe. -/
theorem Confined.drain_ends (hb : U.program.Built) (h : m.Confined U) :
    Ends (Confined U) fun steps => drain Member.plugin U.env steps m :=
  Machine.drain_ends (I := Confined U) (fun m => m.solver.unknown U)
    (fun hm hq hp => ⟨hm.of_process hb hq hp, descends_of_process hm hq hp⟩) h

end Machine

/-! ## Analyses -/

/-- A run with the plugins that the options ask for ends, whatever the program, the options and
the entry methods are: from some number of steps on it finishes with one and the same result, in
which no fact waits to be worked in, or it fails with one and the same error. -/
theorem Analysis.runFrom_ends {a : Analysis} (hextra : a.extra = []) (ds : List Declaration)
    {p : Program} (hbuild : (Builder.ofList ds).build = .ok p) (files : Reflection.Files)
    (entries : List MethodId) :
    ∃ bound,
      (∃ result, result.solver.queue = [] ∧
        ∀ steps ≥ bound, a.runFrom steps p files entries = .finished result) ∨
      ∃ e notes, ∀ steps ≥ bound, a.runFrom steps p files entries = .failed e notes := by
  have hb : (a.setting p).program.Built :=
    Program.built_of_build (Builder.numbered_ofList ds) hbuild
  let U : Universe := ⟨a.setting p, entries⟩
  unfold Analysis.runFrom
  cases hmembers : a.members p files with
  | error e => exact ⟨0, .inr ⟨e, [], fun _ _ => rfl⟩⟩
  | ok members =>
      have hsound : ∀ m ∈ members, m.Sound p ({} : Solver).settled :=
        Analysis.sound_members hmembers (by simp [hextra])
      have hconfined : ∀ m ∈ members, m.Confined U := Analysis.confined_members hmembers hextra
      have hends : Machine.Ends (Machine.Confined U) fun steps =>
          Machine.solve Member.plugin (a.setting p) steps entries (.new members) :=
        Machine.solve_ends
          (Machine.settle_ends fun h =>
            (Machine.confined_of_enter (U := U) hb hsound hconfined h).drain_ends hb)
          (fun hn => Machine.settle_ends fun h => (hn.of_tell hb h trivial).drain_ends hb)
      obtain ⟨bound, ⟨n, ⟨_, hqueue⟩, hrun⟩ | ⟨e, n, hrun⟩⟩ := hends
      · refine ⟨bound, .inl ⟨⟨n.solver, a.options.context⟩, hqueue, fun steps hsteps => ?_⟩⟩
        have hfinished : Machine.solve Member.plugin (a.setting p) steps entries (.new members) =
          (.finished, n) := hrun steps hsteps
        simp only [hfinished]
      · refine ⟨bound, .inr ⟨e, n.solver.notes, fun steps hsteps => ?_⟩⟩
        have hfailed : Machine.solve Member.plugin (a.setting p) steps entries (.new members) =
          (.failed e, n) := hrun steps hsteps
        simp only [hfailed]

/-- A method that makes an object and calls itself on it. -/
def recursiveProgram : List Declaration :=
  [.cls (.plain "A"), .method ⟨"A", "m", [], .void, false, false, true⟩,
    .var ⟨0⟩ "next" (.cls "A"), .stmt ⟨0⟩ (.new ⟨1⟩ (.cls "A")),
    .call ⟨0⟩ ⟨.virtual, ⟨"A", "m", [], .void⟩, some ⟨1⟩, [], none⟩]

/-- With the objects that it is called on as contexts, the run from the method ends. -/
theorem Analysis.runFrom_ends_recursive :
    let a : Analysis :=
      { options := { oneCallSite true true with context := .object, k := 2, heapDepth := 1 } }
    let p := (settingOf recursiveProgram a.options).program
    (a.runFrom 10 p (fun _ => none) [⟨0⟩]).isFinished = true ∧
      ∃ bound,
        (∃ result, result.solver.queue = [] ∧
          ∀ steps ≥ bound, a.runFrom steps p (fun _ => none) [⟨0⟩] = .finished result) ∨
        ∃ e notes, ∀ steps ≥ bound, a.runFrom steps p (fun _ => none) [⟨0⟩] = .failed e notes := by
  intro a p
  have hbuild : (Builder.ofList recursiveProgram).build = .ok p :=
    Program.build_of_checks (by decide +kernel) (by decide +kernel)
  exact ⟨by decide +kernel, Analysis.runFrom_ends rfl recursiveProgram hbuild _ [⟨0⟩]⟩

end PointsTo
