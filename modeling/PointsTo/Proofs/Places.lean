import PointsTo.Proofs.Homes
import PointsTo.Proofs.PluginRules

/-!
# Where additions lie

Variables and call sites lie in methods under contexts.  The rules of the analysis and of the
plugins bring nothing to other methods than those in which they find something.  An invariant
that puts everything into methods of some kind is therefore kept by every rule.

Main results:

- {lit}`Solver.Lies`: what has been worked in lies in methods of some kind.
- {lit}`Addition.LiesIn`: what an addition brings does; theorems {lit}`Solver.Lies.of_coreRule` and
  {lit}`Solver.Lies.of_pluginRule`: this is so whatever rule it follows.
- Theorems {lit}`Machine.keeps_of_visits`, {lit}`Machine.holds_of_visits`: what additions by the
  rules, discoveries and the working in of facts keep holds at every stage of a run.
-/

namespace PointsTo

variable {env : Setting} {s t : Solver} {L L' : QMethod → Prop}

/-- If the pointer is a variable, its method is of the kind. -/
def Pointer.LiesIn (p : Program) (L : QMethod → Prop) (ptr : Pointer) : Prop :=
  ∀ v, ptr = .var v → L (p.home v)

/-- The edge leaves a method of the kind, carries the result of its call, and leads to a context
that is selected for the call. -/
structure CallEdge.LiesIn (env : Setting) (s : Solver) (L : QMethod → Prop) (e : CallEdge) :
    Prop where
  host : L (env.program.host e.site)
  returns : e.Returns env.program
  selected : e.Selected env s.settled

/-- What an addition brings lies in methods of the kind.  A method that is called on an object
may be of another one, but the object reaches its receiver. -/
def Addition.LiesIn (env : Setting) (s : Solver) (L : QMethod → Prop) : Addition → Prop
  | .points ptr _ => ptr.LiesIn env.program L
  | .flow f => f.target.LiesIn env.program L
  | .enter receiver _ e => e.LiesIn env s L ∧
      receiver = (env.program.method e.callee.item).receiver
  | .call e => e.LiesIn env s L
  | .object _ | .context _ | .note _ => True

namespace Solver

/-- What has been worked in lies in methods of the kind. -/
structure Lies (p : Program) (L : QMethod → Prop) (s : Solver) : Prop where
  reached : ∀ {q}, q ∈ s.calls.reachableIn → L q
  points : ∀ {v o}, o ∈ s.pointsTo.get (.var v) → L (p.home v)
  host : ∀ {e}, e ∈ s.calls.edges → L (p.host e.site)
  callee : ∀ {e}, e ∈ s.calls.edges → L e.callee
  returns : ∀ {e}, e ∈ s.calls.edges → e.Returns p

namespace Lies

/-! ## The rules -/

/-- Where something can be done at a call site, its method is of the kind. -/
theorem of_acting (h : s.Lies env.program L) (htidy : env.program.Tidy) {site : QSite}
    (hacting : s.settled.Acting env.program site) : L (env.program.host site) := by
  rcases hacting.reason with ⟨m, hm, rfl | hsite⟩ | ⟨v, hv, o, ho⟩
  · exact h.reached hm
  · rw [Program.host, htidy.placed m site.item hsite]
    exact h.reached hm
  · rw [← htidy.home_eq_host _ hv]
    exact h.points ho

/-- What flows along a call edge stays in its two methods. -/
theorem of_feeds (h : s.Lies env.program L) (hhoused : env.program.Housed)
    (htidy : env.program.Tidy) {e : CallEdge} {ptr : Pointer} (he : e ∈ s.calls.edges)
    (hfeeds : e.Feeds env.program ptr) : ptr.LiesIn env.program L := by
  intro v hv
  -- a result is mentioned by its call
  have hresult : ∀ r ∈ (env.program.invoke e.site.item).result,
      L (env.program.home ⟨e.site.context, r⟩) := by
    intro r hr
    rw [htidy.home_eq_host e.site (by simp [Program.mentioned, Option.mem_def.1 hr])]
    exact h.host he
  cases hfeeds with
  | param hp =>
      cases hv
      rw [hhoused.home_eq (m := e.callee) (.inr hp)]
      exact h.callee he
  | receiver hp =>
      cases hv
      rw [hhoused.home_eq (m := e.callee) (.inl hp)]
      exact h.callee he
  | result hr =>
      cases hv
      exact hresult _ hr
  | lambdaResult hk hr =>
      cases hv
      rw [h.returns he _ hk] at hr
      exact hresult _ hr

/-- The base of an access is in the method that the object flows in. -/
theorem of_accessEdges (h : s.Lies env.program L) (hb : env.program.Built)
    (htidy : env.program.Tidy) {v : QVar} {o : QObj} {f : FlowEdge}
    (ho : o ∈ s.pointsTo.get (.var v)) (hf : f ∈ accessEdges env.program s.heap v o) :
    f.target.LiesIn env.program L := by
  intro v' hv
  -- both variables are mentioned by the statement of the access
  have hsame : ∀ {lhs stmt}, env.program.HasStmt stmt → lhs ∈ env.program.mentioned stmt →
      v.item ∈ env.program.mentioned stmt → L (env.program.home ⟨v.context, lhs⟩) := by
    rintro lhs stmt ⟨m, hstmt⟩ hlhs hbase
    rw [htidy.home_eq (m := ⟨v.context, m⟩) hstmt hlhs,
      ← htidy.home_eq (m := ⟨v.context, m⟩) hstmt hbase]
    exact h.points ho
  cases mem_accessEdges.1 hf with
  | load huse =>
      cases hv
      exact hsame (hb.mem_loads.1 huse) (by simp [Program.mentioned]) (by simp [Program.mentioned])
  | loadArray huse =>
      cases hv
      exact hsame (hb.mem_arrayLoads.1 huse) (by simp [Program.mentioned])
        (by simp [Program.mentioned])
  | store | storeArray => cases hv

/-- The rules of the analysis bring nothing that lies elsewhere. -/
theorem of_coreRule {a : Addition} (h : s.Lies env.program L) (hb : env.program.Built)
    (hhoused : env.program.Housed) (htidy : env.program.Tidy) (ha : CoreRule env s a) :
    a.LiesIn env s L := by
  cases ha with
  | object | heapContext | staticContext | callContext => trivial
  | @assign m index stmt lhs o onHeap i c hx ho =>
      rintro v ⟨⟩
      have hlhs : lhs ∈ env.program.mentioned stmt := by
        cases stmt with
        | new => simp_all [Stmt.obj?, Program.mentioned]
        | literal lhs value => cases value <;> simp_all [Stmt.obj?, Program.mentioned]
        | _ => simp [Stmt.obj?] at ho
      rw [htidy.home_eq (m := m) (List.mem_of_getElem? hx.stmt) hlhs]
      exact h.reached hx.reachable
  | @flow m index stmt f hx hf =>
      intro v hv
      have hlhs : v.context = m.context ∧ v.item ∈ env.program.mentioned stmt := by
        cases stmt with
        | copy | cast | loadStatic =>
            cases hf
            cases hv
            simp [Program.mentioned]
        | storeStatic =>
            cases hf
            cases hv
        | _ => simp [Stmt.flow?] at hf
      have hhome := htidy.home_eq (m := m) (List.mem_of_getElem? hx.stmt) hlhs.2
      rw [← hlhs.1] at hhome
      rw [show env.program.home v = m from hhome]
      exact h.reached hx.reachable
  | @static m index site callee c hx _ hc =>
      refine ⟨?_, CallEdge.returns_of_kind (by simp), ⟨none, hc⟩⟩
      rw [Program.host, htidy.placed m.item site (List.mem_of_getElem? hx.stmt)]
      exact h.reached hx.reachable
  | access ho he => exact h.of_accessEdges hb htidy ho he
  | @enter v o site callee kind c hd hc =>
      have hbase := (hb.mem_invokes.1 hd.use).2.1
      refine ⟨⟨?_, ?_, ⟨some o, hc⟩⟩, rfl⟩
      · have hmention : v.item ∈ env.program.mentioned (.invoke site) := by
          simp [Program.mentioned, hbase]
        rw [← htidy.home_eq_host ⟨v.context, site⟩ hmention]
        exact h.points hd.points
      · rintro call rfl
        exact absurd (CallKind.isOrdinary_of_ofInvoke? hd.kind) (by simp [CallKind.isOrdinary])
  | wiring he _ hf => exact h.of_feeds hhoused htidy he (CallEdge.feeds_of_ordinaryWiring hf)

/-- The rules of the provided plugins bring nothing that lies elsewhere. -/
theorem of_pluginRule {a : Addition} (h : s.Lies env.program L) (hhoused : env.program.Housed)
    (htidy : env.program.Tidy) (ha : PluginRule env s a) : a.LiesIn env s L := by
  cases ha with
  | object | context | note => trivial
  | yield hacting hr =>
      rintro v ⟨⟩
      rw [htidy.home_eq_host _ (by simp [Program.mentioned, Option.mem_def.1 hr])]
      exact h.of_acting htidy hacting
  | enter hacting hreturns hselected =>
      exact ⟨⟨h.of_acting htidy hacting, hreturns, hselected⟩, rfl⟩
  | call hacting hreturns hselected => exact ⟨h.of_acting htidy hacting, hreturns, hselected⟩
  | flow he hf => exact h.of_feeds hhoused htidy he hf

end Lies

end Solver

/-! ## Runs -/

section Runs

variable {σ : Type} {P : Plugin σ} {K : View → σ → Prop} {rules : Solver → Addition → Prop}
  {I : Solver → Prop} {entries : List MethodId} {plugins : List σ} {stage : Machine.Stage σ}

/-- What additions by the rules keep is kept by sequences of them. -/
theorem Solver.Evolves.keeps_scoped {p : Program} (h : s.Evolves p rules t)
    (hexists : ∀ {s a}, s.Scoped → rules s a → a.Exists s.settled)
    (hadds : ∀ {s a t}, s.Scoped → I s → rules s a → s.Adds p a t → I t) (hs : s.Scoped)
    (hI : I s) : I t := by
  refine (h.keeps (I := fun u => u.Scoped ∧ I u) ?_ ⟨hs, hI⟩).2
  rintro u a v ⟨hu, hIu⟩ hrule hadd
  exact ⟨hu.of_adds (hexists hu hrule) hadd, hadds hu hIu hrule hadd⟩

/-- What additions by the rules of the analysis and the reactions of honest plugins keep is kept
by what is done between two rounds; the plugins may remember what they need to keep it. -/
theorem Machine.keeps_of_acts {J : σ → Prop} {m n : Machine σ} (hP : P.Honest env rules K)
    (hrule : ∀ {s a t}, s.Scoped → I s → CoreRule env s a → s.Adds env.program a t → I t)
    (hreact : ∀ {s t e p q}, s.Scoped → K s.settled p → I s → J p → e.Holds env s →
      (P.react env e p).run env s = .ok q t → I t ∧ J q)
    (hm : Machine.Scoped K m) (hI : I m.solver ∧ ∀ p ∈ m.plugins, J p)
    (ha : Machine.Acts P env m n) : I n.solver ∧ ∀ p ∈ n.plugins, J p := by
  induction ha with
  | refl => exact hI
  | tail hpre hstep ih =>
      have hu := hm.of_acts hP hpre
      cases hstep with
      | rule he => exact ⟨he.keeps_scoped (fun hs hr => hr.exists hs) hrule hu.1 ih.1, ih.2⟩
      | @react s t pre p q post e hholds hr =>
          have hp : p ∈ pre ++ p :: post := List.mem_append_right _ List.mem_cons_self
          obtain ⟨ht, hq⟩ := hreact hu.1 (hu.2 p hp) ih.1 (ih.2 p hp) hholds hr
          refine ⟨ht, fun p' hp' => ?_⟩
          rcases List.mem_append.1 hp' with hpre | hpost
          · exact ih.2 p' (List.mem_append_left _ hpre)
          · rcases List.mem_cons.1 hpost with rfl | hpost
            · exact hq
            · exact ih.2 p' (List.mem_append_right _ (List.mem_cons_of_mem _ hpost))

/-- What discoveries and the working in of facts keep as well holds at every stage of a run. -/
theorem Machine.keeps_of_visits {J : σ → Prop} (hP : P.Honest env rules K)
    (hstart : ∀ p ∈ plugins, K ({} : Solver).settled p) (hplugins : ∀ p ∈ plugins, J p)
    (hnew : I {})
    (hrule : ∀ {s a t}, s.Scoped → I s → CoreRule env s a → s.Adds env.program a t → I t)
    (hreact : ∀ {s t e p q}, s.Scoped → K s.settled p → I s → J p → e.Holds env s →
      (P.react env e p).run env s = .ok q t → I t ∧ J q)
    (hdiscover : ∀ {s i}, i ∈ entries → s.Scoped → I s →
      I { s with calls := s.calls.discover ⟨emptyContext, i⟩ })
    (htake : ∀ {s w rest}, s.Scoped → I s → s.queue = w :: rest → I (s.take env.program w rest))
    (h : Machine.Visits P env entries (.new plugins) stage) :
    I stage.machine.solver ∧ ∀ p ∈ stage.machine.plugins, J p := by
  have hscoped := fun s (hs : Machine.Visits P env entries (.new plugins) s) =>
    Machine.scoped_of_visits hP hstart hs
  obtain ⟨m, hm, hrun⟩ := h
  induction hrun with
  | refl =>
      have hstarted : Machine.Scoped K (.new plugins) := ⟨.new, hstart⟩
      refine (Machine.keeps_of_enter (I := fun u => Machine.Scoped K u ∧
        I u.solver ∧ ∀ p ∈ u.plugins, J p) hm ?_ ?_).2
      · intro u htell
        have htold := Machine.tell_acts htell trivial
        exact ⟨hstarted.of_acts hP htold,
          Machine.keeps_of_acts hP hrule hreact hstarted ⟨hnew, hplugins⟩ htold⟩
      · rintro u v i hi ⟨hu, hI⟩ hr
        refine ⟨hu.of_reach hP hr hu.1.empty, ?_⟩
        rcases Machine.reach_ok hr hu.1.empty with ⟨_, rfl⟩ | hentered
        · exact hI
        · have hfound : Machine.Scoped K (u.discover ⟨emptyContext, i⟩) :=
            hu.of_le hP (hu.1.of_discover hu.1.empty)
              (Solver.extends_discover u.solver ⟨emptyContext, i⟩).settled rfl
          exact Machine.keeps_of_acts hP hrule hreact hfound ⟨hdiscover hi hu.1 hI.1, hI.2⟩
            hentered.acts
  | tail hpre hstep ih =>
      have hu := hscoped _ ⟨m, hm, hpre⟩
      cases hstep with
      | @work _ u v w rest hq hp =>
          have htaken : Machine.Scoped K (u.taken env w rest) :=
            hu.of_le hP (hu.1.of_take hq) (Solver.extends_take env.program hq).settled rfl
          exact Machine.keeps_of_acts hP hrule hreact htaken ⟨htake hu.1 ih.1 hq, ih.2⟩
            (Machine.process_acts hp (hu.1.exists_of_queue hq))
      | finish hq ht =>
          exact Machine.keeps_of_acts hP hrule hreact hu ih (Machine.tell_acts ht trivial)

/-- What additions by the rules, discoveries and the working in of facts keep holds at every
stage of a run with honest plugins. -/
theorem Machine.holds_of_visits (hP : P.Honest env rules K)
    (hstart : ∀ p ∈ plugins, K ({} : Solver).settled p) (hnew : I {})
    (hadds : ∀ {s a t}, s.Scoped → I s → CoreRule env s a ∨ rules s a →
      s.Adds env.program a t → I t)
    (hdiscover : ∀ {s i}, i ∈ entries → s.Scoped → I s →
      I { s with calls := s.calls.discover ⟨emptyContext, i⟩ })
    (htake : ∀ {s w rest}, s.Scoped → I s → s.queue = w :: rest → I (s.take env.program w rest))
    (h : Machine.Visits P env entries (.new plugins) stage) : I stage.machine.solver := by
  refine (Machine.keeps_of_visits (J := fun _ => True) hP hstart (fun _ _ => trivial) hnew
    (fun hs hI hr => hadds hs hI (.inl hr)) ?_ hdiscover htake h).1
  intro s t e p q hs hK hI _ he hr
  exact ⟨(hP.react hs hK he hr).1.keeps_scoped hP.rule_exists
    (fun hs hI hr => hadds hs hI (.inr hr)) hs hI, trivial⟩

end Runs

end PointsTo
