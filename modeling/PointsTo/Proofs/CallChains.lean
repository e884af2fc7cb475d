import PointsTo.Proofs.Closure
import PointsTo.Proofs.Places

/-!
# Every reachable method is called

Calls are resolved when a variable refers to something, and that may be so before the method
of the variable is found to be reachable: the receiver of a call is queued in front of the
call edge.  What holds at every moment is that the method is on its way: an edge to it is
known or queued, and that edge leaves a method of which the same is true, back to an entry.
When nothing is queued any more, these are chains of the call graph.

Main results:

- {lit}`CallChain`: chains of call edges from an entry method.
- {lit}`Solver.Chained`: whatever a state mentions lies in methods that a chain leads to; kept
  by additions ({lit}`Chained.of_adds`) and by the working in of a fact
  ({lit}`Chained.of_take`).
- Theorem {lit}`Analysis.chain_of_reachable`: in a fixpoint every reachable method is at the
  end of such a chain, and contexts of call sites are the latest calls of every chain.
-/

namespace PointsTo

/-! ## Chains of call edges -/

/-- A chain of call edges that begins in an entry method under the empty context; each edge
leaves the method under a context that the one before it has entered. -/
inductive CallChain (p : Program) (edges : CallEdge → Prop) (entries : List MethodId) :
    List CallEdge → QMethod → Prop
  | entry {i} (h : i ∈ entries) : CallChain p edges entries [] ⟨emptyContext, i⟩
  | call {es e} (h : CallChain p edges entries es (p.host e.site)) (he : edges e) :
      CallChain p edges entries (es ++ [e]) e.callee

/-- A chain leads to the method under the context. -/
def Chains (p : Program) (edges : CallEdge → Prop) (entries : List MethodId) (q : QMethod) :
    Prop :=
  ∃ es, CallChain p edges entries es q

section

variable {p : Program} {edges edges' : CallEdge → Prop} {entries : List MethodId} {q : QMethod}

/-- A chain stays one when there are more edges. -/
theorem CallChain.mono {es : List CallEdge} (h : CallChain p edges entries es q)
    (hle : ∀ e, edges e → edges' e) : CallChain p edges' entries es q := by
  induction h with
  | entry hi => exact .entry hi
  | call _ he ih => exact .call ih (hle _ he)

/-- So it is with the existence of one. -/
theorem Chains.mono (h : Chains p edges entries q) (hle : ∀ e, edges e → edges' e) :
    Chains p edges' entries q := by
  obtain ⟨es, hes⟩ := h
  exact ⟨es, hes.mono hle⟩

/-- A chain goes on along an edge that leaves its end. -/
theorem Chains.call {e : CallEdge} (h : Chains p edges entries (p.host e.site)) (he : edges e) :
    Chains p edges entries e.callee := by
  obtain ⟨es, hes⟩ := h
  exact ⟨_, hes.call he⟩

end

/-! ## Contexts of call sites -/

/-- Where contexts are made of call sites, the context of the callee is that of the caller
with the call site behind it. -/
def CallEdge.Stamped (env : Setting) (k : View) (e : CallEdge) : Prop :=
  env.selector.strategy = .callSite →
    k.contexts.get? e.callee.context =
      some ((k.contexts.get e.site.context).push e.site.item.index env.selector.k)

namespace CallEdge

variable {env : Setting} {k l : View} {e : CallEdge}

/-- An edge goes on being stamped with its site. -/
theorem Stamped.mono (h : e.Stamped env k) (hsite : k.contexts.Has e.site.context)
    (hle : k.Le l) : e.Stamped env l := by
  intro hs
  rw [ContextTable.get_of_grows hsite hle.contexts]
  exact hle.contexts _ _ (h hs)

/-- An edge under the context that was selected for it is stamped. -/
theorem Selected.stamped (h : e.Selected env k) : e.Stamped env k := by
  intro hs
  obtain ⟨receiver, hselects⟩ := h
  unfold View.Selects Selector.callContext at hselects
  rw [hs] at hselects
  exact Interned.get?_of_intern hselects

end CallEdge

/-- Of a list that was cut, the latest entries are those of the list. -/
theorem Context.keepLast_append_singleton (k x : Nat) (l : List Nat) :
    keepLast k (keepLast k l ++ [x]) = keepLast k (l ++ [x]) := by
  unfold keepLast
  rw [← List.drop_append_of_le_length (Nat.sub_le _ _), List.drop_drop]
  congr 1
  simp only [List.length_drop, List.length_append, List.length_singleton]
  omega

/-- The elements of a context of call sites are the latest calls of every chain that leads to
a method under it. -/
theorem CallChain.elements_eq (env : Setting) {k : View} {edges : CallEdge → Prop}
    {entries : List MethodId} {es : List CallEdge} {q : QMethod}
    (h : CallChain env.program edges entries es q) (hs : env.selector.strategy = .callSite)
    (hempty : k.contexts.get? emptyContext = some .empty)
    (hstamped : ∀ e, edges e → e.Stamped env k) :
    (k.contexts.get q.context).elements =
      Context.keepLast env.selector.k (es.map fun e => e.site.item.index) := by
  induction h with
  | entry => simp [ContextTable.get_of_get? hempty, Context.empty, Context.keepLast]
  | @call es e _ he ih =>
      have hpush : (k.contexts.get e.callee.context).elements = Context.keepLast env.selector.k
          ((k.contexts.get e.site.context).elements ++ [e.site.item.index]) := by
        rw [ContextTable.get_of_get? (hstamped e he hs)]
        rfl
      rw [hpush, show (k.contexts.get e.site.context).elements = _ from ih, List.map_append,
        List.map_singleton, Context.keepLast_append_singleton]

namespace Solver

variable {env : Setting} {entries : List MethodId} {s t : Solver} {a : Addition} {w : WorkItem}
  {rest : List WorkItem} {q : QMethod}

/-! ## The invariant -/

/-- A chain of edges that are known or queued leads to the method under the context. -/
def Leads (env : Setting) (entries : List MethodId) (s : Solver) (q : QMethod) : Prop :=
  Chains env.program s.Announces entries q

/-- A chain leads to the method of the call site of an edge, and the edge carries the result of
its call and a context that is made of the call. -/
structure Links (env : Setting) (entries : List MethodId) (s : Solver) (e : CallEdge) : Prop where
  host : s.Leads env entries (env.program.host e.site)
  returns : e.Returns env.program
  stamped : e.Stamped env s.settled

/-- Whatever is known, queued or may flow lies in methods that a chain leads to. -/
structure Chained (env : Setting) (entries : List MethodId) (s : Solver) : Prop where
  reached : ∀ {q}, q ∈ s.calls.reachableIn → s.Leads env entries q
  points : ∀ {v o}, s.Owes (.var v) o → s.Leads env entries (env.program.home v)
  flow : ∀ {f v}, f ∈ s.flow.edges → f.target = .var v →
    s.Leads env entries (env.program.home v)
  call : ∀ {e}, s.Announces e → s.Links env entries e
  empty : s.contexts.get? emptyContext = some .empty

/-- What an addition brings lies in methods that a chain leads to. -/
def ChainedBy (env : Setting) (entries : List MethodId) (s : Solver) : Addition → Prop
  | .points ptr _ => ∀ v, ptr = .var v → s.Leads env entries (env.program.home v)
  | .flow f => ∀ v, f.target = .var v → s.Leads env entries (env.program.home v)
  | .enter receiver _ e => s.Links env entries e ∧
      ∀ this ∈ receiver, env.program.home ⟨e.callee.context, this⟩ = e.callee
  | .call e => s.Links env entries e
  | .object _ | .context _ | .note _ => True

/-- What leads to a method leads to it later on. -/
theorem Leads.mono (h : s.Leads env entries q) (hle : s.expected.Le t.expected) :
    t.Leads env entries q :=
  Chains.mono h fun _ he => hle.call he

/-- An edge goes on linking its caller to the entries. -/
theorem Links.mono {e : CallEdge} (h : s.Links env entries e)
    (hsite : s.contexts.Has e.site.context) (hst : s.Extends t) : t.Links env entries e :=
  ⟨h.host.mono hst.expected, h.returns, h.stamped.mono hsite hst.settled⟩

/-- A chain leads to the callee of an edge that is known or queued. -/
theorem Chained.callee {e : CallEdge} (h : s.Chained env entries) (he : s.Announces e) :
    s.Leads env entries e.callee :=
  (h.call he).host.call he

namespace Chained

/-- Where nothing is reachable nothing has to be chained. -/
theorem new : Chained env entries {} := by
  refine ⟨?_, ?_, ?_, ?_, ?_⟩
  · exact fun h => absurd h (OrderedSet.not_mem_empty _)
  · rintro v o (h | ⟨os, hos, _⟩)
    · exact absurd h (OrderedSet.not_mem_empty o)
    · exact absurd hos List.not_mem_nil
  · exact fun h => absurd h (OrderedSet.not_mem_empty _)
  · rintro e (h | h)
    · exact absurd h (OrderedSet.not_mem_empty e)
    · exact absurd h List.not_mem_nil
  · simp [ContextTable.new, Interned.get?, OrderedSet.get?, emptyContext]

/-- An addition that lies in such methods keeps everything in such methods. -/
theorem of_adds (h : s.Chained env entries) (hs : s.Scoped) (hexists : a.Exists s.settled)
    (ha : s.ChainedBy env entries a) (hadd : s.Adds env.program a t) : t.Chained env entries := by
  have hst := hadd.accretes.extends
  refine ⟨?_, ?_, ?_, ?_, hst.settled.contexts _ _ h.empty⟩
  · intro q hq
    rw [hadd.accretes.calls] at hq
    exact (h.reached hq).mono hst.expected
  · intro v o ho
    rcases hadd.owes_cases ho with ho | hnew
    · exact (h.points ho).mono hst.expected
    · cases a with
      | points ptr os => exact (ha v hnew.1.symm).mono hst.expected
      | flow f => exact (ha v hnew.1.symm).mono hst.expected
      | enter receiver o' e =>
          obtain ⟨_, this, hthis, hv⟩ := hnew
          cases hv
          rw [ha.2 this hthis]
          have hhost := ha.1.host.mono hst.expected
          obtain rfl := hadd
          exact hhost.call (announces_enterOn _ _ _ _)
      | object | context | call | note => exact hnew.elim
  · intro f v hf hv
    rcases hadd.flow_cases hf with hf | rfl
    · exact (h.flow hf hv).mono hst.expected
    · exact (ha v hv).mono hst.expected
  · intro e he
    rcases hadd.announces_cases he with he | hnew
    · exact (h.call he).mono (hs.call he).site hst
    · cases a with
      | enter receiver o e' =>
          obtain rfl := hnew
          exact ha.1.mono hexists.2.site hst
      | call e' =>
          obtain rfl := hnew
          exact Links.mono ha (CallEdge.Exists.site hexists) hst
      | object | context | points | flow | note => exact hnew.elim

/-- The working in of a fact keeps everything in such methods. -/
theorem of_take (h : s.Chained env entries) (hs : s.Scoped) (hq : s.queue = w :: rest) :
    (s.take env.program w rest).Chained env entries := by
  have hst := extends_take env.program hq
  refine ⟨?_, ?_, ?_, ?_, hst.settled.contexts _ _ h.empty⟩
  · intro q hreach
    rcases reachableIn_of_take hq hreach with hreach | ⟨e, he, rfl⟩
    · exact (h.reached hreach).mono hst.expected
    · exact (h.callee he).mono hst.expected
  · intro v o ho
    rcases owes_of_take hq ho with ho | ⟨f, hf, htarget, _⟩
    · exact (h.points ho).mono hst.expected
    · exact (h.flow hf htarget).mono hst.expected
  · intro f v hf hv
    rw [flow_take] at hf
    exact (h.flow hf hv).mono hst.expected
  · intro e he
    have hold := announces_of_take hq he
    exact (h.call hold).mono (hs.call hold).site hst

/-- An entry method is at the end of the chain without edges. -/
theorem of_discover (h : s.Chained env entries) {i : MethodId} (hi : i ∈ entries) :
    Chained env entries { s with calls := s.calls.discover ⟨emptyContext, i⟩ } := by
  have hst := extends_discover s ⟨emptyContext, i⟩
  refine ⟨?_, fun ho => (h.points ho).mono hst.expected,
    fun hf hv => (h.flow hf hv).mono hst.expected, ?_, h.empty⟩
  · intro q hq
    rcases CallGraph.mem_reachableIn_discover.1 hq with rfl | hq
    · exact ⟨[], .entry hi⟩
    · exact (h.reached hq).mono hst.expected
  · intro e he
    have hold : s.Announces e := he.imp (fun he => by simpa using he) id
    exact ⟨(h.call hold).host.mono hst.expected, (h.call hold).returns, (h.call hold).stamped⟩

/-! ## The rules -/

/-- What has been worked in lies in methods that a chain leads to. -/
theorem lies (h : s.Chained env entries) : s.Lies env.program (s.Leads env entries) where
  reached := h.reached
  points := fun ho => h.points (.inl ho)
  host := fun he => (h.call (.inl he)).host
  callee := fun he => h.callee (.inl he)
  returns := fun he => (h.call (.inl he)).returns

/-- An edge that leaves such a method and was selected is linked. -/
theorem links_of_liesIn {e : CallEdge} (he : e.LiesIn env s (s.Leads env entries)) :
    s.Links env entries e :=
  ⟨he.host, he.returns, he.selected.stamped⟩

/-- An addition that lies in such methods brings nothing that lies elsewhere. -/
theorem chainedBy_of_liesIn (hhoused : env.program.Housed)
    (ha : a.LiesIn env s (s.Leads env entries)) : s.ChainedBy env entries a := by
  cases a with
  | points | flow | object | context | note => exact ha
  | enter receiver o e =>
      obtain ⟨he, rfl⟩ := ha
      exact ⟨links_of_liesIn he, fun this hthis => hhoused.home_eq (.inl hthis)⟩
  | call e => exact links_of_liesIn ha

end Chained

end Solver

/-! ## Runs -/

section Runs

variable {σ : Type} {P : Plugin σ} {env : Setting} {K : View → σ → Prop}
  {entries : List MethodId} {stage : Machine.Stage σ}

/-- At every stage of a run on a tidy program everything lies in methods that a chain leads
to. -/
theorem chained_of_visits {plugins : List σ} (hb : env.program.Built)
    (hhoused : env.program.Housed) (htidy : env.program.Tidy)
    (hP : P.Honest env (PluginRule env) K)
    (hstart : ∀ p ∈ plugins, K ({} : Solver).settled p)
    (h : Machine.Visits P env entries (.new plugins) stage) :
    stage.machine.solver.Chained env entries := by
  refine Machine.holds_of_visits hP hstart Solver.Chained.new ?_ ?_ ?_ h
  · intro s a t hs hc hrule hadd
    have hexists : a.Exists s.settled := hrule.elim (fun hr => hr.exists hs) PluginRule.exists
    have hlies : a.LiesIn env s (s.Leads env entries) :=
      hrule.elim (hc.lies.of_coreRule hb hhoused htidy) (hc.lies.of_pluginRule hhoused htidy)
    exact hc.of_adds hs hexists (Solver.Chained.chainedBy_of_liesIn hhoused hlies) hadd
  · exact fun hi _ hc => hc.of_discover hi
  · exact fun hs hc hq => hc.of_take hs hq

end Runs

/-! ## Fixpoints -/

/-- Where entries and callees are reachable, so is every method that a chain leads to. -/
theorem CallChain.reachable {p : Program} {g : CallGraph} {entries : List MethodId}
    {es : List CallEdge} {q : QMethod} (h : CallChain p (· ∈ g.edges) entries es q)
    (hentry : ∀ i ∈ entries, ⟨emptyContext, i⟩ ∈ g.reachableIn)
    (hcallee : ∀ e ∈ g.edges, e.callee ∈ g.reachableIn) : q ∈ g.reachableIn := by
  cases h with
  | entry hi => exact hentry _ hi
  | call _ he => exact hcallee _ he

/-- In a fixpoint for a tidy program every call edge leaves a reachable method, every reachable
method is at the end of a chain of call edges that begins in an entry method, and a context of
call sites consists of the latest calls of the chain. -/
theorem Analysis.chain_of_reachable {a : Analysis} (ds : List Declaration) {p : Program}
    (hbuild : (Builder.ofList ds).build = .ok p) (htidy : p.Tidy) (hextra : a.extra = [])
    {steps : Nat} {files : Reflection.Files} {entries : List MethodId} {result : Result}
    (hrun : a.runFrom steps p files entries = .finished result) :
    (∀ e ∈ result.solver.calls.edges, p.host e.site ∈ result.solver.calls.reachableIn) ∧
      ∀ q ∈ result.solver.calls.reachableIn,
        ∃ es, CallChain p (· ∈ result.solver.calls.edges) entries es q ∧
          (a.options.context = .callSite →
            (result.solver.contexts.get q.context).elements =
              Context.keepLast a.options.k (es.map fun e => e.site.item.index)) := by
  obtain ⟨members, m, hmembers, hsolve, rfl⟩ := Analysis.solve_of_runFrom hrun
  have hb : (a.setting p).program.Built :=
    Program.built_of_build (Builder.numbered_ofList ds) hbuild
  have hhoused : (a.setting p).program.Housed :=
    Program.housed_of_build (Builder.housed_ofList ds) hbuild
  have hsound : ∀ x ∈ members, x.Sound p ({} : Solver).settled :=
    Analysis.sound_members hmembers (by simp [hextra])
  obtain ⟨hvisit, hq⟩ := Machine.visits_of_solve hsolve
  have hchained : m.solver.Chained (a.setting p) entries :=
    chained_of_visits hb hhoused htidy (Member.honest hb) hsound hvisit
  have hclosed : Closed (a.setting p) entries m.solver :=
    closed_of_visits hb hvisit (Member.grounded hb hsound) hq
  -- with an empty queue the edges that are known or queued are those of the call graph
  have hedges : m.solver.Announces = (· ∈ m.solver.calls.edges) :=
    congrArg View.call (Solver.expected_eq_settled hq)
  have hleads : ∀ {q}, m.solver.Leads (a.setting p) entries q →
      ∃ es, CallChain p (· ∈ m.solver.calls.edges) entries es q := by
    intro q hlead
    unfold Solver.Leads at hlead
    rw [hedges] at hlead
    exact hlead
  refine ⟨?_, ?_⟩
  · intro e he
    obtain ⟨es, hes⟩ := hleads (hchained.call (.inl he)).host
    exact hes.reachable hclosed.entry hclosed.callee
  · intro q hreach
    obtain ⟨es, hes⟩ := hleads (hchained.reached hreach)
    refine ⟨es, hes, fun hs => ?_⟩
    exact hes.elements_eq (a.setting p) (k := m.solver.settled) hs hchained.empty
      fun e he => (hchained.call (.inl he)).stamped

/-- The method that {lit}`main` calls is reachable under the call site, and the chain to it is
the one call. -/
theorem Analysis.chain_of_reachable_calling :
    let a : Analysis := { options := oneCallSite true true }
    let p := (settingOf callingProgram a.options).program
    ∃ result, a.runFrom 10 p (fun _ => none) [⟨1⟩] = .finished result ∧
      ∃ es, CallChain p (· ∈ result.solver.calls.edges) [⟨1⟩] es ⟨⟨1⟩, ⟨0⟩⟩ ∧
        (result.solver.contexts.get ⟨1⟩).elements =
          Context.keepLast 1 (es.map fun e => e.site.item.index) := by
  intro a p
  have hreached : (match a.runFrom 10 p (fun _ => none) [⟨1⟩] with
      | .finished result => result.solver.calls.isReachableIn ⟨⟨1⟩, ⟨0⟩⟩
      | _ => false) = true := by decide +kernel
  cases hrun : a.runFrom 10 p (fun _ => none) [⟨1⟩] with
  | failed | unfinished =>
      rw [hrun] at hreached
      cases hreached
  | finished result =>
      rw [hrun] at hreached
      have htidy : p.Tidy :=
        Program.tidy_of_checks (by decide +kernel) (by decide +kernel) (by decide +kernel)
      obtain ⟨es, hes, helements⟩ := (Analysis.chain_of_reachable callingProgram
        (Program.build_of_checks (by decide +kernel) (by decide +kernel)) htidy rfl hrun).2
          ⟨⟨1⟩, ⟨0⟩⟩ (CallGraph.isReachableIn_iff.1 hreached)
      exact ⟨result, rfl, es, hes, helements rfl⟩

end PointsTo
