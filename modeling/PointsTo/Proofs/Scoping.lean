import PointsTo.Proofs.Accounting
import PointsTo.Proofs.Runs

/-!
# Ids stay inside their tables

No rule of the analysis makes an id up: whatever is in a set, waits in the queue or
lies on an edge mentions only objects and contexts that the tables of the run hold.
With plugins that keep to ids they were given the same is true of a whole run.

Main results:

- {lit}`Solver.Scoped`: all ids that a state mentions exist; kept by what mentions only
  such ids ({lit}`Scoped.of_adds`) and by the working in of a fact ({lit}`Scoped.of_take`).
- Theorem {lit}`CoreRule.exists`: the rules of the analysis mention only such ids.
- {lit}`Plugin.Honest`, and theorem {lit}`Machine.grounded_of_honest`: so do runs with
  plugins that keep to rules which do.
-/

namespace PointsTo

/-! ## Ids that exist -/

/-- The object or the context that a pointer mentions exists. -/
def Pointer.Exists (k : View) : Pointer → Prop
  | .var v => k.contexts.Has v.context
  | .field o _ | .array o => k.HasObj o
  | .static _ => True

/-- Both ends of a flow edge exist. -/
def FlowEdge.Exists (k : View) (e : FlowEdge) : Prop := e.source.Exists k ∧ e.target.Exists k

/-- The contexts that a call edge mentions exist. -/
structure CallEdge.Exists (k : View) (e : CallEdge) : Prop where
  site : k.contexts.Has e.site.context
  callee : k.contexts.Has e.callee.context
  payload : ∀ call, e.kind = .lambda call → k.contexts.Has call.lambdaContext

/-- An addition mentions only objects and contexts that exist. -/
def Addition.Exists (k : View) : Addition → Prop
  | .points ptr os => ∀ o ∈ os, ptr.Exists k ∧ k.HasObj o
  | .flow e => e.Exists k
  | .enter _ o e => k.HasObj o ∧ e.Exists k
  | .call e => e.Exists k
  | .object _ | .context _ | .note _ => True

section Mono

variable {k l : View} (hle : k.Le l)

include hle

/-- A pointer goes on existing while a view grows. -/
theorem Pointer.Exists.mono {ptr : Pointer} (h : ptr.Exists k) : ptr.Exists l := by
  cases ptr with
  | var v => exact Interned.Has.of_grows h hle.contexts
  | field o | array o => exact View.HasObj.mono h hle
  | static f => trivial

/-- A flow edge goes on existing. -/
theorem FlowEdge.Exists.mono {e : FlowEdge} (h : e.Exists k) : e.Exists l :=
  ⟨h.1.mono hle, h.2.mono hle⟩

/-- A call edge goes on existing. -/
theorem CallEdge.Exists.mono {e : CallEdge} (h : e.Exists k) : e.Exists l where
  site := h.site.of_grows hle.contexts
  callee := h.callee.of_grows hle.contexts
  payload := fun call hcall => (h.payload call hcall).of_grows hle.contexts

end Mono

/-- An ordinary call edge exists if its contexts do. -/
theorem CallEdge.exists_of_isOrdinary {k : View} {e : CallEdge}
    (hsite : k.contexts.Has e.site.context) (hcallee : k.contexts.Has e.callee.context)
    (hk : e.kind.isOrdinary = true) : e.Exists k := by
  refine ⟨hsite, hcallee, ?_⟩
  intro call hcall
  rw [hcall] at hk
  cases hk

namespace Solver

variable {p : Program} {s t : Solver} {a : Addition} {w : WorkItem} {rest : List WorkItem}

/-- All ids that a state mentions exist. -/
structure Scoped (s : Solver) : Prop where
  empty : s.contexts.Has emptyContext
  owes : ∀ {ptr o}, s.Owes ptr o → ptr.Exists s.settled ∧ s.settled.HasObj o
  flow : ∀ {e}, e ∈ s.flow.edges → e.Exists s.settled
  reached : ∀ {m}, m ∈ s.calls.reachableIn → s.contexts.Has m.context
  call : ∀ {e}, s.Announces e → e.Exists s.settled

namespace Scoped

/-- A state without facts mentions nothing. -/
theorem new : Scoped {} := by
  refine ⟨Machine.has_emptyContext, ?_, ?_, ?_, ?_⟩
  · rintro ptr o (h | ⟨os, hos, _⟩)
    · exact absurd h (OrderedSet.not_mem_empty o)
    · exact absurd hos List.not_mem_nil
  · exact fun h => absurd h (OrderedSet.not_mem_empty _)
  · exact fun h => absurd h (OrderedSet.not_mem_empty _)
  · rintro e (h | h)
    · exact absurd h (OrderedSet.not_mem_empty e)
    · exact absurd h List.not_mem_nil

/-- Objects that something refers to are on the heap. -/
theorem obj (h : s.Scoped) {ptr : Pointer} {o : QObj} (ho : o ∈ s.pointsTo.get ptr) :
    s.settled.HasObj o :=
  (h.owes (.inl ho)).2

/-- A variable that refers to something is under a context that exists. -/
theorem var (h : s.Scoped) {v : QVar} {o : QObj} (ho : o ∈ s.pointsTo.get (.var v)) :
    s.contexts.Has v.context :=
  (h.owes (.inl ho)).1

/-- In particular what has been worked in mentions only ids that exist. -/
theorem grounded (h : s.Scoped) : s.Grounded :=
  ⟨h.empty, fun _ _ ho => h.obj ho, fun _ _ ho => h.var ho, fun _ hm => h.reached hm⟩

/-- And so does the fact that is worked in next. -/
theorem exists_of_queue (h : s.Scoped) (hq : s.queue = w :: rest) : w.Exists s.settled := by
  have hmem : w ∈ s.queue := by
    rw [hq]
    exact List.mem_cons_self
  cases w with
  | pointsTo ptr os =>
      intro o ho
      obtain ⟨hptr, hobj⟩ := h.owes (.inr ⟨os, hmem, ho⟩)
      refine ⟨hobj, ?_⟩
      rintro v rfl
      exact hptr
  | call e => exact (h.call (.inr hmem)).callee

/-- An addition that mentions only what exists leaves only ids that exist. -/
theorem of_adds (h : s.Scoped) (ha : a.Exists s.settled) (hadd : s.Adds p a t) : t.Scoped := by
  have hle := hadd.accretes.extends.settled
  refine ⟨h.empty.of_grows hle.contexts, ?_, ?_, ?_, ?_⟩
  · intro ptr o ho
    have hold : ptr.Exists s.settled ∧ s.settled.HasObj o := by
      rcases hadd.owes_cases ho with ho | hnew
      · exact h.owes ho
      · cases a with
        | points ptr' os =>
            obtain ⟨rfl, ho⟩ := hnew
            exact ha o ho
        | flow e =>
            obtain ⟨rfl, ho, _⟩ := hnew
            exact ⟨ha.2, h.obj ho⟩
        | enter receiver o' e =>
            obtain ⟨rfl, this, _, rfl⟩ := hnew
            exact ⟨ha.2.callee, ha.1⟩
        | object | context | call | note => exact hnew.elim
    exact ⟨hold.1.mono hle, hold.2.mono hle⟩
  · intro e he
    rcases hadd.flow_cases he with he | rfl
    · exact (h.flow he).mono hle
    · exact FlowEdge.Exists.mono hle ha
  · intro m hm
    rw [hadd.accretes.calls] at hm
    exact (h.reached hm).of_grows hle.contexts
  · intro e he
    rcases hadd.announces_cases he with he | hnew
    · exact (h.call he).mono hle
    · cases a with
      | enter receiver o e' =>
          obtain rfl := hnew
          exact ha.2.mono hle
      | call e' =>
          obtain rfl := hnew
          exact CallEdge.Exists.mono hle ha
      | object | context | points | flow | note => exact hnew.elim

/-- The working in of a fact leaves only ids that exist. -/
theorem of_take (h : s.Scoped) (hq : s.queue = w :: rest) : (s.take p w rest).Scoped := by
  have hle := (extends_take p hq).settled
  refine ⟨h.empty.of_grows hle.contexts, ?_, ?_, ?_, ?_⟩
  · intro ptr o ho
    rcases owes_of_take hq ho with ho | ⟨f, hf, rfl, ho, _⟩
    · exact ⟨(h.owes ho).1.mono hle, (h.owes ho).2.mono hle⟩
    · exact ⟨(h.flow hf).2.mono hle, (h.owes ho).2.mono hle⟩
  · intro e he
    rw [flow_take] at he
    exact (h.flow he).mono hle
  · intro m hm
    refine Interned.Has.of_grows ?_ hle.contexts
    rcases reachableIn_of_take hq hm with hm | ⟨e, he, rfl⟩
    · exact h.reached hm
    · exact (h.call he).callee
  · intro e he
    exact (h.call (announces_of_take hq he)).mono hle

/-- A method under a context that exists may be found to be reachable. -/
theorem of_discover (h : s.Scoped) {m : QMethod} (hm : s.contexts.Has m.context) :
    Scoped { s with calls := s.calls.discover m } := by
  refine ⟨h.empty, h.owes, h.flow, ?_, ?_⟩
  · intro m' hm'
    rcases CallGraph.mem_reachableIn_discover.1 hm' with rfl | hm'
    · exact hm
    · exact h.reached hm'
  · intro e he
    have hold : e.Exists s.settled := by
      rcases he with he | he
      · exact h.call (.inl (by simpa using he))
      · exact h.call (.inr he)
    exact ⟨hold.site, hold.callee, hold.payload⟩

/-- A sequence of additions of what exists leaves only ids that exist. -/
theorem of_evolves {rules : Solver → Addition → Prop} (h : s.Scoped) (he : s.Evolves p rules t)
    (hrules : ∀ {s a}, s.Scoped → rules s a → a.Exists s.settled) : t.Scoped :=
  he.keeps (fun h ha hadd => h.of_adds (hrules h ha) hadd) h

end Scoped

end Solver

/-! ## The rules of the analysis -/

section Rules

variable {env : Setting} {s : Solver}

/-- The heap context that was chosen exists. -/
theorem View.Houses.has {m : QMethod} {onHeap : Bool} {c : ContextId}
    (h : s.settled.Houses env m onHeap c) (hs : s.Scoped) : s.contexts.Has c := by
  unfold View.Houses at h
  split at h
  · exact Selector.has_of_heapContext h hs.empty
  · rw [h]
    exact hs.empty

/-- The edges of an access lead between things that exist. -/
theorem exists_of_accessEdges {v : QVar} {o : QObj} {e : FlowEdge}
    (he : e ∈ accessEdges env.program s.heap v o) (hv : s.contexts.Has v.context)
    (ho : s.settled.HasObj o) : e.Exists s.settled := by
  cases mem_accessEdges.1 he with
  | load | loadArray => exact ⟨ho, hv⟩
  | store | storeArray => exact ⟨hv, ho⟩

/-- So do those from arguments to parameters. -/
theorem exists_of_argumentEdges {call : Invoke} {callee : Method} {caller target : ContextId}
    {f : FlowEdge} (hf : f ∈ argumentEdges call callee caller target)
    (hcaller : s.contexts.Has caller) (htarget : s.contexts.Has target) :
    f.Exists s.settled := by
  obtain ⟨_, _, _, _, _, rfl⟩ := mem_argumentEdges.1 hf
  exact ⟨hcaller, htarget⟩

/-- So do those from returned variables to a result. -/
theorem exists_of_returnEdges {result : Option VarId} {callee : Method}
    {caller target : ContextId} {f : FlowEdge} (hf : f ∈ returnEdges result callee caller target)
    (hcaller : s.contexts.Has caller) (htarget : s.contexts.Has target) :
    f.Exists s.settled := by
  obtain ⟨_, _, _, _, rfl⟩ := mem_returnEdges.1 hf
  exact ⟨htarget, hcaller⟩

/-- The rules of the analysis mention only what exists. -/
theorem CoreRule.exists {a : Addition} (h : CoreRule env s a) (hs : s.Scoped) :
    a.Exists s.settled := by
  cases h with
  | object | heapContext | staticContext | callContext => trivial
  | assign hx _ hi hc =>
      intro o ho
      obtain rfl := OrderedSet.mem_singleton.1 ho
      exact ⟨hs.reached hx.reachable, hc.has hs, ⟨_, hi⟩⟩
  | @flow m index stmt e hx he =>
      have hm : s.contexts.Has m.context := hs.reached hx.reachable
      cases stmt with
      | copy | cast =>
          cases he
          exact ⟨hm, hm⟩
      | loadStatic =>
          cases he
          exact ⟨trivial, hm⟩
      | storeStatic =>
          cases he
          exact ⟨hm, trivial⟩
      | new | literal | loadField | storeField | loadArray | storeArray | invoke | ret => cases he
  | static hx _ hc =>
      have hm := hs.reached hx.reachable
      exact CallEdge.exists_of_isOrdinary hm (Selector.has_of_callContext hc hm hs.empty) rfl
  | access ho he => exact exists_of_accessEdges he (hs.var ho) (hs.obj ho)
  | enter hd hc =>
      have hv := hs.var hd.points
      exact ⟨hs.obj hd.points, CallEdge.exists_of_isOrdinary hv
        (Selector.has_of_callContext hc hv hs.empty) (CallKind.isOrdinary_of_ofInvoke? hd.kind)⟩
  | wiring he _ hf =>
      obtain ⟨hsite, hcallee, _⟩ := hs.call (.inl he)
      rcases List.mem_append.1 hf with hf | hf
      · exact exists_of_argumentEdges hf hsite hcallee
      · exact exists_of_returnEdges hf hsite hcallee

end Rules

/-! ## Plugins -/

variable {σ : Type} {P : Plugin σ} {env : Setting} {rules : Solver → Addition → Prop}
  {K : View → σ → Prop}

/-- The reactions of the plugins keep to rules that mention only what exists, provided that
their states are sound, as {lit}`K` says; and then their states stay sound. -/
structure Plugin.Honest (P : Plugin σ) (env : Setting) (rules : Solver → Addition → Prop)
    (K : View → σ → Prop) : Prop where
  rule_exists : ∀ {s a}, s.Scoped → rules s a → a.Exists s.settled
  mono : ∀ {k l p}, K k p → k.Le l → K l p
  react : ∀ {s t e p q}, s.Scoped → K s.settled p → e.Holds env s →
    (P.react env e p).run env s = .ok q t → s.Evolves env.program rules t ∧ K t.settled q

namespace Machine

variable {m n : Machine σ}

/-- All ids that a machine mentions exist. -/
def Scoped (K : View → σ → Prop) (m : Machine σ) : Prop :=
  m.solver.Scoped ∧ ∀ p ∈ m.plugins, K m.solver.settled p

/-- A machine goes on mentioning what exists if its plugins stay as they are. -/
theorem Scoped.of_le (h : Scoped K m) (hP : P.Honest env rules K) (hn : n.solver.Scoped)
    (hle : m.solver.settled.Le n.solver.settled) (hplugins : n.plugins = m.plugins) :
    Scoped K n := by
  refine ⟨hn, ?_⟩
  intro p hp
  rw [hplugins] at hp
  exact hP.mono (h.2 p hp) hle

/-- Acts of honest plugins mention only what exists. -/
theorem Scoped.of_acts (h : Scoped K m) (hP : P.Honest env rules K) (ha : Acts P env m n) :
    Scoped K n := by
  induction ha with
  | refl => exact h
  | tail _ hstep ih =>
      cases hstep with
      | rule he =>
          refine ih.of_le hP ?_ he.extends.settled rfl
          exact he.keeps (fun hs hr hadd => hs.of_adds (hr.exists hs) hadd) ih.1
      | @react s t pre p q post e hholds hr =>
          obtain ⟨hs, hK⟩ := ih
          have hp : p ∈ pre ++ p :: post := List.mem_append_right _ List.mem_cons_self
          obtain ⟨hevolves, hq⟩ := hP.react hs (hK p hp) hholds hr
          refine ⟨hs.of_evolves hevolves hP.rule_exists, ?_⟩
          intro p' hp'
          have hold : ∀ p' ∈ pre ++ p :: post, K t.settled p' :=
            fun p' hp' => hP.mono (hK p' hp') hevolves.extends.settled
          rcases List.mem_append.1 hp' with hpre | hpost
          · exact hold p' (List.mem_append_left _ hpre)
          · rcases List.mem_cons.1 hpost with rfl | hpost
            · exact hq
            · exact hold p' (List.mem_append_right _ (List.mem_cons_of_mem _ hpost))

/-- Acts of honest plugins add what the rules of the analysis or of the plugins allow. -/
theorem Scoped.evolves_of_acts (h : Scoped K m) (hP : P.Honest env rules K)
    (ha : Acts P env m n) :
    m.solver.Evolves env.program (fun s a => CoreRule env s a ∨ rules s a) n.solver := by
  induction ha with
  | refl => exact .refl _
  | tail hpre hstep ih =>
      have hmid := h.of_acts hP hpre
      refine ih.trans ?_
      cases hstep with
      | rule he => exact he.mono fun _ _ => .inl
      | @react s t pre p q post e hholds hr =>
          have hp : p ∈ pre ++ p :: post := List.mem_append_right _ List.mem_cons_self
          exact (hP.react hmid.1 (hmid.2 p hp) hholds hr).1.mono fun _ _ => .inr

/-- It does so when a method is reached. -/
theorem Scoped.of_reach {q : QMethod} (h : Scoped K m) (hP : P.Honest env rules K)
    (hr : reach P env q m = .ok ⟨⟩ n) (hq : m.solver.contexts.Has q.context) : Scoped K n := by
  rcases reach_ok hr hq with ⟨_, rfl⟩ | hentered
  · exact h
  · exact (h.of_le (n := m.discover q) hP (h.1.of_discover hq)
      (Solver.extends_discover m.solver q).settled rfl).of_acts hP hentered.acts

/-- One round of the main loop mentions only what exists. -/
theorem Scoped.of_process {w : WorkItem} {rest : List WorkItem} (h : Scoped K m)
    (hP : P.Honest env rules K) (hq : m.solver.queue = w :: rest)
    (hp : process P env w { m with solver := { m.solver with queue := rest } } = .ok ⟨⟩ n) :
    Scoped K n :=
  (h.of_le (n := m.taken env w rest) hP (h.1.of_take hq)
    (Solver.extends_take env.program hq).settled rfl).of_acts hP
      (process_acts hp (h.1.exists_of_queue hq))

/-- Entering the entry methods mentions only what exists. -/
theorem scoped_of_enter {entries : List MethodId} {plugins : List σ} (hP : P.Honest env rules K)
    (hstart : ∀ p ∈ plugins, K ({} : Solver).settled p)
    (h : enter P env entries (.new plugins) = .ok ⟨⟩ n) : Scoped K n := by
  have hnew : Scoped K (.new plugins) := ⟨.new, hstart⟩
  refine keeps_of_enter h ?_ ?_
  · exact fun htell => hnew.of_acts hP (tell_acts htell trivial)
  · exact fun _ hu hreach => hu.of_reach hP hreach hu.1.empty

/-- At every stage of a run with honest plugins all ids that are mentioned exist. -/
theorem scoped_of_visits {entries : List MethodId} {plugins : List σ} {stage : Stage σ}
    (hP : P.Honest env rules K) (hstart : ∀ p ∈ plugins, K ({} : Solver).settled p)
    (h : Visits P env entries (.new plugins) stage) : Scoped K stage.machine := by
  obtain ⟨m, hm, hrun⟩ := h
  induction hrun with
  | refl => exact scoped_of_enter hP hstart hm
  | tail _ hstep ih =>
      cases hstep with
      | work hq hp => exact ih.of_process hP hq hp
      | finish hq ht => exact ih.of_acts hP (tell_acts ht trivial)

/-- A run with honest plugins works no fact in before what it mentions exists. -/
theorem grounded_of_honest {entries : List MethodId} {plugins : List σ} (hP : P.Honest env rules K)
    (hstart : ∀ p ∈ plugins, K ({} : Solver).settled p) :
    Grounded P env entries (.new plugins) :=
  fun _ hstage _ _ hq => (scoped_of_visits hP hstart hstage).1.exists_of_queue hq

end Machine

end PointsTo
