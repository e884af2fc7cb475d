import PointsTo.Proofs.LogClosure
import PointsTo.Proofs.Refinement
import PointsTo.Proofs.Simulation

/-!
# Programs without dynamic calls

The plugins for lambdas and for reflection are there for two kinds of call sites: those whose
bootstrap method is one of the lambda factories, and those that call a reflective method of the
platform.  On a program without either kind they have nothing to do.  They never come to remember
anything, and whatever they are told of they leave the state as it is.  It then makes no difference
to a run which of them take part in it.

Main results:

- {lit}`Program.Direct`: there are no call sites of the two kinds.
- {lit}`Solver.Plain`: states as they are without plugins, and theorem {lit}`Solver.kept_plain`: the
  rules of the analysis keep to them.
- {lit}`Member.Idle`, and theorem {lit}`Member.react_idle`: a plugin that remembers nothing lets
  every event pass.
- Theorem {lit}`Analysis.runFrom_eq_of_direct`: runs with options that differ only in the plugins
  end alike.
-/

namespace PointsTo

open Service

/-! ## Direct programs -/

/-- No call site of the program makes lambda objects, and none calls a reflective method of the
platform. -/
structure Program.Direct (p : Program) : Prop where
  dynamic : ∀ call ∈ p.invokes, ∀ d ∈ call.dynamic, Lambda.isFactory d.bootstrap = false
  target : ∀ call ∈ p.invokes, Reflection.Api.classify call.target = none

namespace Program.Direct

variable {p : Program} {m : MethodId} {call : Invoke}

/-- The dynamic call sites of a direct program make no lambdas. -/
theorem isFactory_eq_false (h : p.Direct) (hcall : call ∈ p.invokesIn m) {d : DynamicCall}
    (hd : call.dynamic = some d) : Lambda.isFactory d.bootstrap = false := by
  obtain ⟨i, _, rfl⟩ := mem_invokesIn.1 hcall
  refine forall_invoke (P := fun call => ∀ d ∈ call.dynamic, Lambda.isFactory d.bootstrap = false)
    h.dynamic ?_ i d hd
  rintro _ ⟨⟩

/-- A direct program makes no calls for reflection. -/
theorem classify_eq_none (h : p.Direct) (hcall : call ∈ p.invokesIn m) :
    Reflection.Api.classify call.target = none := by
  obtain ⟨i, _, rfl⟩ := mem_invokesIn.1 hcall
  exact forall_invoke (P := fun call => Reflection.Api.classify call.target = none) h.target
    (by decide +kernel) i

end Program.Direct

/-! ## Plain states -/

/-- No object of the state is a stand-in, and all calls that wait to be worked in are ordinary. -/
structure Solver.Plain (s : Solver) : Prop where
  object : ∀ {i o}, s.heap.get? i = some o → o.mockKind? = none
  call : ∀ {e}, .call e ∈ s.queue → e.kind.isOrdinary = true

namespace Solver.Plain

variable {s : Solver}

/-- A state without facts is plain. -/
theorem new : Plain {} where
  object := fun h => by cases h
  call := fun h => absurd h List.not_mem_nil

/-- In a plain state no object is a stand-in. -/
theorem get (h : s.Plain) (i : ObjId) : (s.heap.get i).mockKind? = none := by
  unfold Heap.get
  cases hi : s.heap.get? i with
  | none => rfl
  | some o => exact h.object hi

/-- An ordinary call edge may wait in a plain state. -/
theorem enqueue (h : s.Plain) {w : WorkItem} (hw : ∀ e, w = .call e → e.kind.isOrdinary = true) :
    (s.enqueue w).Plain where
  object := h.object
  call := fun he => (List.mem_append.1 he).elim h.call fun he =>
    hw _ (List.mem_singleton.1 he).symm

/-- So may objects on their way. -/
theorem addPointsTo (h : s.Plain) (ptr : Pointer) (os : ObjSet) : (s.addPointsTo ptr os).Plain := by
  unfold Solver.addPointsTo
  split
  · exact h
  · exact h.enqueue nofun

/-- An ordinary call edge may be added to a plain state. -/
theorem addCall (h : s.Plain) {e : CallEdge} (he : e.kind.isOrdinary = true) :
    (s.addCall e).Plain := by
  refine h.enqueue ?_
  rintro _ ⟨⟩
  exact he

/-- So may a flow edge. -/
theorem addFlow (h : s.Plain) (p : Program) (e : FlowEdge) : (s.addFlow p e).Plain := by
  unfold Solver.addFlow
  split
  · exact h
  · have hflow : Plain { s with flow := s.flow.add e } := ⟨h.object, h.call⟩
    exact hflow.addPointsTo _ _

/-- What is plain may be added to a plain state. -/
theorem of_adds {p : Program} {a : Addition} {t : Solver} (h : s.Plain) (ha : a.Plain)
    (hadd : s.Adds p a t) : t.Plain := by
  cases a with
  | object o =>
      obtain ⟨i, heap, hi, rfl⟩ := hadd
      refine ⟨fun hj => ?_, h.call⟩
      rcases Interned.get?_of_intern_cases hi hj with hj | rfl
      · exact h.object hj
      · exact ha
  | context c =>
      obtain ⟨i, contexts, _, rfl⟩ := hadd
      exact ⟨h.object, h.call⟩
  | points ptr os =>
      obtain rfl := hadd
      exact h.addPointsTo ptr os
  | flow e =>
      obtain rfl := hadd
      exact h.addFlow p e
  | enter receiver o e =>
      obtain rfl := hadd
      cases receiver with
      | none => exact h.addCall ha
      | some this => exact (h.addPointsTo _ _).addCall ha
  | call e =>
      obtain rfl := hadd
      exact h.addCall ha
  | note line =>
      obtain rfl := hadd
      exact ⟨h.object, h.call⟩

end Solver.Plain

/-- The rules of the analysis keep to plain states, and work in ordinary calls only. -/
theorem Solver.kept_plain (p : Program) : Kept p (fun e => e.kind.isOrdinary = true) Plain where
  adds := fun hs ha hadd => hs.of_adds ha hadd
  frame := fun hs hheap hqueue =>
    ⟨fun ho => hs.object (hheap ▸ ho), fun he => hs.call (hqueue ▸ he)⟩
  take := fun hs hq => ⟨hs.object, fun he => hs.call (hq ▸ List.mem_cons_of_mem _ he)⟩
  next := fun hs hq => hs.call (hq ▸ List.mem_cons_self)

/-! ## Idle plugins -/

/-- The event is not about a call edge that a plugin has added. -/
abbrev Event.Ordinary (e : Event) : Prop := e.Respects fun edge => edge.kind.isOrdinary = true

section Idle

variable {env : Setting} {s : Solver} {e : Event}

/-- A loop in which nothing is found. -/
theorem Service.filterMapM_eq_done {α β : Type} {f : α → Service (Option β)} {l : List α}
    (h : ∀ a ∈ l, f a = .done none) : l.filterMapM f = .done [] := by
  induction l with
  | nil => rfl
  | cons a l ih =>
      rw [List.filterMapM_cons, h a List.mem_cons_self]
      exact ih fun b hb => h b (List.mem_cons_of_mem _ hb)

/-- An object may be looked at first. -/
theorem Service.run_obj_bind {α : Type} (o : ObjId) (f : Obj → Service α) :
    ((obj o).bind f).run env s = (f (s.heap.get o)).run env s := rfl

namespace Lambda

/-- The plugin remembers no lambda object, and no call that waits. -/
structure State.Idle (st : State) : Prop where
  created : st.created = []
  pending : ∀ v, st.pending.get v = []

/-- The plugin for reflection begins idle. -/
theorem State.idle_new : Idle {} := ⟨rfl, fun _ => rfl⟩

/-- A method of a direct program makes no lambda objects. -/
theorem createAll_eq_done (hp : env.program.Direct) (m : MethodId) :
    createAll env m = .done [] := by
  refine filterMapM_eq_done fun call hcall => ?_
  cases hd : call.dynamic with
  | none => rfl
  | some d =>
      dsimp only
      rw [hp.isFactory_eq_false hcall hd]
      rfl

/-- A plugin that remembers nothing lets every event pass. -/
theorem react_idle {st : State} (hp : env.program.Direct) (hs : s.Plain) (he : e.Ordinary)
    (hst : st.Idle) : (react env e st).run env s = .ok st s := by
  cases e with
  | start | finish => rfl
  | method m =>
      unfold react
      dsimp only
      rw [createAll_eq_done hp m]
      show EStateM.Result.ok { st with created := st.created ++ [] } s = _
      rw [List.append_nil]
  | methodIn m =>
      unfold react assignCreated
      dsimp only
      rw [hst.created]
      rfl
  | unresolved o context site =>
      have hkind : (s.heap.get o.item).isMock .lambda = false := by
        simp [Obj.isMock, hs.get o.item]
      unfold react callOn
      dsimp only
      rw [bind_eq, run_obj_bind, hkind]
      rfl
  | edge e =>
      unfold react
      dsimp only
      split
      · rename_i call hk
        have hordinary : e.kind.isOrdinary = true := he
        rw [hk] at hordinary
        cases hordinary
      · rfl
  | grown v delta =>
      unfold react wake
      dsimp only
      rw [hst.pending v]
      rfl

end Lambda

namespace Reflection

/-- The plugin remembers no call site that is to be looked at, and no array of arguments. -/
structure State.Idle (st : State) : Prop where
  claims : ∀ log ∈ st.log, log.claims = []
  receivers : ∀ log ∈ st.log, ∀ v, log.receivers.get v = []
  classes : ∀ v, st.classes.relevant.get v = []
  strings : ∀ m ∈ st.strings, ∀ v, m.relevant.get v = []
  actions : ∀ v, st.actions.relevant.get v = []
  argArrays : ∀ v, st.argArrays.get v = []

/-- The plugin begins without a memory. -/
theorem State.idle_of_new {o : Options} {p : Program} {files : Files} {st : State}
    (h : State.new o p files = .ok st) : st.Idle := by
  obtain ⟨hread, hst⟩ := State.eq_of_new h
  have hlog : ∀ log ∈ st.log, log.claims = [] ∧ ∀ v, log.receivers.get v = [] := by
    intro log hlog
    obtain ⟨content, hcontent⟩ := ofLog_of_readLog hread log hlog
    obtain ⟨entries, _, rfl⟩ := LogModel.eq_of_ofLog hcontent
    exact ⟨rfl, fun _ => rfl⟩
  rcases hst with hst | hst
  · rw [hst]
    exact ⟨fun m hm => (hlog m hm).1, fun m hm => (hlog m hm).2, fun _ => rfl, nofun, fun _ => rfl,
      fun _ => rfl⟩
  · rw [hst]
    refine ⟨fun m hm => (hlog m hm).1, fun m hm => (hlog m hm).2, fun _ => rfl, ?_, fun _ => rfl,
      fun _ => rfl⟩
    rintro _ ⟨⟩ _
    rfl

/-- The calls of a method of a direct program are taken by no model. -/
theorem State.offerAll_eq_self {p : Program} (hp : p.Direct) (m : MethodId) (st : State) :
    (p.invokesIn m).foldl State.offer st = st := by
  refine List.foldlRecOn (motive := fun q => q = st) (p.invokesIn m) State.offer rfl ?_
  rintro _ rfl call hcall
  exact State.offer_eq_self (hp.classify_eq_none hcall) _

/-- No model looks at a variable that refers to more. -/
theorem grown_idle {st : State} (hst : st.Idle) (v : QVar) (delta : ObjSet) :
    grown env st v delta = .done st := by
  have hlog : (st.log.forM fun m => m.grown env v delta) = .done ⟨⟩ := by
    cases h : st.log with
    | none => rfl
    | some log =>
        show log.grown env v delta = _
        unfold LogModel.grown
        rw [hst.receivers log h]
        rfl
  have hstrings : (st.strings.forM fun m => m.grown env v delta) = .done ⟨⟩ := by
    cases h : st.strings with
    | none => rfl
    | some m =>
        show m.grown env v delta = _
        unfold StringModel.grown
        rw [hst.strings m h]
        rfl
  unfold grown ClassModel.grown ActionModel.grown
  rw [hlog, hstrings, hst.classes, hst.actions]
  rfl

/-- A plugin that remembers nothing lets every event pass. -/
theorem react_idle {st : State} (hp : env.program.Direct) (he : e.Ordinary) (hst : st.Idle) :
    react env e st = .done st := by
  cases e with
  | start | finish | unresolved => rfl
  | method m =>
      unfold react
      dsimp only
      rw [State.offerAll_eq_self hp]
      rfl
  | methodIn m =>
      unfold react
      dsimp only
      split
      · rfl
      · rename_i log hlog
        unfold LogModel.reached
        rw [hst.claims log hlog]
        show Service.done { st with log := some log } = _
        rw [← hlog]
  | edge e =>
      unfold react
      dsimp only
      split
      · rename_i call hk
        have hordinary : e.kind.isOrdinary = true := he
        rw [hk] at hordinary
        cases hordinary
      · rfl
  | grown v delta =>
      unfold react wakeArguments
      dsimp only
      rw [hst.argArrays v]
      exact grown_idle hst v delta

end Reflection

/-- The member is one of the provided plugins, and remembers nothing. -/
def Member.Idle : Member → Prop
  | lambda st => st.Idle
  | reflection st => st.Idle
  | script _ => False

/-- A provided plugin that remembers nothing lets every event pass. -/
theorem Member.react_idle {m : Member} (hp : env.program.Direct) (hs : s.Plain) (he : e.Ordinary)
    (hm : m.Idle) : (Member.plugin.react env e m).run env s = .ok m s := by
  cases m with
  | lambda st => exact react_lambda.2 ⟨st, rfl, Lambda.react_idle hp hs he hm⟩
  | reflection st =>
      refine react_reflection.2 ⟨st, rfl, ?_⟩
      rw [Reflection.react_idle hp he hm]
      rfl
  | script s => exact hm.elim

/-- Telling an event to plugins that let it pass changes nothing. -/
theorem Plugin.tell_eq_self {σ : Type} {P : Plugin σ} {ps : List σ}
    (h : ∀ p ∈ ps, (P.react env e p).run env s = .ok p s) :
    P.tell env e ps s = .ok ⟨⟩ (s, ps) := by
  induction ps with
  | nil => rfl
  | cons p ps ih =>
      unfold tell
      rw [h p List.mem_cons_self]
      dsimp only
      rw [ih fun q hq => h q (List.mem_cons_of_mem _ hq)]

/-- Idle plugins have nothing to say of what is ordinary. -/
theorem Machine.tell_idle {m : Machine Member} (hp : env.program.Direct) (hs : m.solver.Plain)
    (he : e.Ordinary) (hm : ∀ p ∈ m.plugins, p.Idle) : tell Member.plugin env e m = .ok ⟨⟩ m := by
  unfold tell
  rw [Plugin.tell_eq_self fun p hmem => Member.react_idle hp hs he (hm p hmem)]

end Idle

/-- None of the plugins on either side remembers anything. -/
def BothIdle (ms ns : List Member) : Prop := (∀ m ∈ ms, m.Idle) ∧ ∀ n ∈ ns, n.Idle

/-- Idle plugins answer every event of a direct program alike, whichever they are. -/
theorem Machine.agree_tell_idle {env env' : Setting} (hrules : env.SameRules env')
    (hp : env.program.Direct) {e : Event} (he : e.Ordinary) :
    Agree (Abreast Solver.Plain BothIdle) (tell Member.plugin env e)
      (tell Member.plugin env' e) := by
  intro m n h
  have hn : n.solver.Plain := h.solver ▸ h.state
  rw [tell_idle hp h.state he h.plugins.1,
    tell_idle (hrules.program ▸ hp) hn he h.plugins.2]
  exact .ok h

/-! ## Analyses -/

/-- The same options but for the plugins that take part. -/
def Options.withPlugins (o : Options) (lambda reflection : Bool) (inference log : Option String) :
    Options :=
  { o with lambda, reflection, reflectionInference := inference, reflectionLog := log }

/-- Valid options name an inference mode that there is. -/
theorem Options.inference_of_validate {o : Options} (h : o.validate = .ok ⟨⟩) :
    ∃ mode, o.inference = .ok mode := by
  obtain ⟨_, _, h⟩ := except_bind_eq_ok.1 h
  obtain ⟨_, _, h⟩ := except_bind_eq_ok.1 h
  obtain ⟨mode, hmode, _⟩ := except_bind_eq_ok.1 h
  exact ⟨mode, hmode⟩

/-- With valid options and a log that can be read the plugin for reflection can be set up. -/
theorem Reflection.State.exists_new {o : Options} {p : Program} {files : Files}
    (hvalid : o.validate = .ok ⟨⟩) {log : Option LogModel} (hlog : readLog o p files = .ok log) :
    ∃ st, State.new o p files = .ok st := by
  obtain ⟨mode, hmode⟩ := o.inference_of_validate hvalid
  unfold State.new
  rw [hvalid, hlog, hmode]
  cases mode with
  | disabled => exact ⟨_, rfl⟩
  | stringConstant => exact ⟨_, rfl⟩

namespace Analysis

variable {a b : Analysis} {o : Options} {p : Program} {files : Reflection.Files}

/-- The log that options name, if they ask for reflection, loads. -/
def LogLoads (o : Options) (p : Program) (files : Reflection.Files) : Prop :=
  o.reflection = true → ∃ log, Reflection.readLog o p files = .ok log

/-- A new analysis has the provided plugins that its options ask for. -/
theorem eq_of_new (h : Analysis.new o = .ok a) : o.validate = .ok ⟨⟩ ∧ a = { options := o } := by
  unfold Analysis.new at h
  split at h
  · rename_i hvalid
    exact ⟨hvalid, (Except.ok.inj h).symm⟩
  · cases h

/-- The provided plugins can be set up, and begin without a memory. -/
theorem idle_members (hvalid : o.validate = .ok ⟨⟩) (hlog : LogLoads o p files) :
    ∃ members, ({ options := o } : Analysis).members p files = .ok members ∧
      ∀ m ∈ members, m.Idle := by
  have hlambda : ∀ m ∈ (if o.lambda then [Member.newLambda] else []), m.Idle := by
    intro m hm
    split at hm
    · obtain rfl := List.mem_singleton.1 hm
      exact Lambda.State.idle_new
    · exact absurd hm List.not_mem_nil
  unfold members
  dsimp only
  by_cases hreflection : o.reflection = true
  · obtain ⟨log, hread⟩ := hlog hreflection
    obtain ⟨st, hst⟩ := Reflection.State.exists_new hvalid hread
    rw [if_pos hreflection, hst]
    refine ⟨_, rfl, fun m hm => ?_⟩
    rw [List.append_nil] at hm
    rcases List.mem_append.1 hm with hm | hm
    · exact hlambda m hm
    · obtain rfl := List.mem_singleton.1 hm
      exact Reflection.State.idle_of_new hst
  · rw [if_neg hreflection]
    refine ⟨_, rfl, fun m hm => ?_⟩
    rw [List.append_nil, List.append_nil] at hm
    exact hlambda m hm

/-- On a program without lambdas, method references and reflective calls, runs with options that
differ only in the plugins come to the same verdict: they fail in the same way, or they end in the
same state, with the same contexts, objects, points-to sets, flow edges and call edges, all in the
same order, after the same number of facts. -/
theorem runFrom_eq_of_direct (hp : p.Direct) {lambda reflection : Bool}
    {inference log : Option String} (ha : Analysis.new o = .ok a)
    (hb : Analysis.new (o.withPlugins lambda reflection inference log) = .ok b)
    (hloga : LogLoads o p files)
    (hlogb : LogLoads (o.withPlugins lambda reflection inference log) p files) (steps : Nat)
    (entries : List MethodId) :
    b.runFrom steps p files entries = a.runFrom steps p files entries := by
  obtain ⟨hvalid, rfl⟩ := eq_of_new ha
  obtain ⟨hvalid', rfl⟩ := eq_of_new hb
  obtain ⟨ms, hms, hidle⟩ := idle_members hvalid hloga
  obtain ⟨ns, hns, hidle'⟩ := idle_members hvalid' hlogb
  generalize ho' : o.withPlugins lambda reflection inference log = o' at hns
  have hrules : (Analysis.setting { options := o } p).SameRules
      (Analysis.setting { options := o' } p) := by
    subst ho'
    exact ⟨rfl, rfl, rfl⟩
  have hstart : Machine.Abreast Solver.Plain BothIdle (Machine.new ms) (Machine.new ns) :=
    ⟨rfl, .new, hidle, hidle'⟩
  obtain ⟨houtcome, hsolver, -, -⟩ := Machine.alongside_solve hrules (Solver.kept_plain _)
    (fun e he => Machine.agree_tell_idle hrules hp he) steps entries hstart
  have hcontext : o'.context = o.context := ho' ▸ rfl
  unfold runFrom
  rw [hms, hns]
  dsimp only
  generalize Machine.solve Member.plugin _ steps entries (Machine.new ms) = x at houtcome hsolver ⊢
  generalize Machine.solve Member.plugin _ steps entries (Machine.new ns) = y at houtcome hsolver ⊢
  obtain ⟨outcome, m⟩ := x
  obtain ⟨outcome', n⟩ := y
  obtain rfl := houtcome
  cases outcome' with
  | finished =>
      dsimp only at hsolver ⊢
      rw [hsolver, hcontext]
  | failed e =>
      dsimp only at hsolver ⊢
      rw [hsolver]
  | unfinished => rfl

/-- Where a method makes an object and calls a method on it, it makes no difference whether there is
a log of reflective calls, or lambdas are resolved and names of classes inferred instead. -/
theorem runFrom_eq_of_direct_calling :
    let o := Reflection.byLog
    let o' := o.withPlugins true true (some Inference.stringConstant.text) none
    let p := (settingOf callingProgram o).program
    let files : Reflection.Files := fun _ => some Reflection.logOfInvocation
    (runFrom { options := o' } 10 p files [⟨1⟩]).isFinished = true ∧
      runFrom { options := o' } 10 p files [⟨1⟩] = runFrom { options := o } 10 p files [⟨1⟩] := by
  intro o o' p files
  have hdirect : p.Direct := ⟨by decide +kernel, by decide +kernel⟩
  have hread : Reflection.readLog o p files =
      (Reflection.LogModel.ofLog p Reflection.logOfInvocation).map some := rfl
  have hlog : LogLoads o p files := by
    intro _
    rw [hread, Reflection.LogModel.ofLog, Reflection.Log.parse_logOfInvocation]
    exact ⟨_, rfl⟩
  have hlog' : LogLoads o' p files := fun _ => ⟨none, rfl⟩
  exact ⟨by decide +kernel, runFrom_eq_of_direct (o := o) hdirect rfl rfl hlog hlog' 10 [⟨1⟩]⟩

end Analysis

end PointsTo
