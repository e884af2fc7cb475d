import PointsTo.Proofs.Chronicles
import PointsTo.Proofs.ClassClosure
import PointsTo.Proofs.Observers

/-!
# What an observer can reconstruct

An observer is told of the start of a run first and of its finish last.  What it is told in
between amounts to the result: every method, edge and object is told once and in the order in
which the result lists it, and every call that found no target on an object is told as often as
it was made.

Main results:

- {lit}`Machine.Current`: at every stage of a run the record of an observer is up to date.
- Theorem {lit}`Analysis.reconstructed_of_observeFrom`: a run that finishes can be reconstructed
  from the record.
-/

namespace PointsTo

namespace Machine

variable {σ τ : Type} {P : Plugin σ} {O : Plugin τ} {env : Setting} {k : Nat}
  {m n : Machine (σ ⊕ τ × List Event)} {es : List Event}

/-- The record of an observer is up to date: it begins with the start of the run, and goes on
with all that is known. -/
def Current (p : Program) (k : Nat) (m : Machine (σ ⊕ τ × List Event)) : Prop :=
  ∃ es, m.Records k (.start :: es) ∧ m.solver.ToldBy p es

namespace Current

variable {p : Program}

/-- What is told along with what becomes known keeps the record up to date. -/
theorem of_tells (h : Current p k m) (htells : Tells (P.observedBy O) env es m n)
    (hsolver : ∀ {told}, m.solver.ToldBy p told → n.solver.ToldBy p (told ++ es)) :
    Current p k n := by
  obtain ⟨told, hrecords, htold⟩ := h
  exact ⟨told ++ es, hrecords.of_tells htells, hsolver htold⟩

theorem of_reach {q : QMethod} (h : Current p k m) (hs : m.solver.Rooted)
    (hr : reach (P.observedBy O) env q m = .ok ⟨⟩ n) (hq : m.solver.contexts.Has q.context) :
    Current p k n := by
  have hacts : Acts (P.observedBy O) env (m.discover q) n := by
    rcases reach_ok hr hq with ⟨hknown, rfl⟩ | hentered
    · rw [discover_of_mem hknown]
    · exact hentered.acts
  refine h.of_tells (tells_of_reach hr) fun htold => ?_
  exact (htold.of_discover q).of_accretes hs hacts.accretes

theorem of_process {w : WorkItem} {rest : List WorkItem} (h : Current env.program k m)
    (hb : env.program.Built) (hs : m.solver.Scoped) (hq : m.solver.queue = w :: rest)
    (hp : process (P.observedBy O) env w { m with solver := { m.solver with queue := rest } } =
      .ok ⟨⟩ n) : Current env.program k n := by
  have hw := hs.exists_of_queue hq
  refine h.of_tells (tells_of_process hp hw) fun htold => ?_
  exact (htold.of_take hb).of_accretes (hs.of_take hq).grounded.points
    (process_acts hp hw).accretes

end Current

/-! ## Runs -/

variable {entries : List MethodId} {K : View → σ → Prop} {plugins : List σ} {q : τ}
  {stage : Stage (σ ⊕ τ × List Event)}

/-- An observer and plugins that begin soundly. -/
theorem observed_new (hsound : ∀ p ∈ plugins, K ({} : Solver).settled p) :
    ∀ x ∈ (plugins.map .inl ++ [.inr (q, [])] : List (σ ⊕ τ × List Event)),
      Observed K ({} : Solver).settled x := by
  intro x hx
  rcases List.mem_append.1 hx with hx | hx
  · obtain ⟨p, hp, rfl⟩ := List.mem_map.1 hx
    exact hsound p hp
  · obtain rfl := List.mem_singleton.1 hx
    trivial

/-- Once the entry methods are entered the record of an observer is up to date. -/
theorem current_of_enter (hP : (P.observedBy O).Honest env (PluginRule env) (Observed K))
    (hsound : ∀ p ∈ plugins, K ({} : Solver).settled p)
    (h : enter (P.observedBy O) env entries (.new (plugins.map .inl ++ [.inr (q, [])])) =
      .ok ⟨⟩ n) : Current env.program plugins.length n := by
  have hrecords : Records (.new (plugins.map .inl ++ [.inr (q, [])]) :
      Machine (σ ⊕ τ × List Event)) plugins.length [] := ⟨q, by simp [Machine.new]⟩
  refine (keeps_of_enter (I := fun u => Scoped (Observed K) u ∧
    Current env.program plugins.length u) h ?_ ?_).2
  · intro u htell
    have hacts := tell_acts htell trivial
    refine ⟨Scoped.of_acts ⟨.new, observed_new hsound⟩ hP hacts, [],
      hrecords.of_tells (.event htell), ?_⟩
    exact Solver.ToldBy.new.of_accretes Solver.Scoped.new.grounded.points hacts.accretes
  · rintro u v i _ ⟨hu, hcurrent⟩ hreach
    exact ⟨hu.of_reach hP hreach hu.1.empty,
      hcurrent.of_reach hu.1.grounded.points hreach hu.1.empty⟩

/-- As long as plugins were not told of a fixpoint the record of an observer is up to date. -/
theorem current_of_visits (hb : env.program.Built)
    (hP : (P.observedBy O).Honest env (PluginRule env) (Observed K))
    (hsound : ∀ p ∈ plugins, K ({} : Solver).settled p)
    (h : Visits (P.observedBy O) env entries (.new (plugins.map .inl ++ [.inr (q, [])])) stage)
    (hfirst : stage.told = false) : Current env.program plugins.length stage.machine := by
  obtain ⟨m, hm, hrun⟩ := h
  induction hrun with
  | refl => exact current_of_enter hP hsound hm
  | tail hpre hstep ih =>
      cases hstep with
      | work hq hp =>
          have hscoped := scoped_of_visits hP (observed_new hsound) ⟨m, hm, hpre⟩
          exact (ih hfirst).of_process hb hscoped.1 hq hp
      | finish _ _ => cases hfirst

end Machine

/-! ## Analyses -/

/-- A run that finishes with an observer behind the plugins can be reconstructed from what the
observer is told.  The start is told first and the finish last.  In between, the reachable
methods are told in the order in which the call graph lists them, each once; the same is true of
the methods under contexts and of the call edges, and a method is told before it is told under a
context, and that before an edge to it.  What is told to be new to a variable is never empty,
does not overlap, and makes up its set in order.  And of a call on an object that a variable
refers to it is told, as often as the variable makes the call, if and only if it has no target. -/
theorem Analysis.reconstructed_of_observeFrom {τ : Type} {a : Analysis} (ds : List Declaration)
    {p : Program} (hbuild : (Builder.ofList ds).build = .ok p) {files : Reflection.Files}
    (hextra : ∀ m ∈ a.extra, m.Sound p ({} : Solver).settled) {O : Plugin τ} (hO : O.Passive)
    {q : τ} {steps : Nat} {entries : List MethodId} {result : Result} {record : List Event}
    (hrun : a.observeFrom O q steps p files entries = (.finished result, record)) :
    ∃ es, record = .start :: es ++ [.finish] ∧ result.solver.ToldBy p es := by
  have hb : (a.setting p).program.Built :=
    Program.built_of_build (Builder.numbered_ofList ds) hbuild
  unfold Analysis.observeFrom at hrun
  split at hrun
  · cases hrun
  · rename_i members hmembers
    have hsound := Analysis.sound_members (k := ({} : Solver).settled) hmembers hextra
    have hP := (Member.honest hb).observedBy hO
    split at hrun
    · rename_i m hsolve
      cases hrun
      obtain ⟨hvisit, hq⟩ := Machine.visits_of_solve hsolve
      obtain ⟨n, u, hn, hempty, htell, hrest⟩ := hvisit.told_finish
      obtain ⟨es, hrecords, htold⟩ := Machine.current_of_visits hb hP hsound hn rfl
      have hscoped := Machine.scoped_of_visits hP (Machine.observed_new hsound) hn
      have hquiet : u.solver.queue = [] := by
        rw [Member.queue_of_finish hO hscoped.2 htell, hempty]
      obtain rfl : m = u := congrArg Machine.Stage.machine (Machine.eq_of_precedes hquiet hrest)
      refine ⟨es, (hrecords.of_tells (.event htell)).record, ?_⟩
      exact htold.of_accretes hscoped.1.grounded.points (Machine.accretes_of_tell htell)
    · cases hrun
    · cases hrun

/-- An observer behind the plugin for reflection is told of both methods in order, and once that a
call on the object has no target among the methods of its class. -/
theorem Analysis.reconstructed_of_observeFrom_asking :
    let a : Analysis := { options := oneCallSite false true }
    let p := (settingOf Reflection.askingProgram a.options).program
    ∃ result es, a.observeFrom (Plugin.silent Unit "observer") ⟨⟩ 10 p (fun _ => none) [⟨1⟩] =
        (.finished result, .start :: es ++ [.finish]) ∧
      es.filterMap Event.method? = [⟨1⟩, ⟨0⟩] ∧
      (es.filterMap (Event.delta? ⟨emptyContext, ⟨2⟩⟩)).flatMap OrderedSet.toList =
        [⟨emptyContext, ⟨0⟩⟩] ∧
      missesIn es ⟨emptyContext, ⟨0⟩⟩ ⟨emptyContext, ⟨2⟩⟩ = 1 := by
  intro a p
  have hfacts : (match a.observeFrom (Plugin.silent Unit "observer") ⟨⟩ 10 p (fun _ => none) [⟨1⟩]
      with
      | (.finished result, _) =>
          decide (result.solver.calls.reachable.toList = [⟨1⟩, ⟨0⟩] ∧
            (result.solver.pointsTo.get (varPointer emptyContext ⟨2⟩)).toList =
              [⟨emptyContext, ⟨0⟩⟩] ∧
            Unresolved p result.solver.heap ⟨2⟩ ⟨emptyContext, ⟨0⟩⟩)
      | _ => false) = true := by decide +kernel
  generalize hrun : a.observeFrom (Plugin.silent Unit "observer") ⟨⟩ 10 p (fun _ => none) [⟨1⟩] =
    outcome at hfacts ⊢
  obtain ⟨verdict, record⟩ := outcome
  cases verdict with
  | failed | unfinished => cases hfacts
  | finished result =>
      obtain ⟨hmethods, hpoints, hun⟩ := of_decide_eq_true hfacts
      obtain ⟨es, rfl, htold⟩ := Analysis.reconstructed_of_observeFrom Reflection.askingProgram
        (Program.build_of_checks (by decide +kernel) (by decide +kernel)) (by simp [a])
        (Plugin.passive_silent "observer") hrun
      refine ⟨result, es, rfl, htold.calls.methods.trans hmethods,
        (htold.points.objects _).trans hpoints, ?_⟩
      have hmissed := htold.missed.count ⟨emptyContext, ⟨2⟩⟩ ⟨2⟩ (by decide +kernel)
        ⟨emptyContext, ⟨0⟩⟩
      have ho : (⟨emptyContext, ⟨0⟩⟩ : QObj) ∈
          result.solver.pointsTo.get (.var ⟨emptyContext, ⟨2⟩⟩) := by
        rw [OrderedSet.mem_def]
        exact hpoints ▸ List.mem_singleton.2 rfl
      have hcount : (p.var ⟨2⟩).uses.invokes.count ⟨2⟩ = 1 := by decide +kernel
      rw [hmissed, if_pos ⟨ho, hun⟩]
      exact hcount

end PointsTo
