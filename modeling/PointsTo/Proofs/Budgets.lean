import PointsTo.Proofs.Recording
import PointsTo.Proofs.Termination

/-!
# Runs with a budget

A budget allows a run to take a certain number of facts from the queue; the run fails when it
takes one more.  Nothing else in a run looks at the budget.  A run with a budget is therefore
the run without it, up to the fact that is one too many: without such a fact the two runs end
in the same way and in the same state, and otherwise what plugins are told in the run with the
budget is the beginning of what they are told in the run without it.

Main results:

- {lit}`Setting.withBudget`, {lit}`Plugin.Unbudgeted`: other budgets, and plugins that do not
  look at them; the provided plugins are of this kind ({lit}`Member.unbudgeted`).
- Theorems {lit}`Machine.process_unlimited`, {lit}`Machine.process_limited`: one round of the
  main loop.
- {lit}`Machine.Truncates`, and theorem {lit}`Machine.truncates_solve`: a run with a budget and
  the run without it.
- Theorem {lit}`Analysis.budget_transparent`: the same for analyses.
-/

namespace PointsTo

variable {σ τ α : Type}

/-! ## Budgets -/

/-- The same setting with another budget. -/
def Setting.withBudget (env : Setting) (budget : Option Nat) : Setting :=
  { env with options := env.options.withMaxWorkItems budget }

/-- The same analysis with another budget. -/
def Analysis.withBudget (a : Analysis) (budget : Option Nat) : Analysis :=
  { a with options := a.options.withMaxWorkItems budget }

/-- Another budget for an analysis is another budget for its runs. -/
theorem Analysis.setting_withBudget (a : Analysis) (budget : Option Nat) (p : Program) :
    (a.withBudget budget).setting p = (a.setting p).withBudget budget := rfl

/-- The plugin does the same whatever the budget is. -/
def Plugin.Unbudgeted (P : Plugin σ) : Prop :=
  ∀ env budget e p, P.react (env.withBudget budget) e p = P.react env e p

/-- A plugin that takes no notice of anything takes none of the budget. -/
theorem Plugin.unbudgeted_silent (name : String) : (silent τ name).Unbudgeted :=
  fun _ _ _ _ => rfl

section Unbudgeted

variable {P : Plugin σ} {O : Plugin τ}

/-- To record what a plugin is told looks at no budget. -/
theorem Plugin.Unbudgeted.recorded (h : P.Unbudgeted) : P.recorded.Unbudgeted := by
  rintro env budget e ⟨p, record⟩
  exact congrArg (· >>= fun q => pure (q, record ++ [e])) (h env budget e p)

/-- Two plugins beside each other look at no budget if neither does. -/
theorem Plugin.Unbudgeted.beside (hP : P.Unbudgeted) (hO : O.Unbudgeted) :
    (P.beside O).Unbudgeted := by
  rintro env budget e (p | q)
  · exact congrArg (· >>= fun q => pure (Sum.inl q)) (hP env budget e p)
  · exact congrArg (· >>= fun q => pure (Sum.inr q)) (hO env budget e q)

end Unbudgeted

/-- The plugin for lambdas looks at no budget. -/
theorem Lambda.unbudgeted : Lambda.plugin.Unbudgeted := by
  intro env budget e st
  cases e <;> rfl

/-- The plugin for reflection looks at no budget. -/
theorem Reflection.unbudgeted : Reflection.plugin.Unbudgeted := by
  intro env budget e st
  cases e <;> rfl

/-- What a script says does not depend on the budget. -/
theorem Script.act_withBudget (env : Setting) (budget : Option Nat) (s : Script) :
    Script.act (env.withBudget budget) s = Script.act env s := by
  funext a
  cases a <;> rfl

/-- So a script looks at no budget. -/
theorem Script.unbudgeted : Script.plugin.Unbudgeted := by
  intro env budget e s
  show Script.react _ e s = Script.react _ e s
  simp only [Script.react, act_withBudget]

/-- The provided plugins do not look at the budget. -/
theorem Member.unbudgeted : Member.plugin.Unbudgeted := by
  intro env budget e m
  cases m with
  | lambda st =>
      exact congrArg (· >>= fun q => pure (lambda q)) (Lambda.unbudgeted env budget e st)
  | reflection st =>
      exact congrArg (· >>= fun q => pure (reflection q)) (Reflection.unbudgeted env budget e st)
  | script s =>
      exact congrArg (· >>= fun q => pure (script q)) (Script.unbudgeted env budget e s)

/-! ## Where the budget is not looked at -/

variable {P : Plugin σ} {env : Setting}

/-- Requests are answered in the same way whatever the budget is. -/
theorem Service.run_withBudget (budget : Option Nat) (x : Service α) :
    x.run (env.withBudget budget) = x.run env := by
  induction x with
  | done a => rfl
  | fail e => rfl
  | ask r next ih =>
      have hanswer : r.answer (env.withBudget budget) = r.answer env := by cases r <;> rfl
      simp only [run_ask, hanswer, ih]

/-- Plugins that look at no budget are told alike under any. -/
theorem Plugin.tell_withBudget (hP : P.Unbudgeted) (budget : Option Nat) (e : Event)
    (ps : List σ) (s : Solver) :
    P.tell (env.withBudget budget) e ps s = P.tell env e ps s := by
  induction ps generalizing s with
  | nil => rfl
  | cons p ps ih =>
      simp only [tell, hP env budget e p, Service.run_withBudget, ih]

namespace Machine

section Unbudgeted

variable (hP : P.Unbudgeted) (budget : Option Nat)

include hP

/-- So are those of a machine. -/
theorem tell_withBudget (e : Event) : tell P (env.withBudget budget) e = tell P env e := by
  funext m
  simp only [tell, Plugin.tell_withBudget hP]

/-- A method is reached alike under any budget. -/
theorem reach_withBudget (q : QMethod) :
    reach P (env.withBudget budget) q = reach P env q := by
  have hbody : SolverM.executeBody (env.withBudget budget) q = SolverM.executeBody env q := rfl
  simp only [reach, tell_withBudget hP, hbody]

/-- A call is made alike under any budget. -/
theorem callOn_withBudget : callOn P (env.withBudget budget) = callOn P env := by
  have hdispatch : SolverM.dispatch (env.withBudget budget) = SolverM.dispatch env := rfl
  funext context site o
  simp only [callOn, tell_withBudget hP, hdispatch]

/-- Objects are worked in alike under any budget. -/
theorem processPointsTo_withBudget (ptr : Pointer) (os : ObjSet) :
    processPointsTo P (env.withBudget budget) ptr os = processPointsTo P env ptr os := by
  have hprogram : (env.withBudget budget).program = env.program := rfl
  simp only [processPointsTo, grow, callOn_withBudget hP, tell_withBudget hP, hprogram]

/-- Call edges are worked in alike under any budget. -/
theorem processCall_withBudget (e : CallEdge) :
    processCall P (env.withBudget budget) e = processCall P env e := by
  have hprogram : (env.withBudget budget).program = env.program := rfl
  simp only [processCall, reach_withBudget hP, tell_withBudget hP, hprogram]

/-- The entry methods are entered alike under any budget. -/
theorem enter_withBudget (entries : List MethodId) :
    enter P (env.withBudget budget) entries = enter P env entries := by
  simp only [enter, reach_withBudget hP, tell_withBudget hP]

end Unbudgeted

/-! ## Where it is -/

/-- The working in of a fact that has been counted. -/
def work (P : Plugin σ) (env : Setting) : WorkItem → MachineM σ Unit
  | .pointsTo ptr os => processPointsTo P env ptr os
  | .call e => processCall P env e

/-- Without a budget every fact is worked in. -/
theorem process_unlimited (hP : P.Unbudgeted) (w : WorkItem) (rest : List WorkItem)
    (m : Machine σ) :
    process P (env.withBudget none) w { m with solver := { m.solver with queue := rest } } =
      work P env w (m.counted rest) := by
  cases w with
  | pointsTo ptr os => exact congrFun (processPointsTo_withBudget hP none ptr os) _
  | call e => exact congrFun (processCall_withBudget hP none e) _

/-- With a budget the run fails at the fact that is one too many, which is counted and not worked
in. -/
theorem process_limited (hP : P.Unbudgeted) (limit : Nat) (w : WorkItem) (rest : List WorkItem)
    (m : Machine σ) :
    process P (env.withBudget (some limit)) w
        { m with solver := { m.solver with queue := rest } } =
      if limit < m.solver.processed + 1 then .error (.budget limit) (m.counted rest)
      else work P env w (m.counted rest) := by
  have hcount : count (env.withBudget (some limit))
      { m with solver := { m.solver with queue := rest } } =
        if limit < m.solver.processed + 1 then .error (.budget limit) (m.counted rest)
        else .ok ⟨⟩ (m.counted rest) := by
    show (if limit < m.solver.processed + 1 then throw (.budget limit) else pure ⟨⟩ :
      MachineM σ Unit) (m.counted rest) = _
    split <;> rfl
  show EStateM.bind (count _) _ _ = _
  unfold EStateM.bind
  rw [hcount]
  by_cases hover : limit < m.solver.processed + 1
  · rw [if_pos hover, if_pos hover]
  · rw [if_neg hover, if_neg hover]
    cases w with
    | pointsTo ptr os => exact congrFun (processPointsTo_withBudget hP (some limit) ptr os) _
    | call e => exact congrFun (processCall_withBudget hP (some limit) e) _

/-! ## Runs that are cut short -/

/-- Facts have been taken, and the plugins have changed as {lit}`R` says. -/
structure Proceeds (R : List σ → List σ → Prop) (m n : Machine σ) : Prop where
  processed : m.solver.processed ≤ n.solver.processed
  plugins : R m.plugins n.plugins

section Truncation

variable {R : List σ → List σ → Prop} [IsPreorder (List σ) R]

/-- Steps of a run without a budget may be put together. -/
instance isPreorder_proceeds : IsPreorder (Machine σ) (Proceeds R) where
  refl m := ⟨Nat.le_refl _, refl_of R m.plugins⟩
  trans _ _ _ h k :=
    ⟨Nat.le_trans h.processed k.processed, trans_of R h.plugins k.plugins⟩

omit [IsPreorder (List σ) R] in
/-- To go on is to proceed. -/
theorem Continues.proceeds {m n : Machine σ} (h : Continues R m n) : Proceeds R m n :=
  ⟨Nat.le_of_eq h.processed.symm, h.plugins⟩

/-- How a run with a budget compares to the run without it: it ends in the same way and with the
same machine, or it fails because of the budget.  The plugins of the one become those of the
other as {lit}`R` says. -/
structure Truncates (R : List σ → List σ → Prop) (limit : Nat)
    (free bounded : Outcome × Machine σ) : Prop where
  within : free.2.solver.processed ≤ limit → bounded = free
  beyond : limit < free.2.solver.processed → bounded.1 = .failed (.budget limit)
  plugins : R bounded.2.plugins free.2.plugins

/-- Two runs that agree are not cut short. -/
theorem Truncates.refl {limit : Nat} {run : Outcome × Machine σ}
    (h : run.2.solver.processed ≤ limit) : Truncates R limit run run :=
  ⟨fun _ => rfl, fun hover => absurd h (Nat.not_le.2 hover), refl_of R _⟩

variable (hP : P.Unbudgeted) (htell : ∀ e, Leads (Continues R) (tell P env e))

include htell in
/-- Working in one fact goes on. -/
theorem continues_work (w : WorkItem) : Leads (Continues R) (work P env w) := by
  cases w with
  | pointsTo ptr os => exact (spans_continues htell).processPointsTo ptr os
  | call e => exact (spans_continues htell).processCall e

include hP htell

/-- A run without a budget goes on from the fact that it counts next. -/
theorem proceeds_of_counted {m : Machine σ} {w : WorkItem} {rest : List WorkItem}
    (hq : m.solver.queue = w :: rest) {steps : Nat}
    (hrest : ∀ n, Proceeds R n (drain P (env.withBudget none) steps n).2) :
    Proceeds R (m.counted rest) (drain P (env.withBudget none) (steps + 1) m).2 := by
  have hwork := continues_work htell w (m.counted rest)
  unfold drain
  simp only [hq, process_unlimited hP]
  cases h : work P env w (m.counted rest) with
  | ok _ n =>
      rw [h] at hwork
      exact trans_of (Proceeds R) hwork.proceeds (hrest n)
  | error e n =>
      rw [h] at hwork
      exact hwork.proceeds

/-- Without a budget the main loop only goes on. -/
theorem proceeds_drain (steps : Nat) (m : Machine σ) :
    Proceeds R m (drain P (env.withBudget none) steps m).2 := by
  induction steps generalizing m with
  | zero =>
      unfold drain
      split <;> exact refl_of (Proceeds R) m
  | succ steps ih =>
      cases hq : m.solver.queue with
      | nil =>
          rw [drain_of_queue_eq_nil P _ hq]
          exact refl_of (Proceeds R) m
      | cons w rest =>
          have hcounted : Proceeds R m (m.counted rest) := ⟨Nat.le_succ _, refl_of R _⟩
          exact trans_of (Proceeds R) hcounted (proceeds_of_counted hP htell hq ih)

/-- The main loop with a budget is the main loop without it, cut short. -/
theorem truncates_drain {limit : Nat} (steps : Nat) {m : Machine σ}
    (hm : m.solver.processed ≤ limit) :
    Truncates R limit (drain P (env.withBudget none) steps m)
      (drain P (env.withBudget (some limit)) steps m) := by
  induction steps generalizing m with
  | zero =>
      unfold drain
      split <;> exact .refl hm
  | succ steps ih =>
      cases hq : m.solver.queue with
      | nil =>
          rw [drain_of_queue_eq_nil P _ hq, drain_of_queue_eq_nil P _ hq]
          exact .refl hm
      | cons w rest =>
          have hfree := proceeds_of_counted hP htell hq (proceeds_drain hP htell steps)
          have hwork := continues_work htell w (m.counted rest)
          by_cases hover : limit < m.solver.processed + 1
          · -- the fact is one too many: the run with the budget stops, the other one goes on
            have hbounded : drain P (env.withBudget (some limit)) (steps + 1) m =
                (.failed (.budget limit), m.counted rest) := by
              unfold drain
              simp only [hq, process_limited hP, if_pos hover]
            have hbeyond := Nat.lt_of_lt_of_le hover hfree.processed
            rw [hbounded]
            exact ⟨fun h => absurd h (Nat.not_le.2 hbeyond), fun _ => rfl, hfree.plugins⟩
          · unfold drain
            simp only [hq, process_unlimited hP, process_limited hP, if_neg hover]
            cases h : work P env w (m.counted rest) with
            | ok _ n =>
                rw [h] at hwork
                exact ih (le_of_eq_of_le hwork.processed (Nat.not_lt.1 hover))
            | error e n =>
                rw [h] at hwork
                exact .refl (le_of_eq_of_le hwork.processed (Nat.not_lt.1 hover))

/-- A settling with a budget is one without, or the beginning of it. -/
theorem truncates_settle {limit : Nat} (steps : Nat) {x : MachineM σ Unit}
    (hx : Leads (Continues R) x) {m : Machine σ} (hm : m.solver.processed ≤ limit) :
    Truncates R limit (settle P (env.withBudget none) steps x m)
      (settle P (env.withBudget (some limit)) steps x m) := by
  have hleft := hx m
  unfold settle
  cases h : x m with
  | ok _ n =>
      rw [h] at hleft
      exact truncates_drain hP htell steps (le_of_eq_of_le hleft.processed hm)
  | error e n =>
      rw [h] at hleft
      exact .refl (le_of_eq_of_le hleft.processed hm)

/-- A settling without a budget proceeds. -/
theorem proceeds_settle (steps : Nat) {x : MachineM σ Unit} (hx : Leads (Continues R) x)
    (m : Machine σ) : Proceeds R m (settle P (env.withBudget none) steps x m).2 := by
  have hleft := hx m
  unfold settle
  cases h : x m with
  | ok _ n =>
      rw [h] at hleft
      exact trans_of (Proceeds R) hleft.proceeds (proceeds_drain hP htell steps n)
  | error e n =>
      rw [h] at hleft
      exact hleft.proceeds

/-- A whole run with a budget is the run without it, cut short.  Both the first main loop and the
one after the plugins were told of its end count against the budget. -/
theorem truncates_solve {limit : Nat} (steps : Nat) (entries : List MethodId) {m : Machine σ}
    (hm : m.solver.processed ≤ limit) :
    Truncates R limit (solve P (env.withBudget none) steps entries m)
      (solve P (env.withBudget (some limit)) steps entries m) := by
  have hfirst := truncates_settle hP htell steps ((spans_continues htell).enter entries) hm
  unfold solve
  simp only [enter_withBudget hP, tell_withBudget hP]
  generalize settle P (env.withBudget none) steps (enter P env entries) m = free at hfirst ⊢
  generalize settle P (env.withBudget (some limit)) steps (enter P env entries) m = bounded
    at hfirst ⊢
  by_cases hover : free.2.solver.processed ≤ limit
  · obtain rfl := hfirst.within hover
    obtain ⟨outcome, n⟩ := bounded
    cases outcome with
    | finished => exact truncates_settle hP htell steps (htell .finish) hover
    | failed | unfinished => exact .refl hover
  · have hfailed := hfirst.beyond (Nat.not_le.1 hover)
    obtain ⟨outcome, n⟩ := bounded
    obtain rfl := hfailed
    obtain ⟨outcome, u⟩ := free
    cases outcome with
    | finished =>
      have hlast := proceeds_settle hP htell steps (htell .finish) u
      refine ⟨fun h => ?_, fun _ => rfl, trans_of R hfirst.plugins hlast.plugins⟩
      exact absurd (Nat.le_trans hlast.processed h) hover
    | failed | unfinished => exact ⟨fun h => absurd h hover, fun _ => rfl, hfirst.plugins⟩

end Truncation

end Machine

/-! ## Analyses -/

/-- A budget that allows some work is as valid as none. -/
theorem Options.validate_withMaxWorkItems {o : Options} (hfree : o.maxWorkItems = none)
    {limit : Nat} (hlimit : 0 < limit) :
    (o.withMaxWorkItems (some limit)).validate = o.validate := by
  have hbudget : (o.withMaxWorkItems (some limit)).checkBudget = o.checkBudget := by
    have hpos : (o.withMaxWorkItems (some limit)).maxWorkItems ≠ some 0 := by
      rintro ⟨⟩
      exact Nat.lt_irrefl _ hlimit
    rw [checkBudget, checkBudget, if_neg hpos, if_neg (by simp [hfree])]
  unfold validate
  rw [hbudget]
  rfl

/-- A budget that allows some work does not keep the plugins from being set up. -/
theorem Analysis.members_withBudget {a : Analysis} (hfree : a.options.maxWorkItems = none)
    {limit : Nat} (hlimit : 0 < limit) (p : Program) (files : Reflection.Files) :
    (a.withBudget (some limit)).members p files = a.members p files := by
  have hstate : Reflection.State.new (a.withBudget (some limit)).options p files =
      Reflection.State.new a.options p files := by
    show Reflection.State.new (a.options.withMaxWorkItems (some limit)) p files = _
    unfold Reflection.State.new
    rw [Options.validate_withMaxWorkItems hfree hlimit]
    rfl
  unfold members
  rw [hstate]
  rfl

/-- A run with a budget ends in the same way as the run without it, and in the same state, if that
takes no more facts than the budget allows; otherwise it fails because of the budget.  In either
case what each plugin is told is the beginning of what it is told without a budget. -/
theorem Analysis.budget_transparent {a : Analysis} (hfree : a.options.maxWorkItems = none)
    {O : Plugin τ} (hO : O.Unbudgeted) (qs : List τ) (steps : Nat) (p : Program)
    (files : Reflection.Files) (entries : List MethodId) {limit : Nat} (hlimit : 0 < limit) :
    let free := a.recordFrom O qs steps p files entries
    let bounded := (a.withBudget (some limit)).recordFrom O qs steps p files entries
    (free.2.solver.processed ≤ limit → bounded = free) ∧
      (limit < free.2.solver.processed → bounded.1 = .failed (.budget limit)) ∧
      ∀ k, recordAt bounded.2.plugins k <+: recordAt free.2.plugins k := by
  have hplugin := (Member.unbudgeted.beside hO).recorded
  have hfreeEnv : a.setting p = (a.setting p).withBudget none := by
    unfold Setting.withBudget Options.withMaxWorkItems
    rw [show (none : Option Nat) = (a.setting p).options.maxWorkItems from hfree.symm]
  have htruncates : Machine.Truncates Prolongs limit (a.recordFrom O qs steps p files entries)
      ((a.withBudget (some limit)).recordFrom O qs steps p files entries) := by
    unfold recordFrom
    rw [members_withBudget hfree hlimit]
    cases a.members p files with
    | error e => exact .refl (Nat.zero_le _)
    | ok members =>
        dsimp only
        rw [setting_withBudget, hfreeEnv]
        exact Machine.truncates_solve hplugin (Machine.continues_tell_recorded _ _) steps entries
          (Nat.zero_le _)
  exact ⟨htruncates.within, htruncates.beyond, htruncates.plugins⟩

/-- A run that takes nine facts ends in the same way with a budget of nine, and fails with a budget
of eight. -/
theorem Analysis.budget_transparent_recursive :
    let a : Analysis :=
      { options := { oneCallSite true true with context := .object, k := 2, heapDepth := 1 } }
    let p := (settingOf recursiveProgram a.options).program
    let run := fun a : Analysis =>
      a.recordFrom (.silent Unit "watch") [()] 20 p (fun _ => none) [⟨0⟩]
    (run a).1 = .finished ∧ (run a).2.solver.processed = 9 ∧
      run (a.withBudget (some 9)) = run a ∧
      (run (a.withBudget (some 8))).1 = .failed (.budget 8) ∧
      ∀ k, recordAt (run (a.withBudget (some 8))).2.plugins k <+:
        recordAt (run a).2.plugins k := by
  intro a p run
  have hprocessed : (run a).2.solver.processed = 9 := by decide +kernel
  have hwatch : (Plugin.silent Unit "watch").Unbudgeted := Plugin.unbudgeted_silent _
  obtain ⟨hwithin, -, -⟩ := Analysis.budget_transparent (a := a) rfl hwatch [()] 20 p
    (fun _ => none) [⟨0⟩] (show 0 < 9 by decide)
  obtain ⟨-, hbeyond, hrecords⟩ := Analysis.budget_transparent (a := a) rfl hwatch [()] 20 p
    (fun _ => none) [⟨0⟩] (show 0 < 8 by decide)
  have hbeyond' : 8 < (run a).2.solver.processed := by
    rw [hprocessed]
    decide
  exact ⟨by decide +kernel, hprocessed, hwithin (Nat.le_of_eq hprocessed), hbeyond hbeyond',
    hrecords⟩

end PointsTo
