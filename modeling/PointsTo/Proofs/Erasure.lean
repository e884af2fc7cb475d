import PointsTo.Proofs.Observers
import PointsTo.Proofs.Simulation

/-!
# Erasing observers

The machine reads the states of its plugins only to tell them of events.  If other plugins take
over the part of those of a machine, and answer every event in the same way, the run is the same.
An observer that leaves the state of the run alone can therefore be erased: what is observed is
the run that there would be without it.

Main results:

- {lit}`Machine.Mirrors`: computations that do the same with other plugins.
- Theorem {lit}`Machine.solve_mapPlugins`: if telling does, the whole run does.
- Theorem {lit}`Analysis.fst_observeFrom`: an observed run ends as the run without its observer.
-/

namespace PointsTo

variable {σ τ α : Type}

namespace Machine

/-! ## The same with other plugins -/

/-- Other plugins in the place of those of a machine. -/
def mapPlugins (g : List σ → List τ) (m : Machine σ) : Machine τ := ⟨m.solver, g m.plugins⟩

@[simp] theorem solver_mapPlugins (g : List σ → List τ) (m : Machine σ) :
    (m.mapPlugins g).solver = m.solver := rfl

@[simp] theorem plugins_mapPlugins (g : List σ → List τ) (m : Machine σ) :
    (m.mapPlugins g).plugins = g m.plugins := rfl

/-- What a computation came to, with other plugins. -/
def mapResult (g : List σ → List τ) :
    EStateM.Result Error (Machine σ) α → EStateM.Result Error (Machine τ) α
  | .ok a m => .ok a (m.mapPlugins g)
  | .error e m => .error e (m.mapPlugins g)

/-- A computation does with other plugins what another does. -/
def Mirrors (g : List σ → List τ) (x : MachineM σ α) (y : MachineM τ α) : Prop :=
  ∀ m, y (m.mapPlugins g) = mapResult g (x m)

/-- A computation that does what another does agrees with it, as long as the plugins of the one
machine are those that take over from the plugins of the other. -/
theorem Mirrors.agree {g : List σ → List τ} {x : MachineM σ α} {y : MachineM τ α}
    (h : Mirrors g x y) : Agree (Abreast (fun _ => True) fun ps qs => qs = g ps) x y := by
  rintro m ⟨s, _⟩ ⟨rfl, -, rfl⟩
  show Alike _ (x m) (y (m.mapPlugins g))
  rw [h m]
  cases x m with
  | ok a n => exact .ok ⟨rfl, trivial, rfl⟩
  | error e n => exact .error ⟨rfl, trivial, rfl⟩

/-- The outcome of a run with other plugins. -/
def mapOutcome (g : List σ → List τ) (r : Outcome × Machine σ) : Outcome × Machine τ :=
  (r.1, r.2.mapPlugins g)

/-- Where other plugins take over every event that is told, they take over the run. -/
theorem solve_mapPlugins {P : Plugin σ} {Q : Plugin τ} {env : Setting} {g : List σ → List τ}
    (htell : ∀ e, Mirrors g (tell P env e) (tell Q env e)) (steps : Nat)
    (entries : List MethodId) (m : Machine σ) :
    solve Q env steps entries (m.mapPlugins g) = mapOutcome g (solve P env steps entries m) := by
  have hstart : Abreast (fun _ => True) (fun ps qs => qs = g ps) m (m.mapPlugins g) :=
    ⟨rfl, trivial, rfl⟩
  obtain ⟨houtcome, hsolver, -, hplugins⟩ := alongside_solve (.refl env) (.always env.program)
    (fun e _ => (htell e).agree) steps entries hstart
  generalize solve Q env steps entries (m.mapPlugins g) = run at houtcome hsolver hplugins ⊢
  obtain ⟨outcome, solver, plugins⟩ := run
  obtain rfl := houtcome
  obtain rfl := hsolver
  obtain rfl := hplugins
  rfl

end Machine

/-! ## Observers that may be erased -/

/-- The plugin leaves the state of the run alone, and never ends the run. -/
def Plugin.Still (O : Plugin τ) : Prop :=
  ∀ env e q s, ∃ q', (O.react env e q).run env s = .ok q' s

/-- The states of the plugins that are not observers. -/
def observed (ps : List (σ ⊕ τ × List Event)) : List σ := ps.filterMap Sum.getLeft?

/-- A plugin that fails does so beside observers too. -/
theorem Plugin.react_inl_error {P : Plugin σ} {O : Plugin τ} {env : Setting} {e : Event} {p : σ}
    {s t : Solver} {err : Error} (h : (P.react env e p).run env s = .error err t) :
    ((P.observedBy O).react env e (.inl p)).run env s = .error err t := by
  show ((P.react env e p).bind fun q => .done (Sum.inl q : σ ⊕ τ × List Event)).run env s = _
  rw [Service.run_bind]
  show EStateM.bind _ _ s = _
  unfold EStateM.bind
  rw [h]

/-- Telling an event to plugins with observers that leave the run alone is telling it to the
plugins. -/
theorem Plugin.tell_observed {P : Plugin σ} {O : Plugin τ} (hO : O.Still) (env : Setting)
    (e : Event) (ps : List (σ ⊕ τ × List Event)) (s : Solver) :
    P.tell env e (observed ps) s =
      match (P.observedBy O).tell env e ps s with
      | .ok _ (t, qs) => .ok ⟨⟩ (t, observed qs)
      | .error err (t, qs) => .error err (t, observed qs) := by
  induction ps generalizing s with
  | nil => rfl
  | cons x ps ih =>
      cases x with
      | inl p =>
          rw [show observed (.inl p :: ps) = p :: observed ps from rfl]
          unfold Plugin.tell
          cases h : (P.react env e p).run env s with
          | error err t =>
              rw [react_inl_error h]
              rfl
          | ok q t =>
              rw [Plugin.react_inl.2 ⟨q, rfl, h⟩]
              dsimp only
              rw [ih t]
              cases (P.observedBy O).tell env e ps t <;> rfl
      | inr x =>
          obtain ⟨q, record⟩ := x
          obtain ⟨q', hq⟩ := hO env e q s
          rw [show observed (.inr (q, record) :: ps) = observed ps from rfl, ih s]
          rw [Plugin.tell, Plugin.react_inr.2 ⟨q', rfl, hq⟩]
          dsimp only
          cases (P.observedBy O).tell env e ps s <;> rfl

theorem Machine.mirrors_tell {P : Plugin σ} {O : Plugin τ} (hO : O.Still) (env : Setting)
    (e : Event) : Mirrors observed (tell (P.observedBy O) env e) (tell P env e) := by
  intro m
  unfold tell
  rw [plugins_mapPlugins, solver_mapPlugins, Plugin.tell_observed hO]
  cases (P.observedBy O).tell env e m.plugins m.solver <;> rfl

/-- A run that is observed by a plugin that leaves it alone ends as the run without it. -/
theorem Analysis.fst_observeFrom {a : Analysis} {O : Plugin τ} (hO : O.Still) (q : τ) (steps : Nat)
    (p : Program) (files : Reflection.Files) (entries : List MethodId) :
    (a.observeFrom O q steps p files entries).1 = a.runFrom steps p files entries := by
  unfold Analysis.observeFrom Analysis.runFrom
  cases a.members p files with
  | error e => rfl
  | ok members =>
      have hstart : Machine.new members =
          (Machine.new (members.map .inl ++ [.inr (q, [])])).mapPlugins observed := by
        simp [Machine.new, Machine.mapPlugins, observed, List.filterMap_append, List.filterMap_map,
          Function.comp_def]
      dsimp only
      rw [hstart, Machine.solve_mapPlugins (Machine.mirrors_tell hO (a.setting p))]
      generalize Machine.solve (Member.plugin.observedBy O) (a.setting p) steps entries
        (.new (members.map .inl ++ [.inr (q, [])])) = run
      obtain ⟨outcome, m⟩ := run
      cases outcome <;> rfl

end PointsTo
