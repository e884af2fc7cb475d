import PointsTo.Proofs.Erasure
import PointsTo.Proofs.RunRelations

/-!
# Records of what plugins are told

Every plugin of a run can keep a record of the events that it has taken in.  Records only get
longer in the course of a run, and they do not change how the run ends.

Main results:

- {lit}`Plugin.recorded`, {lit}`Analysis.recordFrom`: runs in which all plugins, and observers
  behind them, keep records.
- {lit}`Prolongs`: every record is the beginning of a later one.
- {lit}`Machine.Continues`, and theorem {lit}`Machine.spans_continues`: what the working in of a
  fact does to records and to the count of facts, also if it fails.
- Theorem {lit}`Analysis.runFrom_eq_recordFrom`: a run ends as the run with records does.
-/

namespace PointsTo

variable {σ τ α : Type}

/-! ## Plugins with records -/

/-- Plugins together with others. -/
def Plugin.beside (P : Plugin σ) (O : Plugin τ) : Plugin (σ ⊕ τ) where
  name := Sum.elim P.name O.name
  react := fun env e => fun
    | .inl p => do return .inl (← P.react env e p)
    | .inr q => do return .inr (← O.react env e q)

/-- Plugins with a record of the events that they have taken in. -/
def Plugin.recorded (P : Plugin σ) : Plugin (σ × List Event) where
  name := fun (p, _) => P.name p
  react := fun env e (p, record) => do return (← P.react env e p, record ++ [e])

/-- What the plugin at a place has on record. -/
def recordAt (ps : List (σ × List Event)) (k : Nat) : List Event :=
  (ps[k]?.map Prod.snd).getD []

/-- Run from given entry methods with observers behind all other plugins, where each plugin keeps
a record. -/
def Analysis.recordFrom (a : Analysis) (O : Plugin τ) (qs : List τ) (steps : Nat) (p : Program)
    (files : Reflection.Files) (entries : List MethodId) :
    Outcome × Machine ((Member ⊕ τ) × List Event) :=
  match a.members p files with
  | .error e => (.failed e, .new [])
  | .ok members =>
    Machine.solve (Member.plugin.beside O).recorded (a.setting p) steps entries
      (.new ((members.map Sum.inl ++ qs.map Sum.inr).map fun x => (x, [])))

/-! ## Records get longer -/

/-- Every record is the beginning of the one at the same place. -/
def Prolongs (ps qs : List (σ × List Event)) : Prop := ∀ k, recordAt ps k <+: recordAt qs k

instance isPreorder_prolongs : IsPreorder (List (σ × List Event)) Prolongs where
  refl _ _ := List.prefix_rfl
  trans _ _ _ h h' k := (h k).trans (h' k)

theorem Prolongs.cons {p q : σ × List Event} {ps qs : List (σ × List Event)} (h : p.2 <+: q.2)
    (hrest : Prolongs ps qs) : Prolongs (p :: ps) (q :: qs) := by
  intro k
  cases k with
  | zero => exact h
  | succ k => exact hrest k

/-- Telling an event adds to records, also if a plugin fails. -/
theorem Plugin.prolongs_left_tell (P : Plugin σ) (env : Setting) (e : Event)
    (ps : List (σ × List Event)) (s : Solver) :
    Prolongs ps (left (P.recorded.tell env e ps s)).2 := by
  induction ps generalizing s with
  | nil => exact refl_of Prolongs _
  | cons p ps ih =>
      unfold Plugin.tell
      cases h : (P.recorded.react env e p).run env s with
      | error err t => exact refl_of Prolongs _
      | ok q t =>
          have hq : p.2 <+: q.2 := by
            obtain ⟨_, rfl, _⟩ := Service.run_map.1 h
            exact List.prefix_append _ _
          have hrest := ih t
          dsimp only
          cases h' : P.recorded.tell env e ps t with
          | ok _ x | error _ x =>
              rw [h'] at hrest
              exact .cons hq hrest

namespace Machine

variable {P : Plugin σ} {env : Setting} {R : List σ → List σ → Prop}

/-- No fact is taken, and the plugins change as {lit}`R` says. -/
structure Continues (R : List σ → List σ → Prop) (m n : Machine σ) : Prop where
  processed : n.solver.processed = m.solver.processed
  plugins : R m.plugins n.plugins

variable [IsPreorder (List σ) R]

instance isPreorder_continues : IsPreorder (Machine σ) (Continues R) where
  refl m := ⟨rfl, refl_of R m.plugins⟩
  trans _ _ _ h k := ⟨k.processed.trans h.processed, trans_of R h.plugins k.plugins⟩

/-- The working in of a fact that has been counted counts no further one, also if it fails. -/
theorem spans_continues (htell : ∀ e, Leads (Continues R) (tell P env e)) :
    Spans P env (Continues R) where
  preorder := inferInstance
  told := htell
  accretes := fun hs => ⟨hs.processed, refl_of R _⟩
  calls := fun _ => ⟨rfl, refl_of R _⟩
  merges := fun _ _ _ => ⟨rfl, refl_of R _⟩

/-- Telling an event only adds to records. -/
theorem continues_tell_recorded (P : Plugin σ) (env : Setting) (e : Event) :
    Leads (Continues Prolongs) (tell P.recorded env e) := by
  intro m
  rw [left_tell]
  exact ⟨(P.recorded.accretes_left_tell env e m.plugins m.solver).processed,
    P.prolongs_left_tell env e m.plugins m.solver⟩

end Machine

/-! ## Without records -/

/-- What a function makes of the value that a conversation ends with, if it does not fail. -/
theorem Service.run_map_apply {β : Type} (x : Service α) (f : α → β) (env : Setting)
    (s : Solver) :
    (x.bind fun a => .done (f a)).run env s =
      match x.run env s with
      | .ok a t => .ok (f a) t
      | .error e t => .error e t := by
  rw [run_bind]
  show EStateM.bind _ _ s = _
  unfold EStateM.bind
  cases x.run env s <;> rfl

/-- Plugins whose states are translations of those of others, and that react alike, are told of
an event alike. -/
theorem Plugin.tell_map {P : Plugin σ} {Q : Plugin τ} {f : σ → τ} {env : Setting} {e : Event}
    (h : ∀ p, Q.react env e (f p) = (P.react env e p).bind fun q => .done (f q)) (ps : List σ)
    (s : Solver) :
    Q.tell env e (ps.map f) s =
      match P.tell env e ps s with
      | .ok _ (t, qs) => .ok ⟨⟩ (t, qs.map f)
      | .error err (t, qs) => .error err (t, qs.map f) := by
  induction ps generalizing s with
  | nil => rfl
  | cons p ps ih =>
      rw [List.map_cons, Plugin.tell, Plugin.tell, h p, Service.run_map_apply]
      cases (P.react env e p).run env s with
      | error err t => rfl
      | ok q t =>
          dsimp only
          rw [ih t]
          cases P.tell env e ps t <;> rfl

theorem Machine.mirrors_tell_map {P : Plugin σ} {Q : Plugin τ} {f : σ → τ} {env : Setting}
    {e : Event} (h : ∀ p, Q.react env e (f p) = (P.react env e p).bind fun q => .done (f q)) :
    Mirrors (List.map f) (tell P env e) (tell Q env e) := by
  intro m
  unfold tell
  rw [plugins_mapPlugins, solver_mapPlugins, Plugin.tell_map h]
  cases P.tell env e m.plugins m.solver <;> rfl

/-- The verdict on a run. -/
def Analysis.verdictOf (a : Analysis) : Outcome × Machine σ → Verdict
  | (.finished, m) => .finished { solver := m.solver, strategy := a.options.context }
  | (.failed e, m) => .failed e m.solver.notes
  | (.unfinished, _) => .unfinished

/-- Records of all plugins but the observers are dropped. -/
def observersOnly : (Member ⊕ τ) × List Event → Member ⊕ τ × List Event
  | (.inl p, _) => .inl p
  | (.inr q, record) => .inr (q, record)

theorem Analysis.fst_observeFrom_eq_recordFrom (a : Analysis) (O : Plugin τ) (q : τ) (steps : Nat)
    (p : Program) (files : Reflection.Files) (entries : List MethodId) :
    (a.observeFrom O q steps p files entries).1 =
      a.verdictOf (a.recordFrom O [q] steps p files entries) := by
  have hreact : ∀ e (x : (Member ⊕ τ) × List Event),
      (Member.plugin.observedBy O).react (a.setting p) e (observersOnly x) =
        ((Member.plugin.beside O).recorded.react (a.setting p) e x).bind fun y =>
          .done (observersOnly y) := by
    rintro e ⟨m | q, record⟩
    · show (Member.plugin.react _ e m).bind _ = (((Member.plugin.react _ e m).bind _).bind _).bind _
      simp only [Service.bind_assoc]
      rfl
    · show (O.react _ e q).bind _ = (((O.react _ e q).bind _).bind _).bind _
      simp only [Service.bind_assoc]
      rfl
  unfold observeFrom recordFrom
  cases a.members p files with
  | error e => rfl
  | ok members =>
      have hstart : Machine.new (members.map .inl ++ [.inr (q, [])]) =
          (Machine.new ((members.map Sum.inl ++ [q].map Sum.inr).map fun x => (x, []))).mapPlugins
            (List.map observersOnly) := by
        simp [Machine.new, Machine.mapPlugins, observersOnly, Function.comp_def]
      dsimp only
      rw [hstart, Machine.solve_mapPlugins fun e => Machine.mirrors_tell_map (hreact e)]
      generalize
        Machine.solve (Member.plugin.beside O).recorded (a.setting p) steps entries _ = run
      obtain ⟨outcome, m⟩ := run
      cases outcome <;> rfl

/-- A run ends as the run with records does, if the observer leaves it alone. -/
theorem Analysis.runFrom_eq_recordFrom (a : Analysis) {O : Plugin τ} (hO : O.Still) (q : τ)
    (steps : Nat) (p : Program) (files : Reflection.Files) (entries : List MethodId) :
    a.runFrom steps p files entries =
      a.verdictOf (a.recordFrom O [q] steps p files entries) := by
  rw [← fst_observeFrom hO q, fst_observeFrom_eq_recordFrom]

end PointsTo
