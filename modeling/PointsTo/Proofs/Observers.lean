import PointsTo.Proofs.Members
import PointsTo.Proofs.ToldEvents

/-!
# Observed runs

An observer is a plugin that is registered behind others and asserts nothing.  Its run is
instrumented: a record of the events that it hears of is kept beside its state.  What is told in
a run is what the observer has on record, event by event.

Main results:

- {lit}`Plugin.Passive`: the plugin asserts nothing.
- {lit}`Plugin.observedBy`, {lit}`Analysis.observeFrom`: runs with an observer and its record.
- Theorem {lit}`Machine.Records.of_tells`: the record is what was told.
- Theorem {lit}`Plugin.Honest.observedBy`: an observer does not make plugins break their rules.
- Theorem {lit}`Member.queue_of_finish`: the provided plugins take no notice of the end of a run.
-/

namespace PointsTo

variable {σ τ : Type}

/-! ## Observers -/

/-- The plugin asserts nothing, whatever it is told. -/
def Plugin.Passive (O : Plugin τ) : Prop := ∀ env e q, (O.react env e q).Neutral

/-- A plugin that takes no notice of anything asserts nothing. -/
theorem Plugin.passive_silent (name : String) : (silent τ name).Passive := fun _ _ _ => trivial

/-- Plugins together with an observer, and the record of the events that it hears of. -/
def Plugin.observedBy (P : Plugin σ) (O : Plugin τ) : Plugin (σ ⊕ τ × List Event) where
  name := fun
    | .inl p => P.name p
    | .inr (q, _) => O.name q
  react := fun env e => fun
    | .inl p => do return .inl (← P.react env e p)
    | .inr (q, record) => do return .inr (← O.react env e q, record ++ [e])

/-- The record that is kept at a place among the plugins. -/
def Machine.record (m : Machine (σ ⊕ τ × List Event)) (k : Nat) : List Event :=
  match m.plugins[k]? with
  | some (.inr (_, record)) => record
  | _ => []

/-- Run from given entry methods with an observer behind all other plugins.  The second value is
the record of the observer. -/
def Analysis.observeFrom (a : Analysis) (O : Plugin τ) (q : τ) (steps : Nat) (p : Program)
    (files : Reflection.Files) (entries : List MethodId) : Verdict × List Event :=
  match a.members p files with
  | .error e => (.failed e [], [])
  | .ok members =>
    match Machine.solve (Member.plugin.observedBy O) (a.setting p) steps entries
      (.new (members.map .inl ++ [.inr (q, [])])) with
    | (.finished, m) =>
      (.finished { solver := m.solver, strategy := a.options.context }, m.record members.length)
    | (.failed e, m) => (.failed e m.solver.notes, m.record members.length)
    | (.unfinished, m) => (.unfinished, m.record members.length)

/-! ## Records -/

section Records

variable {P : Plugin σ} {O : Plugin τ} {env : Setting} {s t : Solver} {e : Event}
  {es told : List Event} {k : Nat}

theorem Plugin.react_inl {p : σ} {x : σ ⊕ τ × List Event} :
    ((P.observedBy O).react env e (.inl p)).run env s = .ok x t ↔
      ∃ q, x = .inl q ∧ (P.react env e p).run env s = .ok q t :=
  Service.run_map (x := P.react env e p)

theorem Plugin.react_inr {q : τ} {x : σ ⊕ τ × List Event} :
    ((P.observedBy O).react env e (.inr (q, told))).run env s = .ok x t ↔
      ∃ q', x = .inr (q', told ++ [e]) ∧ (O.react env e q).run env s = .ok q' t :=
  Service.run_map (x := O.react env e q)

/-- An observer is at a place among the plugins, and has certain events on record. -/
def Machine.Records (m : Machine (σ ⊕ τ × List Event)) (k : Nat) (told : List Event) : Prop :=
  ∃ q, m.plugins[k]? = some (.inr (q, told))

theorem Machine.Records.record {m : Machine (σ ⊕ τ × List Event)} (h : m.Records k told) :
    m.record k = told := by
  obtain ⟨q, hq⟩ := h
  rw [Machine.record, hq]

/-- What is told is put on record, behind what is there already. -/
theorem Machine.Records.of_tells {m n : Machine (σ ⊕ τ × List Event)} (hm : m.Records k told)
    (h : Tells (P.observedBy O) env es m n) : n.Records k (told ++ es) := by
  induction h generalizing told with
  | nothing hplugins =>
      obtain ⟨q, hq⟩ := hm
      rw [List.append_nil]
      exact ⟨q, by rw [hplugins, hq]⟩
  | event htell =>
      obtain ⟨q, hq⟩ := hm
      obtain ⟨_, _, _, _, hreact, hk, _⟩ := reaction_of_tell htell hq
      obtain ⟨q', rfl, _⟩ := Plugin.react_inr.1 hreact
      exact ⟨q', hk⟩
  | append _ _ ih ih' =>
      rw [← List.append_assoc]
      exact ih' (ih hm)

end Records

/-! ## Plugins with an observer -/

/-- What is asked of the states of the other plugins; nothing is asked of the observer. -/
def Observed (K : View → σ → Prop) (k : View) : σ ⊕ τ × List Event → Prop
  | .inl p => K k p
  | .inr _ => True

/-- An observer does not make plugins break their rules. -/
theorem Plugin.Honest.observedBy {P : Plugin σ} {O : Plugin τ} {env : Setting}
    {K : View → σ → Prop} (hP : P.Honest env (PluginRule env) K) (hO : O.Passive) :
    (P.observedBy O).Honest env (PluginRule env) (Observed K) where
  rule_exists := hP.rule_exists
  mono := by
    rintro k l (p | q) h hle
    · exact hP.mono h hle
    · trivial
  react := by
    rintro s t e (p | ⟨q, told⟩) x hs hp he h
    · obtain ⟨q, rfl, hq⟩ := react_inl.1 h
      exact hP.react hs hp he hq
    · obtain ⟨q', rfl, hq⟩ := react_inr.1 h
      exact ⟨((hO env e q).evolves hq).mono fun _ _ => .of_neutral, trivial⟩

/-! ## The end of a run -/

/-- Plugins that assert nothing when they are told of an event leave the queue alone. -/
theorem Plugin.queue_of_tell {P : Plugin σ} {env : Setting} {e : Event} {ps qs : List σ}
    {s t : Solver} (hneutral : ∀ p ∈ ps, (P.react env e p).Neutral)
    (h : P.tell env e ps s = .ok ⟨⟩ (t, qs)) : t.queue = s.queue := by
  induction ps generalizing s qs with
  | nil =>
      unfold Plugin.tell at h
      cases h
      rfl
  | cons p ps ih =>
      unfold Plugin.tell at h
      split at h
      · cases h
      · rename_i q u hq
        split at h
        · cases h
        · rename_i v rs hrest
          cases h
          rw [ih (fun p' hp' => hneutral p' (List.mem_cons_of_mem _ hp')) hrest]
          exact ((hneutral p List.mem_cons_self).evolves hq).queue_eq

/-- The provided plugins take no notice of the end of a run. -/
theorem Member.neutral_finish {m : Member} {env : Setting} {k : View}
    (h : m.Sound env.program k) : (Member.plugin.react env .finish m).Neutral := by
  cases m with
  | lambda | reflection => trivial
  | script script =>
      exact Service.Asks.bind (Script.neutral_react h) fun _ _ => trivial

/-- Nothing is left to do when plugins and observer were told of the end of a run. -/
theorem Member.queue_of_finish {O : Plugin τ} {env : Setting}
    {m n : Machine (Member ⊕ τ × List Event)} (hO : O.Passive)
    (hsound : ∀ p ∈ m.plugins,
      Observed (fun k m => Member.Sound env.program k m) m.solver.settled p)
    (h : Machine.tell (Member.plugin.observedBy O) env .finish m = .ok ⟨⟩ n) :
    n.solver.queue = m.solver.queue := by
  unfold Machine.tell at h
  split at h
  · rename_i s ps hps
    cases h
    refine Plugin.queue_of_tell ?_ hps
    rintro (p | ⟨q, told⟩) hp
    · exact Service.Asks.bind (neutral_finish (hsound _ hp)) fun _ _ => trivial
    · exact Service.Asks.bind (hO env .finish q) fun _ _ => trivial
  · cases h

end PointsTo
