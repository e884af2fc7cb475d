import PointsTo.Proofs.Closure
import PointsTo.Proofs.Members
import PointsTo.Proofs.RunRelations

/-!
# Questions about aliasing

The objects that a variable may refer to are collected from all contexts, put in order and
searched.  That this finds the right ones rests on two things: the points-to sets of a run are
listed pointer by pointer, each once, and the list that is searched is sorted.

Main results:

- {lit}`PointsToMap.MergesTo`: sets that change by merges alone.
- {lit}`Result.Answers`: questions about aliasing are answered rightly.
- Theorem {lit}`Result.pointsTo_eq_of_perm`: the order in which pointers are listed does not matter.
- Theorem {lit}`Analysis.answers_of_yields`: those to the result of a run are, whatever plugins
  took part in it.
-/

namespace PointsTo

variable {σ : Type}

/-! ## Maps without repetition -/

namespace PointsToMap

/-- One map is made of another by merges. -/
def MergesTo : PointsToMap → PointsToMap → Prop :=
  Relation.ReflTransGen fun m n => ∃ ptr os, n = m.merge ptr os

/-- Merges list no pointer twice. -/
theorem MergesTo.nodup_pointers {m n : PointsToMap} (h : m.MergesTo n) (hm : m.pointers.Nodup) :
    n.pointers.Nodup := by
  induction h with
  | refl => exact hm
  | tail _ hstep ih =>
      obtain ⟨ptr, os, rfl⟩ := hstep
      exact nodup_pointers_merge ih ptr os

end PointsToMap

/-- Points-to sets change by merges alone in the course of a run. -/
theorem Machine.spans_mergesTo (P : Plugin σ) (env : Setting) :
    Spans P env fun m n => m.solver.pointsTo.MergesTo n.solver.pointsTo where
  preorder := { refl := fun _ => .refl, trans := fun _ _ _ => .trans }
  told := by
    intro e m
    rw [left_tell, (P.accretes_left_tell env e m.plugins m.solver).pointsTo]
    exact .refl
  accretes := by
    intro m s hs
    rw [hs.pointsTo]
    exact .refl
  calls := fun _ => .refl
  merges := fun _ ptr os => .single ⟨ptr, os, rfl⟩

/-- A run lists every pointer once, however it ends. -/
theorem Machine.nodup_pointers_of_solve (P : Plugin σ) (env : Setting) (steps : Nat)
    (entries : List MethodId) (ps : List σ) :
    (solve P env steps entries (.new ps)).2.solver.pointsTo.pointers.Nodup := by
  have h := (spans_mergesTo P env).solve (fun _ _ _ => .refl) steps entries (.new ps)
  exact h.nodup_pointers List.nodup_nil

/-! ## Answers -/

namespace Result

/-- Questions about aliasing are answered rightly. -/
structure Answers (r : Result) : Prop where
  ascending : ∀ v, (r.pointsTo v).Pairwise fun o q => o.index < q.index
  mem_iff : ∀ v o, o ∈ r.pointsTo v ↔
    ∃ context heapContext, ⟨heapContext, o⟩ ∈ r.pointsToIn ⟨context, v⟩
  mayAlias_iff : ∀ a b, r.mayAlias a b = true ↔ ∃ o, o ∈ r.pointsTo a ∧ o ∈ r.pointsTo b
  symmetric : ∀ a b, r.mayAlias a b = r.mayAlias b a
  reflexive_iff : ∀ a, r.mayAlias a a = true ↔ r.pointsTo a ≠ []

/-- What is listed for a variable under some context is collected. -/
theorem mem_pointsTo {r : Result} {v : VarId} {o : ObjId} : o ∈ r.pointsTo v ↔
    ∃ context heapContext os, (.var ⟨context, v⟩, os) ∈ r.solver.pointsTo.entries ∧
      ⟨heapContext, o⟩ ∈ os := by
  unfold pointsTo
  rw [Id.mem_ascending, List.mem_flatMap]
  constructor
  · rintro ⟨⟨ptr, os⟩, hentry, ho⟩
    cases ptr with
    | field | static | array => exact absurd ho List.not_mem_nil
    | var q =>
        simp only [Pointer.var?] at ho
        by_cases hq : q.item = v
        · subst hq
          rw [if_pos rfl] at ho
          obtain ⟨⟨heapContext, _⟩, hmem, rfl⟩ := List.mem_map.1 ho
          exact ⟨q.context, heapContext, os, hentry, hmem⟩
        · rw [if_neg hq] at ho
          exact absurd ho List.not_mem_nil
  · rintro ⟨context, heapContext, os, hentry, ho⟩
    refine ⟨_, hentry, ?_⟩
    simp only [Pointer.var?, if_true]
    exact List.mem_map.2 ⟨⟨heapContext, o⟩, ho, rfl⟩

theorem pairwise_pointsTo (r : Result) (v : VarId) :
    (r.pointsTo v).Pairwise fun o q => o.index < q.index := Id.pairwise_ascending _

/-- The search finds what both variables may refer to. -/
theorem mayAlias_iff {r : Result} {a b : VarId} :
    r.mayAlias a b = true ↔ ∃ o, o ∈ r.pointsTo a ∧ o ∈ r.pointsTo b := by
  have hsorted := (r.pairwise_pointsTo a).imp Nat.le_of_lt
  simp only [mayAlias, List.any_eq_true, Id.isSome_search? hsorted]
  exact exists_congr fun o => and_comm

/-- The answers to questions about aliasing do not depend on the order of the entries. -/
theorem pointsTo_eq_of_perm {r t : Result}
    (h : r.solver.pointsTo.entries.Perm t.solver.pointsTo.entries) (v : VarId) :
    r.pointsTo v = t.pointsTo v := by
  apply Id.eq_of_pairwise (r.pairwise_pointsTo v) (t.pairwise_pointsTo v)
  intro o
  simp only [mem_pointsTo, h.mem_iff]

theorem answers_of_nodup {r : Result} (h : r.solver.pointsTo.pointers.Nodup) : r.Answers where
  ascending := r.pairwise_pointsTo
  mem_iff := by
    intro v o
    rw [mem_pointsTo]
    refine exists₂_congr fun context heapContext => ?_
    constructor
    · rintro ⟨os, hentry, ho⟩
      rwa [pointsToIn, PointsToMap.get_of_mem_entries h hentry]
    · exact PointsToMap.exists_mem_entries
  mayAlias_iff := fun _ _ => mayAlias_iff
  symmetric := by
    intro a b
    rw [Bool.eq_iff_iff, mayAlias_iff, mayAlias_iff]
    exact exists_congr fun o => and_comm
  reflexive_iff := by
    intro a
    rw [mayAlias_iff]
    simp only [and_self]
    exact ⟨fun ⟨_, ho⟩ => List.ne_nil_of_mem ho, List.exists_mem_of_ne_nil _⟩

end Result

/-! ## Analyses -/

namespace Analysis

/-- A run of the analysis, in which any plugins may take part, ends with the result. -/
def Yields (a : Analysis) (p : Program) (r : Result) : Prop :=
  ∃ (σ : Type) (P : Plugin σ) (ps : List σ) (steps : Nat) (entries : List MethodId)
    (m : Machine σ), Machine.solve P (a.setting p) steps entries (.new ps) = (.finished, m) ∧
      r = { solver := m.solver, strategy := a.options.context }

theorem yields_of_runFrom {a : Analysis} {steps : Nat} {p : Program} {files : Reflection.Files}
    {entries : List MethodId} {r : Result} (h : a.runFrom steps p files entries = .finished r) :
    a.Yields p r := by
  obtain ⟨members, m, _, hsolve, hr⟩ := solve_of_runFrom h
  exact ⟨Member, Member.plugin, members, steps, entries, m, hsolve, hr⟩

/-- Questions about aliasing to the result of a run are answered rightly. -/
theorem answers_of_yields {a : Analysis} {p : Program} {r : Result} (h : a.Yields p r) :
    r.Answers := by
  obtain ⟨σ, P, ps, steps, entries, m, hsolve, rfl⟩ := h
  have hnodup := Machine.nodup_pointers_of_solve P (a.setting p) steps entries ps
  rw [hsolve] at hnodup
  exact Result.answers_of_nodup hnodup

/-- A method that is called on two objects. -/
def passingTwice : List Declaration :=
  [.cls (.plain "A"), .method ⟨"A", "m", [.cls "A"], .void, true, false, true⟩,
    .method ⟨"A", "main", [], .void, true, false, true⟩, .var ⟨1⟩ "a" (.cls "A"),
    .var ⟨1⟩ "b" (.cls "A"), .stmt ⟨1⟩ (.new ⟨1⟩ (.cls "A")), .stmt ⟨1⟩ (.new ⟨2⟩ (.cls "A")),
    .call ⟨1⟩ ⟨.static, ⟨"A", "m", [.cls "A"], .void⟩, none, [⟨1⟩], none⟩,
    .call ⟨1⟩ ⟨.static, ⟨"A", "m", [.cls "A"], .void⟩, none, [⟨2⟩], none⟩]

/-- The parameter refers to another object under each of two contexts, and may refer to the
object of either argument. -/
theorem answers_of_yields_passing :
    let a : Analysis := { options := oneCallSite false false }
    let p := (settingOf passingTwice a.options).program
    ∃ r, a.Yields p r ∧ r.Answers ∧ r.mayAlias ⟨0⟩ ⟨1⟩ = true ∧ r.mayAlias ⟨0⟩ ⟨2⟩ = true := by
  intro a p
  have hfacts : (match a.runFrom 20 p (fun _ => none) [⟨1⟩] with
      | .finished r => decide (
          ⟨emptyContext, ⟨0⟩⟩ ∈ r.pointsToIn ⟨⟨1⟩, ⟨0⟩⟩ ∧
            ⟨emptyContext, ⟨1⟩⟩ ∈ r.pointsToIn ⟨⟨2⟩, ⟨0⟩⟩ ∧
            ⟨emptyContext, ⟨0⟩⟩ ∈ r.pointsToIn ⟨emptyContext, ⟨1⟩⟩ ∧
            ⟨emptyContext, ⟨1⟩⟩ ∈ r.pointsToIn ⟨emptyContext, ⟨2⟩⟩)
      | _ => false) = true := by decide +kernel
  cases hrun : a.runFrom 20 p (fun _ => none) [⟨1⟩] with
  | failed | unfinished =>
      rw [hrun] at hfacts
      cases hfacts
  | finished r =>
      rw [hrun] at hfacts
      obtain ⟨hfirst, hsecond, ha, hb⟩ := of_decide_eq_true hfacts
      have hyields : a.Yields p r := yields_of_runFrom hrun
      have hanswers := answers_of_yields hyields
      have hmem : ∀ {v c o}, ⟨emptyContext, o⟩ ∈ r.pointsToIn ⟨c, v⟩ → o ∈ r.pointsTo v :=
        fun ho => (hanswers.mem_iff _ _).2 ⟨_, _, ho⟩
      refine ⟨r, hyields, hanswers, ?_, ?_⟩
      · exact (hanswers.mayAlias_iff _ _).2 ⟨⟨0⟩, hmem hfirst, hmem ha⟩
      · exact (hanswers.mayAlias_iff _ _).2 ⟨⟨1⟩, hmem hsecond, hmem hb⟩

end Analysis

end PointsTo
