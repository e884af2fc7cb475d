import PointsTo.Proofs.Scoping

/-!
# What plugins remember

A plugin is told of a method when it becomes reachable, and of a variable when it refers to
more.  What it has to do in the end it can do only if it keeps in mind what it was told: that a
method is reachable when one of its variables refers to more, and conversely.  This file follows
the memory of one plugin through a run, and what it owes because of it.

Main results:

- {lit}`Plugin.Memory`: what a plugin keeps in mind of the events that it was told of.
- Theorem {lit}`Machine.recalls_of_visits`: at every stage the plugin knows of all methods that are
  reachable.
- {lit}`Plugin.Duty`, and theorem {lit}`Machine.fulfilled_of_visits`: at every stage all is done
  that what variables refer to asks for, if the plugin does what is new to ask for whenever it is
  told.
-/

namespace PointsTo

variable {σ : Type} {P : Plugin σ} {env : Setting}

/-! ## Memory -/

/-- What a plugin keeps in mind: a condition that its states satisfy, and for every event that a
method is reachable what it knows from then on. -/
structure Plugin.Memory (P : Plugin σ) (env : Setting) where
  Sane : σ → Prop
  Knows : Event → σ → Prop
  sane : ∀ {s t p q e}, Sane p → (P.react env e p).run env s = .ok q t → Sane q
  keeps : ∀ {s t p q e e'}, Sane p → Knows e' p → (P.react env e p).run env s = .ok q t →
    Knows e' q
  method : ∀ {s t p q m}, Sane p → (P.react env (.method m) p).run env s = .ok q t →
    Knows (.method m) q
  methodIn : ∀ {s t p q m}, Sane p → Knows (.method m.item) p →
    (P.react env (.methodIn m) p).run env s = .ok q t → Knows (.methodIn m) q

namespace Plugin.Memory

variable {M : P.Memory env} {A : MethodId → Prop} {B : QMethod → Prop} {p q : σ} {s t : Solver}

/-- The plugin knows of some methods that they are reachable. -/
structure Covers (M : P.Memory env) (A : MethodId → Prop) (B : QMethod → Prop) (p : σ) : Prop where
  sane : M.Sane p
  method : ∀ {i}, A i → M.Knows (.method i) p
  methodIn : ∀ {i}, B i → M.Knows (.methodIn i) p

/-- What a plugin covers it goes on covering. -/
theorem Covers.of_react {e : Event} (h : M.Covers A B p)
    (hr : (P.react env e p).run env s = .ok q t) : M.Covers A B q where
  sane := M.sane h.sane hr
  method := fun hi => M.keeps h.sane (h.method hi) hr
  methodIn := fun hi => M.keeps h.sane (h.methodIn hi) hr

end Plugin.Memory

namespace Machine

variable {M : P.Memory env} {A : MethodId → Prop} {B : QMethod → Prop} {k : Nat} {m n : Machine σ}
  {entries : List MethodId} {plugins : List σ} {stage : Stage σ} {i : QMethod}

/-- Plugin number {lit}`k` knows of some methods that they are reachable. -/
def Mindful (M : P.Memory env) (k : Nat) (A : MethodId → Prop) (B : QMethod → Prop)
    (m : Machine σ) : Prop :=
  ∃ p, m.plugins[k]? = some p ∧ M.Covers A B p

namespace Mindful

/-- A machine stays mindful while it acts. -/
theorem of_acts (h : Mindful M k A B m) (ha : Acts P env m n) : Mindful M k A B n := by
  obtain ⟨p, hk, hp⟩ := h
  exact ha.keeps_at (J := fun _ p => M.Covers A B p) (fun hp _ => hp)
    (fun hp _ hr => hp.of_react hr) hk hp

/-- An event that is told reaches the plugin. -/
theorem reaction {e : Event} (h : Mindful M k A B m) (htell : tell P env e m = .ok ⟨⟩ n) :
    ∃ s p q t, p ∈ m.plugins ∧ M.Covers A B p ∧ m.solver.Accretes s ∧
      (P.react env e p).run env s = .ok q t ∧ n.plugins[k]? = some q ∧ t.Accretes n.solver := by
  obtain ⟨p, hk, hp⟩ := h
  obtain ⟨s, q, t, hms, hr, hq, htn⟩ := reaction_of_tell htell hk
  exact ⟨s, p, q, t, List.mem_of_getElem? hk, hp, hms, hr, hq, htn⟩

/-- The plugin is told of a method. -/
theorem of_method {i : MethodId} (h : Mindful M k A B m)
    (htell : tell P env (.method i) m = .ok ⟨⟩ n) :
    Mindful M k (fun j => j = i ∨ A j) B n := by
  obtain ⟨s, p, q, t, _, hp, _, hr, hq, _⟩ := h.reaction htell
  have hp' := hp.of_react hr
  refine ⟨q, hq, hp'.sane, ?_, hp'.methodIn⟩
  rintro j (rfl | hj)
  · exact M.method hp.sane hr
  · exact hp'.method hj

/-- The plugin is told of a method under a context. -/
theorem of_methodIn (h : Mindful M k A B m) (hi : A i.item)
    (htell : tell P env (.methodIn i) m = .ok ⟨⟩ n) :
    Mindful M k A (fun j => j = i ∨ B j) n := by
  obtain ⟨s, p, q, t, _, hp, _, hr, hq, _⟩ := h.reaction htell
  have hp' := hp.of_react hr
  refine ⟨q, hq, hp'.sane, hp'.method, ?_⟩
  rintro j (rfl | hj)
  · exact M.methodIn hp.sane (hp.method hi) hr
  · exact hp'.methodIn hj

/-- Who is mindful of more is mindful of less. -/
theorem mono {A' : MethodId → Prop} {B' : QMethod → Prop} (h : Mindful M k A B m)
    (hA : ∀ i, A' i → A i) (hB : ∀ i, B' i → B i) : Mindful M k A' B' m := by
  obtain ⟨p, hk, hp⟩ := h
  exact ⟨p, hk, hp.sane, fun hi => hp.method (hA _ hi), fun hi => hp.methodIn (hB _ hi)⟩

end Mindful

/-- Plugin number {lit}`k` knows of all methods that are reachable. -/
def Recalls (M : P.Memory env) (k : Nat) (m : Machine σ) : Prop :=
  Mindful M k (· ∈ m.solver.calls.reachable) (· ∈ m.solver.calls.reachableIn) m

namespace Recalls

/-- Acts forget nothing. -/
theorem of_acts (h : Recalls M k m) (ha : Acts P env m n) : Recalls M k n := by
  unfold Recalls
  rw [ha.accretes.calls]
  exact Mindful.of_acts h ha

/-- What the plugin knows when a method is about to be announced under its context. -/
theorem before_methodIn (h : Recalls M k m) (he : Entered P env i m n) :
    ∃ u, Acts P env (m.discover i) u ∧ tell P env (.methodIn i) u = .ok ⟨⟩ n ∧
      Mindful M k (fun j => j = i.item ∨ j ∈ m.solver.calls.reachable)
        (· ∈ m.solver.calls.reachableIn) u := by
  have hfound : Mindful M k (· ∈ m.solver.calls.reachable) (· ∈ m.solver.calls.reachableIn)
      (m.discover i) := h
  by_cases hknown : i.item ∈ m.solver.calls.reachable
  · obtain ⟨u, hacts, htell⟩ := he.methodIn
    refine ⟨u, hacts, htell, (hfound.of_acts hacts).mono ?_ fun _ => id⟩
    rintro j (rfl | hj)
    · exact hknown
    · exact hj
  · obtain ⟨u, v, htell, huv, htell'⟩ := he.order hknown
    have hnew : i.item ∈ (m.discover i).solver.calls.reachable :=
      CallGraph.item_mem_discover he.new
    exact ⟨v, (tell_acts htell hnew).trans huv, htell', (hfound.of_method htell).of_acts huv⟩

/-- Once a method was entered, the plugin knows of it. -/
theorem of_entered (h : Recalls M k m) (he : Entered P env i m n) : Recalls M k n := by
  obtain ⟨u, _, htell, hu⟩ := h.before_methodIn he
  have hcalls : n.solver.calls = m.solver.calls.discover i := he.acts.accretes.calls
  refine (hu.of_methodIn (.inl rfl) htell).mono ?_ ?_
  · intro j hj
    rw [hcalls] at hj
    exact CallGraph.mem_reachable_discover hj
  · intro j hj
    rw [hcalls] at hj
    exact CallGraph.mem_reachableIn_discover.1 hj

/-- Every step of a run leaves the plugin with all that it knows. -/
theorem invariant : Invariant P env (Recalls M k) := by
  refine .of_reachable of_acts of_entered ?_
  intro m n hplugins hreachable hreachableIn h
  unfold Recalls Mindful
  rw [hplugins, hreachable, hreachableIn]
  exact h

end Recalls

/-- At every stage of a grounded run the plugin knows of all methods that are reachable. -/
theorem recalls_of_visits {p : σ} (hk : plugins[k]? = some p) (hp : M.Sane p)
    (h : Visits P env entries (.new plugins) stage)
    (hg : Grounded P env entries (.new plugins)) : Recalls M k stage.machine := by
  have hstart : Recalls M k (.new plugins) :=
    ⟨p, hk, hp, fun hi => absurd hi (OrderedSet.not_mem_empty _),
      fun hi => absurd hi (OrderedSet.not_mem_empty _)⟩
  exact Recalls.invariant.visits hstart h hg

end Machine

/-! ## Duties -/

/-- Some objects are new to a variable, and nothing else is new. -/
structure PointsToMap.Gains (before after : PointsToMap) (v : QVar) (delta : ObjSet) : Prop where
  grown : (after.get (.var v)).toList = (before.get (.var v)).toList ++ delta.toList
  same : ∀ {ptr}, ptr ≠ .var v → after.get ptr = before.get ptr

namespace PointsToMap

/-- A merge adds to the set of a variable what is new to it. -/
theorem gains_merge (m : PointsToMap) (v : QVar) (os : ObjSet) :
    m.Gains (m.merge (.var v) os) v (os.newIn (m.get (.var v))) where
  grown := by
    rw [get_merge, if_pos rfl]
    exact OrderedSet.toList_union _ _
  same := fun hptr => by rw [get_merge, if_neg hptr]

/-- A merge that brings nothing new to a variable leaves its set alone. -/
theorem get_var_merge {m : PointsToMap} {ptr : Pointer} {os : ObjSet} (v : QVar)
    (h : ptr = .var v → ∀ o, o ∉ os.newIn (m.get ptr)) :
    (m.merge ptr os).get (.var v) = m.get (.var v) := by
  rw [get_merge]
  split
  · rename_i hv
    refine OrderedSet.ext_toList ?_
    have hnil : (os.newIn (m.get (.var v))).toList = [] :=
      List.eq_nil_iff_forall_not_mem.2 fun o ho => h hv.symm o (hv ▸ ho)
    rw [OrderedSet.toList_union, hnil, List.append_nil]
  · rfl

/-- Of the objects that a variable refers to in the end, some were there and the others are
new. -/
theorem Gains.mem {before after : PointsToMap} {v : QVar} {delta : ObjSet}
    (h : before.Gains after v delta) {u : QVar} {o : QObj} :
    o ∈ after.get (.var u) ↔ o ∈ before.get (.var u) ∨ u = v ∧ o ∈ delta := by
  by_cases hu : u = v
  · subst hu
    simp [OrderedSet.mem_def, h.grown]
  · rw [h.same fun heq => hu (Pointer.var.inj heq)]
    simp [hu]

end PointsToMap

/-- What a plugin has to do because of what variables refer to, from the start or since a method
is reachable.  It does what is new to do when it is told that a variable refers to more, and
what there is to do when it is told of the method. -/
structure Plugin.Duty (M : P.Memory env) (K : View → σ → Prop) (α : Type) where
  since : Option QMethod
  /-- What is known of call graph and points-to sets at every stage of the run. -/
  Given : CallGraph → PointsToMap → Prop
  Wants : PointsToMap → α → Prop
  Done : View → α → Prop
  start : since = none → ∀ x, ¬ Wants .empty x
  vars : ∀ {a b x}, (∀ v, a.get (.var v) = b.get (.var v)) → Wants a x → Wants b x
  mono : ∀ {s t : Solver} {x}, s.Grounded → Wants s.pointsTo x → Done s.expected x →
    s.expected.Le t.expected → Done t.expected x
  grown : ∀ {s t p q v delta before x}, s.Grounded → K s.settled p →
    M.Covers (· ∈ s.calls.reachable) (· ∈ s.calls.reachableIn) p → Given s.calls s.pointsTo →
    (∀ i ∈ since, i ∈ s.calls.reachableIn) → (Event.grown v delta).Holds env s →
    before.Gains s.pointsTo v delta → Wants s.pointsTo x →
    (P.react env (.grown v delta) p).run env s = .ok q t → Wants before x ∨ Done t.expected x
  entered : ∀ {s t p q i x}, since = some i → s.Grounded → K s.settled p →
    M.Sane p → M.Knows (.method i.item) p → i ∈ s.calls.reachableIn → Wants s.pointsTo x →
    (P.react env (.methodIn i) p).run env s = .ok q t → Done t.expected x

namespace Machine

variable {M : P.Memory env} {K : View → σ → Prop} {rules : Solver → Addition → Prop} {α : Type}
  {d : Plugin.Duty M K α} {k : Nat} {m n : Machine σ} {entries : List MethodId}
  {plugins : List σ} {stage : Stage σ} {i : QMethod}

/-- All that is wanted is done, or on its way. -/
def Fulfils (d : Plugin.Duty M K α) (m : Machine σ) : Prop :=
  (∀ i ∈ d.since, i ∈ m.solver.calls.reachableIn) → ∀ x, d.Wants m.solver.pointsTo x →
    d.Done m.solver.expected x

namespace Fulfils

/-- At the beginning there is nothing to fulfil. -/
theorem new : Fulfils d (.new plugins) := by
  intro hsince x hx
  cases hs : d.since with
  | none => exact absurd hx (d.start hs x)
  | some i => exact absurd (hsince i hs) (OrderedSet.not_mem_empty i)

/-- Where no method and no object is new, no more is wanted. -/
theorem of_le (h : Fulfils d m) (hm : m.solver.Grounded)
    (hmn : m.solver.expected.Le n.solver.expected)
    (hreached : ∀ i ∈ d.since, i ∈ n.solver.calls.reachableIn → i ∈ m.solver.calls.reachableIn)
    (hvars : ∀ v, n.solver.pointsTo.get (.var v) = m.solver.pointsTo.get (.var v)) :
    Fulfils d n := by
  intro hsince x hx
  have hold := d.vars hvars hx
  exact d.mono hm hold (h (fun i hi => hreached i hi (hsince i hi)) x hold) hmn

/-- What is fulfilled stays so while a machine acts. -/
theorem of_acts (h : Fulfils d m) (hm : m.solver.Grounded) (ha : Acts P env m n) :
    Fulfils d n := by
  refine h.of_le hm ha.accretes.extends.expected ?_ ?_
  · intro i _ hi
    rwa [ha.accretes.calls] at hi
  · exact fun v => by rw [ha.accretes.pointsTo]

/-- Once a method was entered, all is done that is wanted because of it. -/
theorem of_entered (h : Fulfils d m) (hP : P.Honest env rules K) (hm : m.solver.Grounded)
    (hr : Recalls M k m) (he : Entered P env i m n) (hfound : Scoped K (m.discover i)) :
    Fulfils d n := by
  by_cases hnew : d.since = some i
  · intro _ x hx
    obtain ⟨u, hacts, htell, hu⟩ := hr.before_methodIn he
    have hscoped := hfound.of_acts hP hacts
    obtain ⟨s, p, q, t, hmem, hcovers, hus, hreact, _, htn⟩ := hu.reaction htell
    have hs := hscoped.1.grounded.of_accretes hus
    have hst := (Service.evolves hreact).accretes
    have hreached : i ∈ s.calls.reachableIn := by
      rw [hus.calls, hacts.accretes.calls]
      exact CallGraph.mem_reachableIn_discover.2 (.inl rfl)
    have hx' : d.Wants s.pointsTo x := by rwa [← hst.pointsTo, ← htn.pointsTo]
    have hdone := d.entered hnew hs (hP.mono (hscoped.2 p hmem) hus.extends.settled)
      hcovers.sane (hcovers.method (.inl rfl)) hreached hx' hreact
    exact d.mono (hs.of_accretes hst) (by rwa [hst.pointsTo]) hdone htn.extends.expected
  · have hstill : Fulfils d (m.discover i) := by
      refine h.of_le hm (Solver.extends_discover m.solver i).expected ?_ fun _ => rfl
      intro j hj hreached
      rcases CallGraph.mem_reachableIn_discover.1 hreached with rfl | hreached
      · exact absurd hj hnew
      · exact hreached
    exact hstill.of_acts hfound.1.grounded he.acts

/-- It stays so when a method is reached, since the plugin is told of it. -/
theorem of_reach (h : Fulfils d m) (hP : P.Honest env rules K) (hm : Scoped K m)
    (hr : Recalls M k m) (hreach : reach P env i m = .ok ⟨⟩ n)
    (hi : m.solver.contexts.Has i.context) : Fulfils d n := by
  rcases reach_ok hreach hi with ⟨_, rfl⟩ | hentered
  · exact h
  · exact h.of_entered hP hm.1.grounded hr hentered
      (hm.of_le hP (hm.1.of_discover hi) (Solver.extends_discover m.solver i).settled rfl)

/-- A plugin that is told of the objects that are new to a variable does what is new to do. -/
theorem of_grown {u : Machine σ} {v : QVar} {o : QObj} {delta : ObjSet} {before : PointsToMap}
    (hP : P.Honest env rules K) (hu : Scoped K u) (hr : Recalls M k u)
    (htell : tell P env (.grown v delta) u = .ok ⟨⟩ n)
    (hgiven : d.Given n.solver.calls n.solver.pointsTo)
    (hgains : before.Gains n.solver.pointsTo v delta) (ho : o ∈ delta)
    (hbefore : (∀ i ∈ d.since, i ∈ n.solver.calls.reachableIn) → ∀ x, d.Wants before x →
      d.Done n.solver.expected x) : Fulfils d n := by
  obtain ⟨s, p, q, t, hmem, hcovers, hus, hreact, _, htn⟩ := Mindful.reaction hr htell
  have hs := hu.1.grounded.of_accretes hus
  have hst := (Service.evolves hreact).accretes
  have hcalls : n.solver.calls = s.calls := htn.calls.trans hst.calls
  have hpoints : n.solver.pointsTo = s.pointsTo := htn.pointsTo.trans hst.pointsTo
  have hholds : (Event.grown v delta).Holds env s := by
    have hnew : ∀ o ∈ delta, o ∈ s.pointsTo.get (.var v) := by
      intro o ho
      rw [← hpoints]
      exact hgains.mem.2 (.inr ⟨rfl, ho⟩)
    exact ⟨hs.var v o (hnew o ho), hnew, o, ho⟩
  intro hsince x hx
  have hsince' : ∀ i ∈ d.since, i ∈ s.calls.reachableIn := hcalls ▸ hsince
  rw [hpoints] at hgains hgiven hx
  rw [hcalls] at hgiven
  rw [← hus.calls] at hcovers
  rcases d.grown hs (hP.mono (hu.2 p hmem) hus.extends.settled) hcovers hgiven hsince' hholds
      hgains hx hreact with hold | hdone
  · exact hbefore hsince x hold
  · exact d.mono (hs.of_accretes hst) (by rwa [hst.pointsTo]) hdone htn.extends.expected

/-- A round for objects on their way to a pointer: the plugin is told of those that are new to a
variable. -/
theorem of_process_pointsTo {ptr : Pointer} {os : ObjSet} {rest : List WorkItem}
    (h : Fulfils d m) (hP : P.Honest env rules K) (hm : Scoped K m) (hr : Recalls M k m)
    (hgiven : d.Given n.solver.calls n.solver.pointsTo)
    (hq : m.solver.queue = .pointsTo ptr os :: rest)
    (hp : process P env (.pointsTo ptr os) { m with solver := { m.solver with queue := rest } } =
      .ok ⟨⟩ n) : Fulfils d n := by
  obtain ⟨hacts, hgrew⟩ := process_pointsTo_ok hp (hm.1.exists_of_queue hq)
  have htaken : Scoped K (m.taken env (.pointsTo ptr os) rest) :=
    hm.of_le hP (hm.1.of_take hq) (Solver.extends_take env.program hq).settled rfl
  have hpoints : n.solver.pointsTo = m.solver.pointsTo.merge ptr os :=
    hacts.accretes.pointsTo.trans (Solver.pointsTo_take_pointsTo _ _ _ _ _)
  have htakenCalls : (m.taken env (.pointsTo ptr os) rest).solver.calls = m.solver.calls :=
    Solver.calls_take_pointsTo _ _ _ _ _
  have hcalls : n.solver.calls = m.solver.calls := hacts.accretes.calls.trans htakenCalls
  have hmn : m.solver.expected.Le n.solver.expected :=
    ((Solver.extends_take env.program hq).trans hacts.accretes.extends).expected
  by_cases hnew : ∃ v, ptr = .var v ∧ ∃ o, o ∈ m.solver.delta ptr os
  · obtain ⟨v, rfl, o, ho⟩ := hnew
    obtain ⟨u, hu, htell⟩ := (hgrew v rfl o ho).told
    have hru : Recalls M k u := by
      refine Recalls.of_acts ?_ hu
      unfold Recalls
      rw [htakenCalls]
      exact hr
    refine of_grown hP (htaken.of_acts hP hu) hru htell hgiven
      (hpoints ▸ m.solver.pointsTo.gains_merge v os) ho fun hsince x hold => ?_
    exact d.mono hm.1.grounded hold (h (hcalls ▸ hsince) x hold) hmn
  · refine h.of_le hm.1.grounded hmn ?_ ?_
    · intro i _ hi
      rwa [hcalls] at hi
    · intro v
      rw [hpoints]
      exact PointsToMap.get_var_merge v fun hv o ho => hnew ⟨v, hv, o, ho⟩

/-- A round for a call edge: a method that is new is entered. -/
theorem of_process_call {e : CallEdge} {rest : List WorkItem} (h : Fulfils d m)
    (hP : P.Honest env rules K) (hm : Scoped K m) (hr : Recalls M k m)
    (hq : m.solver.queue = .call e :: rest)
    (hp : process P env (.call e) { m with solver := { m.solver with queue := rest } } =
      .ok ⟨⟩ n) : Fulfils d n := by
  have hhas := hm.1.exists_of_queue hq
  have hacts := process_acts hp hhas
  have hpoints : n.solver.pointsTo = m.solver.pointsTo := by
    rw [hacts.accretes.pointsTo]
    exact Solver.pointsTo_take m.solver env.program (.call e) rest
  by_cases hold : e ∈ m.solver.calls.edges ∨ e.callee ∈ m.solver.calls.reachableIn
  · refine h.of_le hm.1.grounded
      ((Solver.extends_take env.program hq).trans hacts.accretes.extends).expected ?_ ?_
    · intro i _ hi
      rw [hacts.accretes.calls] at hi
      rcases (Solver.mem_reachableIn_take_call (p := env.program)).1 hi with ⟨hnew, rfl⟩ | hi
      · exact hold.resolve_left hnew
      · exact hi
    · exact fun v => by rw [hpoints]
  · obtain ⟨hnew, hin⟩ := not_or.1 hold
    obtain ⟨_, hlinked⟩ := (process_call_ok hp hhas).resolve_left fun hknown => hnew hknown.1
    obtain ⟨u, hentered, hun⟩ := hlinked.entered hin
    have htaken : Scoped K (m.taken env (.call e) rest) :=
      hm.of_le hP (hm.1.of_take (p := env.program) hq)
        (Solver.extends_take env.program hq).settled rfl
    rw [taken_call hnew] at htaken
    have hg := hm.1.grounded
    have hedge : Fulfils d ((m.counted rest).addEdge e) :=
      h.of_le hg (expected_le_addEdge hq) (fun _ _ hi => hi) fun _ => rfl
    have hu : Fulfils d u := hedge.of_entered hP ⟨hg.empty, hg.points, hg.var, hg.reached⟩ hr
      hentered htaken
    exact hu.of_acts (htaken.of_acts hP hentered.acts).1.grounded hun

end Fulfils

/-- At every stage of a run of honest plugins all is done that is wanted. -/
theorem fulfilled_of_visits (hP : P.Honest env rules K)
    (hsound : ∀ p ∈ plugins, K ({} : Solver).settled p) {p : σ} (hk : plugins[k]? = some p)
    (hsane : M.Sane p)
    (hgiven : ∀ {stage : Stage σ}, Visits P env entries (.new plugins) stage →
      d.Given stage.machine.solver.calls stage.machine.solver.pointsTo)
    (h : Visits P env entries (.new plugins) stage) : Fulfils d stage.machine := by
  have hg : Grounded P env entries (.new plugins) := grounded_of_honest hP hsound
  have hrecalls := fun s (hs : Visits P env entries (.new plugins) s) =>
    recalls_of_visits hk hsane hs hg
  have hscoped := fun s (hs : Visits P env entries (.new plugins) s) =>
    scoped_of_visits hP hsound hs
  obtain ⟨m, hm, hrun⟩ := h
  induction hrun with
  | refl =>
      have hnew : Scoped K (.new plugins) := ⟨.new, hsound⟩
      have hstart : Recalls M k (.new plugins) :=
        ⟨p, hk, hsane, fun hi => absurd hi (OrderedSet.not_mem_empty _),
          fun hi => absurd hi (OrderedSet.not_mem_empty _)⟩
      refine (keeps_of_enter (I := fun u => Scoped K u ∧ Recalls M k u ∧ Fulfils d u) hm
        ?_ ?_).2.2
      · intro u htell
        have hacts := tell_acts htell trivial
        exact ⟨hnew.of_acts hP hacts, hstart.of_acts hacts,
          Fulfils.new.of_acts hnew.1.grounded hacts⟩
      · rintro u v i _ ⟨hu, hr, hf⟩ hreach
        exact ⟨hu.of_reach hP hreach hu.1.empty, Recalls.invariant.reach hr hreach hu.1.empty,
          hf.of_reach hP hu hr hreach hu.1.empty⟩
  | @tail a b hpre hstep ih =>
      have hvisit : Visits P env entries (.new plugins) a := ⟨m, hm, hpre⟩
      have hnext := hgiven (hvisit.precedes (.single hstep))
      have hu := hscoped _ hvisit
      have hr := hrecalls _ hvisit
      cases hstep with
      | @work _ _ _ w rest hq hp =>
          cases w with
          | pointsTo ptr os => exact ih.of_process_pointsTo hP hu hr hnext hq hp
          | call e => exact ih.of_process_call hP hu hr hq hp
      | finish hq ht => exact ih.of_acts hu.1.grounded (tell_acts ht trivial)

end Machine

end PointsTo
