import Mathlib.Data.List.Induction
import PointsTo.Proofs.Aliasing
import PointsTo.Proofs.Closure
import PointsTo.Proofs.RunRelations

/-!
# Callees

The methods that a call site leads to are collected from all call edges, whatever the contexts
are.  Edges are kept in the order in which a run finds them, and so the callees are listed in that
order as well, each where the first edge to it was found.  This is no ascending order: a client
that searches the list by halving may miss a callee.

Main results:

- {lit}`CallGraph.FoundBefore`: one callee was found before another.
- {lit}`CallGraph.Callees`: the callees of a call site, each once and in the order of discovery.
- Theorem {lit}`CallGraph.callees_calleesOf`: these are the ones that are listed.
- Theorem {lit}`Analysis.callees_of_solve`: what the result of a run lists, and what is listed
  when the run is stopped early.
-/

namespace PointsTo

/-- A place in a list that was extended by one entry is either the place of that entry, behind all
others, or one in the list itself. -/
theorem mem_of_concat_eq {α : Type} {l before after : List α} {a b c : α} (ha : a ∈ l)
    (hsplit : l ++ [c] = before ++ b :: after)
    (h : ∀ after, l = before ++ b :: after → a ∈ before) : a ∈ before := by
  cases after using List.reverseRecOn with
  | nil =>
      obtain ⟨rfl, -⟩ := List.append_inj' hsplit rfl
      exact ha
  | append_singleton after d =>
      rw [← List.cons_append, ← List.append_assoc] at hsplit
      exact h after (List.append_inj' hsplit rfl).1

/-- Each entry is listed where it is met first: those that follow are not met before it. -/
theorem OrderedSet.pairwise_ofList {α : Type} [DecidableEq α] (l : List α) :
    (ofList l).toList.Pairwise fun a b =>
      ∀ before after, l = before ++ b :: after → a ∈ before := by
  -- by induction from the end, since the entry that is added comes last
  induction l using List.reverseRecOn with
  | nil => exact .nil
  | append_singleton l c ih =>
      have hofList : ofList (l ++ [c]) = (ofList l).insert c := by
        rw [ofList, ofList, List.foldl_append]
        rfl
      have hold : (ofList l).toList.Pairwise fun a b =>
          ∀ before after, l ++ [c] = before ++ b :: after → a ∈ before := by
        refine ih.imp_of_mem fun {a b} ha _ hab before after hsplit => ?_
        exact mem_of_concat_eq (mem_ofList.1 ha) hsplit (hab before)
      rw [hofList, toList_insert]
      split
      · exact hold
      · rename_i hnew
        refine List.pairwise_append.2 ⟨hold, List.pairwise_singleton _ _, ?_⟩
        intro a ha b hb before after hsplit
        obtain rfl := List.mem_singleton.1 hb
        refine mem_of_concat_eq (mem_ofList.1 ha) hsplit fun after hl => ?_
        refine absurd (mem_ofList.2 ?_) hnew
        rw [hl]
        exact List.mem_append_right _ List.mem_cons_self

namespace CallGraph

variable {g h : CallGraph} {i : InvokeId} {ms : List MethodId} {m n : MethodId}

/-! ## The order of discovery -/

/-- Every edge from the call site to {lit}`n` was found after one to {lit}`m`. -/
def FoundBefore (g : CallGraph) (i : InvokeId) (m n : MethodId) : Prop :=
  ∀ before e after, g.edges.toList = before ++ e :: after → e.site.item = i → e.callee.item = n →
    ∃ d ∈ before, d.site.item = i ∧ d.callee.item = m

/-- Two callees were not each found before the other. -/
theorem FoundBefore.asymm {e : CallEdge} (he : e ∈ g.edges) (hi : e.site.item = i)
    (hn : e.callee.item = n) (hmn : g.FoundBefore i m n) : ¬ g.FoundBefore i n m := by
  intro hnm
  -- the first edge to either of them has none to the other before it
  obtain ⟨d, hd⟩ : ∃ d, g.edges.toList.find? (fun d => decide (d.site.item = i) &&
      (decide (d.callee.item = m) || decide (d.callee.item = n))) = some d := by
    apply Option.isSome_iff_exists.1
    exact List.find?_isSome.2 ⟨e, he, by simp [hi, hn]⟩
  obtain ⟨hleads, before, after, hsplit, hnone⟩ := List.find?_eq_some_iff_append.1 hd
  have hfirst : ∀ d ∈ before, d.site.item = i → d.callee.item ≠ m ∧ d.callee.item ≠ n := by
    intro d hd hsite
    simpa [hsite] using hnone d hd
  simp only [Bool.and_eq_true, Bool.or_eq_true, decide_eq_true_eq] at hleads
  obtain ⟨hsite, hm | hn⟩ := hleads
  · obtain ⟨d, hd, hsite, hcallee⟩ := hnm before _ after hsplit hsite hm
    exact (hfirst d hd hsite).2 hcallee
  · obtain ⟨d, hd, hsite, hcallee⟩ := hmn before _ after hsplit hsite hn
    exact (hfirst d hd hsite).1 hcallee

/-- The callees of a call site, each once, in the order of discovery. -/
structure Callees (g : CallGraph) (i : InvokeId) (ms : List MethodId) : Prop where
  nodup : ms.Nodup
  /-- Some edge leaves the call site under some context and enters the method under some. -/
  mem_iff : ∀ m, m ∈ ms ↔ ∃ c d kind, (⟨⟨c, i⟩, ⟨d, m⟩, kind⟩ : CallEdge) ∈ g.edges
  ordered : ms.Pairwise (g.FoundBefore i)

theorem Callees.exists_edge (h : g.Callees i ms) (hm : m ∈ ms) :
    ∃ e ∈ g.edges, e.site.item = i ∧ e.callee.item = m := by
  obtain ⟨c, d, kind, he⟩ := (h.mem_iff m).1 hm
  exact ⟨_, he, rfl, rfl⟩

/-- The callees are in ascending order exactly if lesser ones were found before greater ones. -/
theorem Callees.ascending_iff (h : g.Callees i ms) :
    ms.Pairwise (fun m n => m.index < n.index) ↔
      ∀ m ∈ ms, ∀ n ∈ ms, m.index < n.index → g.FoundBefore i m n := by
  constructor
  · intro hsorted m hm n hn hlt
    have hahead : ms.Pairwise fun m n => m.index < n.index → g.FoundBefore i m n :=
      h.ordered.imp fun {m n} hmn (_ : m.index < n.index) => hmn
    have hbehind : ms.Pairwise (flip fun m n => m.index < n.index → g.FoundBefore i m n) :=
      hsorted.imp fun hmn hnm => absurd hnm (Nat.lt_asymm hmn)
    have hself : ∀ m ∈ ms, m.index < m.index → g.FoundBefore i m m :=
      fun m _ hlt => absurd hlt (Nat.lt_irrefl _)
    exact hahead.forall_of_forall_of_flip hself hbehind hm hn hlt
  · intro hfound
    refine (h.ordered.and h.nodup).imp_of_mem fun {m n} hm hn hmn => ?_
    refine Nat.lt_of_not_le fun hle => ?_
    obtain ⟨e, he, hi, hcallee⟩ := h.exists_edge hn
    rcases Nat.lt_or_eq_of_le hle with hlt | heq
    · exact hmn.1.asymm he hi hcallee (hfound n hn m hm hlt)
    · exact hmn.2 (Id.ext_index heq.symm)

/-! ## What is listed -/

/-- What is listed for a call site are its callees. -/
theorem callees_calleesOf (g : CallGraph) (i : InvokeId) : g.Callees i (g.calleesOf i) where
  nodup := OrderedSet.nodup _
  mem_iff := by
    intro m
    rw [mem_calleesOf]
    constructor
    · rintro ⟨⟨⟨c, _⟩, ⟨d, _⟩, kind⟩, he, rfl, rfl⟩
      exact ⟨c, d, kind, he⟩
    · rintro ⟨c, d, kind, he⟩
      exact ⟨_, he, rfl, rfl⟩
  ordered := by
    refine (OrderedSet.pairwise_ofList _).imp fun {m n} hmn before e after hsplit hi hn => ?_
    have hlist := hmn ((before.filter fun e => e.site.item = i).map fun e => e.callee.item)
      ((after.filter fun e => e.site.item = i).map fun e => e.callee.item)
      (by simp [hsplit, hi, hn])
    obtain ⟨d, hd, hcallee⟩ := List.mem_map.1 hlist
    obtain ⟨hbefore, hsite⟩ := List.mem_filter.1 hd
    exact ⟨d, hbefore, of_decide_eq_true hsite, hcallee⟩

/-- Edges that are found later only add callees at the end. -/
theorem Lengthens.prefix_calleesOf (hgh : g.Lengthens h) (i : InvokeId) :
    g.calleesOf i <+: h.calleesOf i :=
  OrderedSet.prefix_ofList ((hgh.edges.filter _).map _)

end CallGraph

/-! ## Runs -/

namespace Machine

variable {σ : Type} {P : Plugin σ} {env : Setting}

/-- A run does nothing to the call graph but add to it. -/
theorem spans_lengthens (P : Plugin σ) (env : Setting) :
    Spans P env fun m n => m.solver.calls.Lengthens n.solver.calls where
  preorder :=
    { refl := fun m => refl_of CallGraph.Lengthens m.solver.calls
      trans := fun _ _ _ h k => trans_of CallGraph.Lengthens h k }
  told := by
    intro e m
    rw [left_tell, (P.accretes_left_tell env e m.plugins m.solver).calls]
    exact refl_of CallGraph.Lengthens _
  accretes := by
    intro m s hs
    rw [hs.calls]
    exact refl_of CallGraph.Lengthens _
  calls := id
  merges := fun _ _ _ => refl_of CallGraph.Lengthens _

/-- What has been listed when a run is stopped stays at the beginning of the list. -/
theorem prefix_calleesOf_solve {k l : Nat} (hkl : k ≤ l) (entries : List MethodId)
    (m : Machine σ) (i : InvokeId) :
    (solve P env k entries m).2.solver.calls.calleesOf i <+:
      (solve P env l entries m).2.solver.calls.calleesOf i := by
  have hmono := (spans_lengthens P env).solve_mono (fun _ _ _ => refl_of CallGraph.Lengthens _)
    hkl entries m
  exact hmono.prefix_calleesOf i

end Machine

namespace Analysis

/-- The result of a run, in which any plugins may take part, lists exactly the callees of a call
site, each once.  They are in the order in which the run finds them, and in ascending order exactly
if it finds lesser ones first. -/
theorem callees_of_solve {σ : Type} {P : Plugin σ} {a : Analysis} {p : Program} {ps : List σ}
    {steps : Nat} {entries : List MethodId} {m : Machine σ}
    (hsolve : Machine.solve P (a.setting p) steps entries (.new ps) = (.finished, m))
    (i : InvokeId) :
    let r : Result := { solver := m.solver, strategy := a.options.context }
    r.solver.calls.Callees i (r.calleesOf i) ∧
      (∀ k, (Machine.solve P (a.setting p) k entries (.new ps)).2.solver.calls.calleesOf i <+:
        r.calleesOf i) ∧
      ((r.calleesOf i).Pairwise (fun m n => m.index < n.index) ↔
        ∀ m ∈ r.calleesOf i, ∀ n ∈ r.calleesOf i, m.index < n.index →
          r.solver.calls.FoundBefore i m n) := by
  intro r
  have hcallees := r.solver.calls.callees_calleesOf i
  refine ⟨hcallees, fun k => ?_, hcallees.ascending_iff⟩
  have hlast : (Machine.solve P (a.setting p) steps entries (.new ps)).2 = m := by rw [hsolve]
  rcases Nat.le_total k steps with hle | hle
  · have hprefix :
        (Machine.solve P (a.setting p) k entries (.new ps)).2.solver.calls.calleesOf i <+:
          (Machine.solve P (a.setting p) steps entries (.new ps)).2.solver.calls.calleesOf i :=
      Machine.prefix_calleesOf_solve hle entries (.new ps) i
    rwa [hlast] at hprefix
  · rw [Machine.solve_of_le hle (by rw [hsolve]; simp), hlast]
    exact List.prefix_rfl

/-- A method that makes an object of a class, one of its superclass, and calls a method on both. -/
def overridingProgram : List Declaration :=
  [.cls (.plain "A"), .cls ((ClassDecl.plain "B").extending "A"),
    .method ⟨"A", "m", [], .void, false, false, true⟩,
    .method ⟨"B", "m", [], .void, false, false, true⟩,
    .method ⟨"A", "main", [], .void, true, false, true⟩, .var ⟨2⟩ "a" (.cls "A"),
    .stmt ⟨2⟩ (.new ⟨2⟩ (.cls "B")), .stmt ⟨2⟩ (.new ⟨2⟩ (.cls "A")),
    .call ⟨2⟩ ⟨.virtual, ⟨"A", "m", [], .void⟩, some ⟨2⟩, [], none⟩]

/-- The overriding method is found first, after four steps, and the overridden one is found
later. -/
theorem callees_of_solve_overriding :
    let a : Analysis := { options := oneCallSite false false }
    let p := (settingOf overridingProgram a.options).program
    let run (k : Nat) := Machine.solve Member.plugin (a.setting p) k [⟨2⟩] (.new [])
    (run 10).1 = .finished ∧
      (run 4).2.solver.calls.calleesOf ⟨0⟩ = [⟨1⟩] ∧
      (run 4).2.solver.calls.calleesOf ⟨0⟩ <+: (run 10).2.solver.calls.calleesOf ⟨0⟩ ∧
      (run 10).2.solver.calls.Callees ⟨0⟩ ((run 10).2.solver.calls.calleesOf ⟨0⟩) := by
  intro a p run
  have hfacts : (run 10).1 = .finished ∧ (run 4).2.solver.calls.calleesOf ⟨0⟩ = [⟨1⟩] := by
    decide +kernel
  have hcallees := callees_of_solve (a := a) (p := p) (m := (run 10).2)
    (Prod.ext hfacts.1 rfl) ⟨0⟩
  exact ⟨hfacts.1, hfacts.2, hcallees.2.1 4, hcallees.1⟩

/-- Callees are not listed in ascending order, and searching by halving misses one. -/
theorem not_ascending_callees :
    let a : Analysis := { options := oneCallSite false false }
    let p := (settingOf overridingProgram a.options).program
    ∃ r, a.runFrom 10 p (fun _ => none) [⟨2⟩] = .finished r ∧
      r.calleesOf ⟨0⟩ = [⟨1⟩, ⟨0⟩] ∧
      ¬ (r.calleesOf ⟨0⟩).Pairwise (fun m n => m.index < n.index) ∧
      Id.search? (r.calleesOf ⟨0⟩) ⟨1⟩ = none := by
  intro a p
  have hfacts : (match a.runFrom 10 p (fun _ => none) [⟨2⟩] with
      | .finished r => decide (r.calleesOf ⟨0⟩ = [⟨1⟩, ⟨0⟩])
      | _ => false) = true := by decide +kernel
  cases hrun : a.runFrom 10 p (fun _ => none) [⟨2⟩] with
  | failed | unfinished =>
      rw [hrun] at hfacts
      cases hfacts
  | finished r =>
      rw [hrun] at hfacts
      have hlist : r.calleesOf ⟨0⟩ = [⟨1⟩, ⟨0⟩] := of_decide_eq_true hfacts
      refine ⟨r, rfl, hlist, ?_, ?_⟩
      · rw [hlist]
        decide
      · rw [hlist]
        decide +kernel

end Analysis

end PointsTo
