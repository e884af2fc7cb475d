import Mathlib.Data.List.Nodup
import PointsTo.Proofs.Indexes
import PointsTo.Proofs.Memory
import PointsTo.Proofs.ToldEvents

/-!
# What events tell

A sequence of events tells of methods and edges, of objects that are new to variables, and of
calls that have no target.  This file says when what it tells amounts to what is known in a run,
and that the events of a round of the main loop keep up with the fact that is worked in.

Main results:

- {lit}`CallGraph.ToldBy`: the methods and edges that are told are those of a call graph, in the
  order in which it lists them.
- {lit}`PointsToMap.ToldBy`: the objects that are told are those that variables refer to, in
  their order and each once.
- {lit}`PointsToMap.MissedBy`: the calls that are told are those without a target, as often as a
  variable makes them.
- Theorem {lit}`Solver.ToldBy.of_take`: what is told of a fact that is worked in keeps up with it.
-/

namespace PointsTo

/-! ## Reading events -/

namespace Event

/-- The method that is told to be reachable. -/
def method? : Event → Option MethodId
  | .method m => some m
  | _ => none

/-- The method that is told to be reachable under a context. -/
def methodIn? : Event → Option QMethod
  | .methodIn m => some m
  | _ => none

/-- The edge that is told. -/
def edge? : Event → Option CallEdge
  | .edge e => some e
  | _ => none

/-- The objects that are told to be new to a variable. -/
def delta? (v : QVar) : Event → Option ObjSet
  | .grown u delta => if u = v then some delta else none
  | _ => none

/-- The object and the call that are told to have no target. -/
def unresolved? : Event → Option (QObj × QSite)
  | .unresolved o context site => some (o, ⟨context, site⟩)
  | _ => none

/-- What has to be told before an event: of a method under a context that it is reachable, and
of an edge that its callee is. -/
def prior? : Event → Option Event
  | .methodIn m => some (.method m.item)
  | .edge e => some (.methodIn e.callee)
  | _ => none

/-- What has to be told before an event is told before it. -/
def Ordered (es : List Event) : Prop :=
  ∀ before e after, es = before ++ e :: after → ∀ x ∈ e.prior?, x ∈ before

/-- The event is neither the start nor the finish of a run. -/
def Inner (e : Event) : Prop := e ≠ .start ∧ e ≠ .finish

/-- Where nothing is told, the order is right. -/
theorem ordered_nil : Ordered [] := by
  intro before e after h
  simp at h

/-- An event may be told if what has to be told before it was. -/
theorem Ordered.snoc {es : List Event} {e : Event} (h : Ordered es) (he : ∀ x ∈ e.prior?, x ∈ es) :
    Ordered (es ++ [e]) := by
  intro before e' after heq x hx
  rcases List.eq_nil_or_concat after with rfl | ⟨after, last, rfl⟩
  · obtain ⟨rfl, hlast⟩ := List.append_inj' heq rfl
    obtain rfl : e = e' := by simpa using hlast
    exact he x hx
  · have hsplit : es ++ [e] = (before ++ e' :: after) ++ [last] := by simpa using heq
    exact h before e' after (List.append_inj' hsplit rfl).1 x hx

/-- Nothing has to be told before an event of another kind. -/
theorem Ordered.append {es xs : List Event} (h : Ordered es) (hxs : ∀ e ∈ xs, e.prior? = none) :
    Ordered (es ++ xs) := by
  induction xs generalizing es with
  | nil => rwa [List.append_nil]
  | cons e xs ih =>
      have hfirst := h.snoc (e := e) (by simp [hxs e List.mem_cons_self])
      rw [List.append_cons]
      exact ih hfirst fun e' he' => hxs e' (List.mem_cons_of_mem _ he')

end Event

/-! ## The call graph -/

/-- The events tell of the methods and edges of a call graph in the order in which it lists
them; of a method before they tell of it under a context, and of that before they tell of an
edge to it. -/
structure CallGraph.ToldBy (g : CallGraph) (es : List Event) : Prop where
  methods : es.filterMap Event.method? = g.reachable.toList
  methodsIn : es.filterMap Event.methodIn? = g.reachableIn.toList
  edges : es.filterMap Event.edge? = g.edges.toList
  ordered : Event.Ordered es

namespace CallGraph.ToldBy

variable {g : CallGraph} {es xs : List Event} {q : QMethod} {e : CallEdge}

/-- Of an empty graph nothing is told. -/
theorem empty : CallGraph.empty.ToldBy [] := ⟨rfl, rfl, rfl, Event.ordered_nil⟩

/-- A reachable method was told. -/
theorem mem_methods {m : MethodId} (h : g.ToldBy es) (hm : m ∈ g.reachable) : .method m ∈ es := by
  rw [OrderedSet.mem_def, ← h.methods] at hm
  obtain ⟨x, hx, heq⟩ := List.mem_filterMap.1 hm
  cases x <;> cases heq
  exact hx

/-- So was a method under a context. -/
theorem mem_methodsIn (h : g.ToldBy es) (hq : q ∈ g.reachableIn) : .methodIn q ∈ es := by
  rw [OrderedSet.mem_def, ← h.methodsIn] at hq
  obtain ⟨x, hx, heq⟩ := List.mem_filterMap.1 hq
  cases x <;> cases heq
  exact hx

/-- The events of a method that is reached. -/
theorem of_discover (h : g.ToldBy es) (q : QMethod) :
    (g.discover q).ToldBy (es ++ g.entering q) := by
  unfold entering
  by_cases hknown : q ∈ g.reachableIn
  · rw [discover_of_mem hknown, if_pos hknown, List.append_nil]
    exact h
  · rw [discover_of_not_mem hknown, if_neg hknown]
    have hin := OrderedSet.toList_insert_of_not_mem hknown
    by_cases hitem : q.item ∈ g.reachable
    · rw [if_pos hitem]
      refine ⟨?_, ?_, ?_, h.ordered.snoc ?_⟩
      · simp [h.methods, Event.method?, addReachable, addReachableIn,
          OrderedSet.insert_of_mem hitem]
      · simp [h.methodsIn, Event.methodIn?, addReachable, addReachableIn, hin]
      · simp [h.edges, Event.edge?, addReachable, addReachableIn]
      · rintro _ ⟨⟩
        exact h.mem_methods hitem
    · rw [if_neg hitem]
      have hitems := OrderedSet.toList_insert_of_not_mem hitem
      refine ⟨?_, ?_, ?_, ?_⟩
      · simp [h.methods, Event.method?, addReachable, addReachableIn, hitems]
      · simp [h.methodsIn, Event.methodIn?, addReachable, addReachableIn, hin, List.filterMap_cons]
      · simp [h.edges, Event.edge?, addReachable, addReachableIn]
      · have hmethod := h.ordered.snoc (e := .method q.item) (by rintro _ ⟨⟩)
        have hboth := hmethod.snoc (e := .methodIn q) (by
          rintro _ ⟨⟩
          exact List.mem_append_right _ (List.mem_singleton.2 rfl))
        rwa [List.append_assoc] at hboth

/-- The event of an edge whose callee is reachable. -/
theorem of_addEdge (h : g.ToldBy es) (he : e ∉ g.edges) (hcallee : e.callee ∈ g.reachableIn) :
    (g.addEdge e).ToldBy (es ++ [.edge e]) where
  methods := by simp [h.methods, Event.method?, addEdge]
  methodsIn := by simp [h.methodsIn, Event.methodIn?, addEdge]
  edges := by simp [h.edges, Event.edge?, addEdge, OrderedSet.toList_insert_of_not_mem he]
  ordered := by
    refine h.ordered.snoc ?_
    rintro _ ⟨⟩
    exact h.mem_methodsIn hcallee

/-- Events of another kind say nothing of the call graph. -/
theorem append (h : g.ToldBy es) (hxs : ∀ x ∈ xs, x.method? = none ∧ x.methodIn? = none ∧
    x.edge? = none ∧ x.prior? = none) : g.ToldBy (es ++ xs) where
  methods := by
    rw [List.filterMap_append, List.filterMap_eq_nil_iff.2 fun x hx => (hxs x hx).1,
      List.append_nil, h.methods]
  methodsIn := by
    rw [List.filterMap_append, List.filterMap_eq_nil_iff.2 fun x hx => (hxs x hx).2.1,
      List.append_nil, h.methodsIn]
  edges := by
    rw [List.filterMap_append, List.filterMap_eq_nil_iff.2 fun x hx => (hxs x hx).2.2.1,
      List.append_nil, h.edges]
  ordered := h.ordered.append fun x hx => (hxs x hx).2.2.2

end CallGraph.ToldBy

/-! ## Points-to sets -/

/-- The events tell of the objects that variables refer to in the order of their discovery,
some at a time and each once. -/
structure PointsToMap.ToldBy (m : PointsToMap) (es : List Event) : Prop where
  objects : ∀ v, (es.filterMap (Event.delta? v)).flatMap OrderedSet.toList =
    (m.get (.var v)).toList
  nonempty : ∀ v, ∀ delta ∈ es.filterMap (Event.delta? v), ∃ o, o ∈ delta
  disjoint : ∀ v, (es.filterMap (Event.delta? v)).Pairwise fun a b => ∀ o ∈ a, o ∉ b

namespace PointsToMap.ToldBy

variable {m n : PointsToMap} {es xs : List Event} {v : QVar} {delta : ObjSet}

/-- What makes up a set without repetition is disjoint. -/
theorem of_objects (hobjects : ∀ v, (es.filterMap (Event.delta? v)).flatMap OrderedSet.toList =
    (m.get (.var v)).toList)
    (hnonempty : ∀ v, ∀ delta ∈ es.filterMap (Event.delta? v), ∃ o, o ∈ delta) : m.ToldBy es := by
  refine ⟨hobjects, hnonempty, fun v => ?_⟩
  have hnodup : ((es.filterMap (Event.delta? v)).flatMap OrderedSet.toList).Nodup := by
    rw [hobjects v]
    exact (m.get (.var v)).nodup
  exact (List.nodup_flatMap.1 hnodup).2.imp fun hab o ha hb => hab ha hb

/-- Of pointers that refer to nothing, nothing is told. -/
theorem empty : PointsToMap.empty.ToldBy [] := of_objects (fun _ => rfl) (by simp)

/-- The event of a variable that refers to more. -/
theorem of_gains (h : m.ToldBy es) (hgains : m.Gains n v delta) (hdelta : ∃ o, o ∈ delta) :
    n.ToldBy (es ++ [.grown v delta]) := by
  refine of_objects ?_ ?_
  · intro u
    by_cases hu : v = u
    · subst hu
      simp [Event.delta?, h.objects, hgains.grown]
    · have hsame : n.get (.var u) = m.get (.var u) :=
        hgains.same fun heq => hu (Pointer.var.inj heq).symm
      simp [Event.delta?, hu, h.objects, hsame]
  · intro u d hd
    by_cases hu : v = u
    · rcases List.mem_append.1 (List.filterMap_append ▸ hd) with hd | hd
      · exact h.nonempty u d hd
      · simp [Event.delta?, hu] at hd
        exact hd ▸ hdelta
    · exact h.nonempty u d (by simpa [Event.delta?, hu] using hd)

/-- Events of another kind say nothing of points-to sets. -/
theorem append (h : m.ToldBy es) (hxs : ∀ x ∈ xs, ∀ v, x.delta? v = none) :
    m.ToldBy (es ++ xs) := by
  have hnil : ∀ v, xs.filterMap (Event.delta? v) = [] := fun v =>
    List.filterMap_eq_nil_iff.2 fun x hx => hxs x hx v
  refine of_objects (fun v => ?_) fun v => ?_
  · rw [List.filterMap_append, hnil, List.append_nil, h.objects]
  · rw [List.filterMap_append, hnil, List.append_nil]
    exact h.nonempty v

/-- Only what variables refer to matters. -/
theorem of_get_eq (h : m.ToldBy es) (hget : ∀ v, n.get (.var v) = m.get (.var v)) :
    n.ToldBy es :=
  of_objects (fun v => by rw [h.objects, hget]) h.nonempty

end PointsToMap.ToldBy

/-! ## Calls without a target -/

/-- How often the events tell that a call has no target on an object. -/
def missesIn (es : List Event) (o : QObj) (site : QSite) : Nat :=
  (es.filterMap Event.unresolved?).count (o, site)

section Misses

variable {p : Program} {heap heap' : Heap} {m n : PointsToMap} {es xs : List Event} {v : QVar}
  {o : QObj} {c : ContextId} {i : InvokeId} {delta : ObjSet}

/-- The calls that are told of twice are counted twice. -/
@[simp] theorem missesIn_append : missesIn (es ++ xs) o ⟨c, i⟩ =
    missesIn es o ⟨c, i⟩ + missesIn xs o ⟨c, i⟩ := by
  simp [missesIn]

/-- Of a call on some objects it is told once for each of them on which it has no target. -/
theorem missesIn_missedCall {site : InvokeId} {l : List QObj} (hl : l.Nodup) :
    missesIn (l.flatMap fun o => missedCall p heap v.context site o) o ⟨c, i⟩ =
      if v.context = c ∧ site = i ∧ o ∈ l ∧ Unresolved p heap i o then 1 else 0 := by
  induction l with
  | nil => simp [missesIn]
  | cons o' l ih =>
      obtain ⟨hfresh, hl⟩ := List.nodup_cons.1 hl
      rw [List.flatMap_cons, missesIn_append, ih hl]
      unfold missedCall
      by_cases ho : o' = o
      · subst ho
        by_cases hun : Unresolved p heap site o' <;> by_cases hsite : site = i <;>
          by_cases hc : v.context = c <;> simp_all [missesIn, Event.unresolved?]
      · by_cases hun : Unresolved p heap site o' <;>
          simp [missesIn, Event.unresolved?, hun, ho, Ne.symm ho]

/-- Of the calls on what is new to a variable it is told as often as the variable calls them. -/
theorem missesIn_missedCalls : missesIn (missedCalls p heap v delta) o ⟨c, i⟩ =
    if v.context = c ∧ o ∈ delta ∧ Unresolved p heap i o
    then (p.var v.item).uses.invokes.count i else 0 := by
  unfold missedCalls
  induction (p.var v.item).uses.invokes with
  | nil => simp [missesIn]
  | cons site sites ih =>
      rw [List.flatMap_cons, missesIn_append, ih, missesIn_missedCall delta.nodup, List.count_cons]
      by_cases hsite : site = i
      · subst hsite
        by_cases hall : v.context = c ∧ o ∈ delta ∧ Unresolved p heap site o
        · simp [hall, OrderedSet.mem_def.1 hall.2.1, Nat.add_comm]
        · simp [hall, ← OrderedSet.mem_def]
      · simp [hsite]

end Misses

/-- The events tell that calls of variables have no target on what these refer to, each time that
the variable makes the call, and tell this of no other calls. -/
structure PointsToMap.MissedBy (m : PointsToMap) (p : Program) (heap : Heap) (es : List Event) :
    Prop where
  count : ∀ v : QVar, ∀ i ∈ (p.var v.item).uses.invokes, ∀ o,
    missesIn es o ⟨v.context, i⟩ =
      if o ∈ m.get (.var v) ∧ Unresolved p heap i o
      then (p.var v.item).uses.invokes.count i else 0
  only : ∀ o c i, .unresolved o c i ∈ es →
    ∃ v : QVar, v.context = c ∧ i ∈ (p.var v.item).uses.invokes

namespace PointsToMap.MissedBy

variable {p : Program} {heap heap' : Heap} {m n : PointsToMap} {es xs : List Event} {v : QVar}
  {delta : ObjSet}

/-- Where no variable refers to anything no call was missed. -/
theorem empty : PointsToMap.empty.MissedBy p heap [] := by
  refine ⟨fun v i _ o => ?_, by simp⟩
  have hnone : o ∉ PointsToMap.empty.get (.var v) := OrderedSet.not_mem_empty o
  rw [if_neg fun h => hnone h.1]
  rfl

/-- The events of calls on what is new to a variable. -/
theorem of_gains (h : m.MissedBy p heap es) (hb : p.Built) (hgains : m.Gains n v delta)
    (hnew : ∀ o ∈ delta, o ∉ m.get (.var v)) :
    n.MissedBy p heap (es ++ missedCalls p heap v delta) where
  count := by
    intro u i hi o
    rw [missesIn_append, missesIn_missedCalls, h.count u i hi o]
    by_cases hu : u = v
    · subst hu
      by_cases hun : Unresolved p heap i o
      · by_cases ho : o ∈ delta
        · simp [hgains.mem, ho, hun, hnew o ho]
        · simp [hgains.mem, ho, hun]
      · simp [hun]
    · -- the call belongs to one variable only
      have hnone : v.context = u.context → (p.var v.item).uses.invokes.count i = 0 := by
        refine fun hc => List.count_eq_zero.2 fun hv => hu ?_
        have hbase := (hb.mem_invokes.1 hi).2.1.symm.trans (hb.mem_invokes.1 hv).2.1
        cases u
        cases v
        simp_all
      have hsame : o ∈ n.get (.var u) ↔ o ∈ m.get (.var u) := by simp [hgains.mem, hu]
      by_cases hc : v.context = u.context
      · simp [hsame, hnone hc]
      · simp [hsame, hc]
  only := by
    intro o c i hmem
    rcases List.mem_append.1 hmem with hmem | hmem
    · exact h.only o c i hmem
    · obtain ⟨i', hi', o', heq⟩ := mem_missedCalls hmem
      cases heq
      exact ⟨v, rfl, hi'⟩

/-- Events of another kind say nothing of calls without a target. -/
theorem append (h : m.MissedBy p heap es) (hxs : ∀ x ∈ xs, x.unresolved? = none) :
    m.MissedBy p heap (es ++ xs) where
  count := by
    intro v i hi o
    rw [← h.count v i hi o, missesIn, List.filterMap_append, List.filterMap_eq_nil_iff.2 hxs,
      List.append_nil, missesIn]
  only := by
    intro o c i hmem
    rcases List.mem_append.1 hmem with hmem | hmem
    · exact h.only o c i hmem
    · exact absurd (hxs _ hmem) (by simp [Event.unresolved?])

/-- Only what variables refer to matters. -/
theorem of_get_eq (h : m.MissedBy p heap es) (hget : ∀ v, n.get (.var v) = m.get (.var v)) :
    n.MissedBy p heap es where
  count := fun v i hi o => by rw [h.count v i hi o, hget v]
  only := h.only

/-- Further objects do not change what has a target. -/
theorem of_grows (h : m.MissedBy p heap es) (hg : heap.Grows heap')
    (hobj : ∀ v, ∀ o ∈ m.get (.var v), heap.Has o.item) : m.MissedBy p heap' es where
  count := by
    intro v i hi o
    rw [h.count v i hi o]
    by_cases ho : o ∈ m.get (.var v)
    · simp only [unresolved_of_grows (hobj v o ho) hg]
    · simp [ho]
  only := h.only

end PointsToMap.MissedBy

/-! ## Everything -/

/-- The events tell what is known in a run of call graph, points-to sets and calls without a
target. -/
structure Solver.ToldBy (s : Solver) (p : Program) (es : List Event) : Prop where
  inner : ∀ e ∈ es, e.Inner
  calls : s.calls.ToldBy es
  points : s.pointsTo.ToldBy es
  missed : s.pointsTo.MissedBy p s.heap es

namespace Solver.ToldBy

variable {p : Program} {s t : Solver} {es : List Event} {w : WorkItem} {rest : List WorkItem}
  {q : QMethod}

/-- At the beginning nothing is told. -/
theorem new : Solver.ToldBy {} p [] := ⟨by simp, .empty, .empty, .empty⟩

/-- What is told of a state does not depend on what waits in it. -/
theorem of_eq (h : s.ToldBy p es) (hcalls : t.calls = s.calls)
    (hget : ∀ v, t.pointsTo.get (.var v) = s.pointsTo.get (.var v)) (hheap : t.heap = s.heap) :
    t.ToldBy p es where
  inner := h.inner
  calls := hcalls ▸ h.calls
  points := h.points.of_get_eq hget
  missed := hheap ▸ h.missed.of_get_eq hget

/-- What is new of objects, contexts and flow is not told. -/
theorem of_accretes (h : s.ToldBy p es) (hs : s.Rooted) (hst : s.Accretes t) : t.ToldBy p es where
  inner := h.inner
  calls := hst.calls ▸ h.calls
  points := hst.pointsTo ▸ h.points
  missed := hst.pointsTo ▸ h.missed.of_grows hst.heap fun _ o ho => (hs _ o ho).2

/-- The events of a method that is reached keep up with the call graph. -/
theorem of_discover (h : s.ToldBy p es) (q : QMethod) :
    Solver.ToldBy { s with calls := s.calls.discover q } p (es ++ s.calls.entering q) where
  inner := by
    intro x hx
    rcases List.mem_append.1 hx with hx | hx
    · exact h.inner x hx
    · rcases CallGraph.mem_entering hx with rfl | rfl <;> simp [Event.Inner]
  calls := h.calls.of_discover q
  points := h.points.append fun x hx v => by rcases CallGraph.mem_entering hx with rfl | rfl <;> rfl
  missed := h.missed.append fun x hx => by rcases CallGraph.mem_entering hx with rfl | rfl <;> rfl

/-- The event of an edge whose callee is reachable keeps up with the call graph. -/
theorem of_addEdge {e : CallEdge} (h : s.ToldBy p es) (he : e ∉ s.calls.edges)
    (hcallee : e.callee ∈ s.calls.reachableIn) :
    Solver.ToldBy { s with calls := s.calls.addEdge e } p (es ++ [.edge e]) where
  inner := by
    intro x hx
    rcases List.mem_append.1 hx with hx | hx
    · exact h.inner x hx
    · obtain rfl := List.mem_singleton.1 hx
      simp [Event.Inner]
  calls := h.calls.of_addEdge he hcallee
  points := h.points.append (by simp [Event.delta?])
  missed := h.missed.append (by simp [Event.unresolved?])

/-- The events of a variable that refers to more keep up with its set. -/
theorem of_merge {v : QVar} {os : ObjSet} (h : s.ToldBy p es) (hb : p.Built)
    (hdelta : ∃ o, o ∈ s.delta (.var v) os) :
    Solver.ToldBy { s with pointsTo := s.pointsTo.merge (.var v) os } p
      (es ++ (missedCalls p s.heap v (s.delta (.var v) os) ++
        [.grown v (s.delta (.var v) os)])) := by
  have hgains := s.pointsTo.gains_merge v os
  have hnew : ∀ o ∈ s.delta (.var v) os, o ∉ s.pointsTo.get (.var v) :=
    fun o ho => (OrderedSet.mem_newIn.1 ho).2
  have hmissed : ∀ x ∈ missedCalls p s.heap v (s.delta (.var v) os),
      ∃ o i, x = .unresolved o v.context i := fun x hx =>
    let ⟨i, _, o, heq⟩ := mem_missedCalls hx
    ⟨o, i, heq⟩
  rw [← List.append_assoc]
  refine ⟨?_, ?_, ?_, ?_⟩
  · intro x hx
    rcases List.mem_append.1 hx with hx | hx
    · rcases List.mem_append.1 hx with hx | hx
      · exact h.inner x hx
      · obtain ⟨o, i, rfl⟩ := hmissed x hx
        simp [Event.Inner]
    · obtain rfl := List.mem_singleton.1 hx
      simp [Event.Inner]
  · refine (h.calls.append fun x hx => ?_).append ?_
    · obtain ⟨o, i, rfl⟩ := hmissed x hx
      exact ⟨rfl, rfl, rfl, rfl⟩
    · rintro x hx
      obtain rfl := List.mem_singleton.1 hx
      exact ⟨rfl, rfl, rfl, rfl⟩
  · refine (h.points.append fun x hx u => ?_).of_gains hgains hdelta
    obtain ⟨o, i, rfl⟩ := hmissed x hx
    rfl
  · exact (h.missed.of_gains hb hgains hnew).append (by simp [Event.unresolved?])

/-- What is told of a fact that is worked in keeps up with it. -/
theorem of_take (h : s.ToldBy p es) (hb : p.Built) :
    (s.take p w rest).ToldBy p (es ++ s.news p w) := by
  cases w with
  | call e =>
      by_cases hknown : e ∈ s.calls.edges
      · simp only [Solver.news, if_pos hknown, List.append_nil, take]
        exact h.of_eq rfl (fun _ => rfl) rfl
      · have hboth := (h.of_discover e.callee).of_addEdge (e := e) (by simpa using hknown)
          (CallGraph.mem_reachableIn_discover.2 (.inl rfl))
        simp only [Solver.news, if_neg hknown, take, ← List.append_assoc]
        exact hboth.of_eq (CallGraph.discover_addEdge _ _ _) (fun _ => rfl) rfl
  | pointsTo ptr os =>
      have hcalls : (s.take p (.pointsTo ptr os) rest).calls = s.calls :=
        calls_take_pointsTo s p ptr os rest
      have hheap : (s.take p (.pointsTo ptr os) rest).heap = s.heap :=
        heap_take s p (.pointsTo ptr os) rest
      by_cases hdelta : ∃ v, ptr = .var v ∧ ∃ o, o ∈ s.delta ptr os
      · obtain ⟨v, rfl, o, ho⟩ := hdelta
        have hsome : ¬ (s.delta (.var v) os).isEmpty = true := OrderedSet.not_isEmpty_iff.2 ⟨o, ho⟩
        simp only [Solver.news, if_neg hsome]
        exact (h.of_merge hb ⟨o, ho⟩).of_eq hcalls (fun _ => by rw [pointsTo_take_pointsTo]) hheap
      · have hsilent : s.news p (.pointsTo ptr os) = [] := by
          cases ptr with
          | field | array | static => rfl
          | var v =>
              simp only [Solver.news]
              refine if_pos (not_not.1 fun hsome => hdelta ⟨v, rfl, ?_⟩)
              exact OrderedSet.not_isEmpty_iff.1 hsome
        rw [hsilent, List.append_nil]
        refine h.of_eq hcalls (fun v => ?_) hheap
        rw [pointsTo_take_pointsTo,
          PointsToMap.get_var_merge v fun hv o ho => hdelta ⟨v, hv, o, ho⟩]

end Solver.ToldBy

end PointsTo
