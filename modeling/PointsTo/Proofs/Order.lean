import PointsTo.Proofs.Accounting
import PointsTo.Proofs.Places

/-!
# The order of the queue

Facts are worked in in the order in which they are found.  A fact about a variable is found
when its method is reachable, or when an edge to the method waits in front of it; so it is
worked in after the method was reached.  The one exception is the receiver of a method, whose
objects are queued directly before the edge that leads to the method.

Main results:

- {lit}`InOrder`: a queue whose facts come after what makes their methods reachable.
- {lit}`Solver.Orderly`: the invariant that keeps the queue in this order.
- Theorem {lit}`reached_of_points`: at every stage of a run, a variable that refers to something
  is that of a method that is reachable, or a receiver.
-/

namespace PointsTo

/-- The variable is the receiver of its method. -/
def Program.IsReceiver (p : Program) (v : VarId) : Prop :=
  v ∈ (p.method (p.var v).method).receiver

instance (p : Program) (v : VarId) : Decidable (p.IsReceiver v) :=
  inferInstanceAs (Decidable (v ∈ (p.method (p.var v).method).receiver))

/-! ## Queues in order -/

section Queues

variable {p : Program} {R R' : QMethod → Prop} {ws xs : List WorkItem} {q : QMethod}

/-- The method is reached when some facts have been worked in. -/
def After (R : QMethod → Prop) (ws : List WorkItem) (q : QMethod) : Prop :=
  R q ∨ ∃ e, .call e ∈ ws ∧ e.callee = q

/-- What comes after methods comes after more of them. -/
theorem After.mono (h : After R ws q) (hR : ∀ q, R q → R' q) (hws : ∀ w ∈ ws, w ∈ xs) :
    After R' xs q :=
  h.imp (hR q) fun ⟨e, he, hq⟩ => ⟨e, hws _ he, hq⟩

/-- A fact in front of others lies in a method that is reached, or in the receiver of a method
that is reached by the next one. -/
def WorkItem.Ready (p : Program) (R : QMethod → Prop) (w : WorkItem) (next : List WorkItem) :
    Prop :=
  match w with
  | .call e => R (p.host e.site)
  | .pointsTo (.var v) _ => R (p.home v) ∨
      p.IsReceiver v.item ∧ ∃ e, next.head? = some (.call e) ∧ e.callee = p.home v
  | .pointsTo .. => True

/-- Every fact of a queue is ready once those before it have been worked in. -/
def InOrder (p : Program) : (QMethod → Prop) → List WorkItem → Prop
  | _, [] => True
  | R, w :: ws => w.Ready p R ws ∧ InOrder p (After R [w]) ws

/-- A fact that is ready stays so when more waits. -/
theorem WorkItem.Ready.mono {w : WorkItem} (h : w.Ready p R ws) (hR : ∀ q, R q → R' q) :
    w.Ready p R' (ws ++ xs) := by
  cases w with
  | call e => exact hR _ h
  | pointsTo ptr os =>
      cases ptr with
      | var v =>
          refine h.imp (hR _) ?_
          rintro ⟨hv, e, hnext, he⟩
          refine ⟨hv, e, ?_, he⟩
          rw [List.head?_append, hnext, Option.some_or]
      | field | array | static => trivial

/-- An order stays one when more is reachable. -/
theorem InOrder.mono (h : InOrder p R ws) (hR : ∀ q, R q → R' q) : InOrder p R' ws := by
  induction ws generalizing R R' with
  | nil => trivial
  | cons w ws ih =>
      refine ⟨?_, ih h.2 fun q hq => hq.mono hR fun _ hw => hw⟩
      have hready : w.Ready p R' (ws ++ []) := h.1.mono hR
      rwa [List.append_nil] at hready

/-- What is in order behind a queue may be put there. -/
theorem InOrder.append (h : InOrder p R ws) (hxs : InOrder p (After R ws) xs) :
    InOrder p R (ws ++ xs) := by
  induction ws generalizing R with
  | nil => exact hxs.mono fun q hq => hq.resolve_right (by simp)
  | cons w ws ih =>
      refine ⟨h.1.mono fun _ => id, ih h.2 (hxs.mono ?_)⟩
      rintro q (hq | ⟨e, he, rfl⟩)
      · exact .inl (.inl hq)
      · rcases List.mem_cons.1 he with rfl | he
        · exact .inl (.inr ⟨e, List.mem_cons_self, rfl⟩)
        · exact .inr ⟨e, he, rfl⟩

/-- Objects may wait for any pointer of a method that is reached when they are worked in. -/
theorem InOrder.addPointsTo {s : Solver} {ptr : Pointer} {os : ObjSet}
    (h : InOrder p R s.queue) (hptr : ptr.LiesIn p (After R s.queue)) :
    InOrder p R (s.addPointsTo ptr os).queue := by
  unfold Solver.addPointsTo
  split
  · exact h
  · refine h.append ⟨?_, trivial⟩
    cases ptr with
    | var v => exact .inl (hptr v rfl)
    | field | array | static => trivial

/-- A call edge joins the order if the caller is reachable by then. -/
theorem InOrder.addCall {s : Solver} {e : CallEdge} (h : InOrder p R s.queue)
    (he : After R s.queue (p.host e.site)) : InOrder p R (s.addCall e).queue :=
  h.append ⟨he, trivial⟩

/-- An object may wait for the receiver of a method in front of the edge to the method. -/
theorem InOrder.enterOn {s : Solver} {o : QObj} {e : CallEdge} (hhoused : p.Housed)
    (h : InOrder p R s.queue) (he : After R s.queue (p.host e.site)) :
    InOrder p R (s.enterOn (p.method e.callee.item).receiver o e).queue := by
  cases hreceiver : (p.method e.callee.item).receiver with
  | none => exact h.addCall he
  | some this =>
      have hthis : this ∈ (p.method e.callee.item).receiver := hreceiver
      have hhome : p.home ⟨e.callee.context, this⟩ = e.callee := hhoused.home_eq (.inl hthis)
      have hqueue : (s.enterOn (some this) o e).queue = s.queue ++
          [.pointsTo (varPointer e.callee.context this) (.singleton o), .call e] := by
        have hne : (OrderedSet.singleton o).isEmpty = false := by simp [OrderedSet.isEmpty]
        simp [Solver.enterOn, Solver.addObj, Solver.addPointsTo, hne, Solver.addCall,
          Solver.enqueue]
      rw [hqueue]
      refine h.append ⟨.inr ⟨?_, e, rfl, hhome.symm⟩, .inl he, trivial⟩
      unfold Program.IsReceiver
      rwa [hhoused.method_eq (.inl hthis)]

/-- Passing objects on keeps the order if the targets are ready for them. -/
theorem InOrder.foldl_forward {s : Solver} {os : ObjSet} {es : List FlowEdge}
    (h : InOrder p R s.queue) (hes : ∀ f ∈ es, f.target.LiesIn p (After R s.queue)) :
    InOrder p R (es.foldl (fun t e => t.forward p os e) s).queue := by
  induction es generalizing s with
  | nil => exact h
  | cons f es ih =>
      refine ih (h.addPointsTo (hes f List.mem_cons_self)) ?_
      intro f' hf' v hv
      exact (hes f' (List.mem_cons_of_mem _ hf') v hv).mono (fun _ => id)
        fun w hw => (Solver.accretes_forward s p os f).mem_queue hw

end Queues

/-! ## The invariant -/

namespace Solver

variable {env : Setting} {s t : Solver} {a : Addition} {w : WorkItem} {rest : List WorkItem}
  {q : QMethod}

/-- The method is reachable, or an edge to it waits. -/
def Due (s : Solver) (q : QMethod) : Prop := After (· ∈ s.calls.reachableIn) s.queue q

/-- The queue is in order, and what has been worked in lies in methods that are reachable or
due; only receivers refer to something before their method is reached. -/
structure Orderly (p : Program) (s : Solver) : Prop where
  queue : InOrder p (· ∈ s.calls.reachableIn) s.queue
  points : ∀ {v o}, o ∈ s.pointsTo.get (.var v) →
    p.home v ∈ s.calls.reachableIn ∨ p.IsReceiver v.item ∧ s.Due (p.home v)
  flow : ∀ {f}, f ∈ s.flow.edges → f.target.LiesIn p s.Due
  host : ∀ {e}, e ∈ s.calls.edges → s.Due (p.host e.site)
  callee : ∀ {e}, e ∈ s.calls.edges → e.callee ∈ s.calls.reachableIn
  returns : ∀ {e}, s.Announces e → e.Returns p

/-- What is due stays due while a state accretes. -/
theorem Due.of_accretes (h : s.Due q) (hst : s.Accretes t) : t.Due q := by
  unfold Due
  rw [hst.calls]
  exact h.mono (fun _ => id) fun w hw => hst.mem_queue hw

/-- Once an edge was taken its callee is reachable. -/
theorem callee_of_take {p : Program} {e : CallEdge}
    (hcallee : ∀ {e}, e ∈ s.calls.edges → e.callee ∈ s.calls.reachableIn) :
    e.callee ∈ (s.take p (.call e) rest).calls.reachableIn := by
  rw [mem_reachableIn_take_call]
  by_cases hknown : e ∈ s.calls.edges
  · exact .inr (hcallee hknown)
  · exact .inl ⟨hknown, rfl⟩

/-- What is due when a fact is taken stays due. -/
theorem Due.of_take (h : s.Due q) (p : Program) (hq : s.queue = w :: rest)
    (hcallee : ∀ {e}, e ∈ s.calls.edges → e.callee ∈ s.calls.reachableIn) :
    (s.take p w rest).Due q := by
  rcases h with h | ⟨e, he, rfl⟩
  · exact .inl ((extends_take p hq).reachableIn h)
  · rw [hq] at he
    cases w with
    | pointsTo ptr os =>
        have he' : .call e ∈ rest := (List.mem_cons.1 he).resolve_left (by simp)
        exact .inr ⟨e, (accretes_foldl_forward _ _ _).mem_queue he', rfl⟩
    | call e' =>
        rcases List.mem_cons.1 he with heq | he
        · cases heq
          exact .inl (callee_of_take hcallee)
        · refine .inr ⟨e, ?_, rfl⟩
          rwa [queue_take_call]

namespace Orderly

variable {p : Program}

/-- Where nothing waits everything is in order. -/
theorem new : Orderly p {} := by
  refine ⟨trivial, ?_, ?_, ?_, ?_, ?_⟩
  · exact fun h => absurd h (OrderedSet.not_mem_empty _)
  · exact fun h => absurd h (OrderedSet.not_mem_empty _)
  · exact fun h => absurd h (OrderedSet.not_mem_empty _)
  · exact fun h => absurd h (OrderedSet.not_mem_empty _)
  · rintro e (h | h)
    · exact absurd h (OrderedSet.not_mem_empty e)
    · exact absurd h List.not_mem_nil

/-- What has been worked in lies in methods that are due. -/
theorem lies (h : s.Orderly p) : s.Lies p s.Due where
  reached := .inl
  points := fun ho => (h.points ho).elim .inl And.right
  host := h.host
  callee := fun he => .inl (h.callee he)
  returns := fun he => h.returns (.inl he)

/-- What an addition that lies in methods that are due puts into the queue is in order. -/
theorem queue_of_adds (h : s.Orderly env.program) (hhoused : env.program.Housed)
    (ha : a.LiesIn env s s.Due) (hadd : s.Adds env.program a t) :
    InOrder env.program (· ∈ s.calls.reachableIn) t.queue := by
  cases a with
  | object | context =>
      obtain ⟨_, _, _, rfl⟩ := hadd
      exact h.queue
  | points ptr os =>
      obtain rfl := hadd
      exact h.queue.addPointsTo ha
  | flow f =>
      obtain rfl := hadd
      unfold addFlow
      split
      · exact h.queue
      · exact InOrder.addPointsTo (s := { s with flow := s.flow.add f }) h.queue ha
  | enter receiver o e =>
      obtain ⟨hlies, rfl⟩ := ha
      obtain rfl := hadd
      exact h.queue.enterOn hhoused hlies.host
  | call e =>
      obtain rfl := hadd
      exact h.queue.addCall (CallEdge.LiesIn.host ha)
  | note line =>
      obtain rfl := hadd
      exact h.queue

/-- An addition that lies in methods that are due keeps the order. -/
theorem of_adds (h : s.Orderly env.program) (hhoused : env.program.Housed)
    (ha : a.LiesIn env s s.Due) (hadd : s.Adds env.program a t) : t.Orderly env.program := by
  have hst := hadd.accretes
  have hdue : ∀ {q}, s.Due q → t.Due q := fun hq => hq.of_accretes hst
  refine ⟨?_, ?_, ?_, ?_, ?_, ?_⟩
  · rw [hst.calls]
    exact h.queue_of_adds hhoused ha hadd
  · intro v o ho
    rw [hst.pointsTo] at ho
    rw [hst.calls]
    exact (h.points ho).imp id fun hv => ⟨hv.1, hdue hv.2⟩
  · intro f hf v hv
    rcases hadd.flow_cases hf with hf | rfl
    · exact hdue (h.flow hf v hv)
    · exact hdue (ha v hv)
  · intro e he
    rw [hst.calls] at he
    exact hdue (h.host he)
  · intro e he
    rw [hst.calls] at he ⊢
    exact h.callee he
  · intro e he
    rcases hadd.announces_cases he with he | hnew
    · exact h.returns he
    · cases a with
      | enter receiver o e' =>
          obtain rfl := hnew
          exact ha.1.returns
      | call e' =>
          obtain rfl := hnew
          exact CallEdge.LiesIn.returns ha
      | object | context | points | flow | note => exact hnew.elim

/-- A variable that a fact is worked in about is that of a method that is reachable, or a
receiver whose method is due. -/
theorem ready_points (h : s.Orderly p) {v : QVar} {os : ObjSet}
    (hq : s.queue = .pointsTo (.var v) os :: rest) :
    p.home v ∈ s.calls.reachableIn ∨ p.IsReceiver v.item ∧ s.Due (p.home v) := by
  obtain ⟨hready, _⟩ : InOrder p (· ∈ s.calls.reachableIn) (.pointsTo (.var v) os :: rest) :=
    hq ▸ h.queue
  refine hready.imp id ?_
  rintro ⟨hv, e, hnext, he⟩
  refine ⟨hv, .inr ⟨e, ?_, he⟩⟩
  rw [hq]
  exact List.mem_cons_of_mem _ (List.mem_of_mem_head? hnext)

/-- What is left of the queue, and what the working in of a fact puts behind it, is in order. -/
theorem queue_of_take (h : s.Orderly p) (hq : s.queue = w :: rest) :
    InOrder p (· ∈ (s.take p w rest).calls.reachableIn) (s.take p w rest).queue := by
  obtain ⟨_, hrest⟩ : InOrder p (· ∈ s.calls.reachableIn) (w :: rest) := hq ▸ h.queue
  cases w with
  | pointsTo ptr os =>
      rw [calls_take_pointsTo]
      refine InOrder.foldl_forward (hrest.mono fun q hd => hd.resolve_right (by simp)) ?_
      intro f hf v hv
      rcases h.flow (FlowGraph.mem_outgoing.1 hf).1 v hv with hd | ⟨e, he, hd⟩
      · exact .inl hd
      · rw [hq] at he
        exact .inr ⟨e, (List.mem_cons.1 he).resolve_left (by simp), hd⟩
  | call e =>
      rw [queue_take_call]
      refine hrest.mono ?_
      rintro q (hd | ⟨e', he', rfl⟩)
      · exact (extends_take p hq).reachableIn hd
      · obtain rfl : e' = e := by simpa using he'
        exact callee_of_take h.callee

/-- The working in of a fact keeps the order. -/
theorem of_take (h : s.Orderly p) (hq : s.queue = w :: rest) : (s.take p w rest).Orderly p := by
  have hdue : ∀ {q}, s.Due q → (s.take p w rest).Due q := fun hd => hd.of_take p hq h.callee
  have hreached : ∀ {q}, q ∈ s.calls.reachableIn → q ∈ (s.take p w rest).calls.reachableIn :=
    (extends_take p hq).reachableIn
  have hflow : ∀ {f}, f ∈ (s.take p w rest).flow.edges →
      f.target.LiesIn p (s.take p w rest).Due := by
    intro f hf v hv
    rw [flow_take] at hf
    exact hdue (h.flow hf v hv)
  have hreturns : ∀ {e}, (s.take p w rest).Announces e → e.Returns p :=
    fun he => h.returns (announces_of_take hq he)
  cases w with
  | pointsTo ptr os =>
      refine ⟨h.queue_of_take hq, ?_, hflow, ?_, ?_, hreturns⟩
      · intro v o ho
        rw [pointsTo_take_pointsTo, mem_pointsTo_merge] at ho
        have hold : p.home v ∈ s.calls.reachableIn ∨ p.IsReceiver v.item ∧ s.Due (p.home v) := by
          rcases ho with ho | ⟨rfl, _⟩
          · exact h.points ho
          · exact h.ready_points hq
        exact hold.imp hreached fun hv => ⟨hv.1, hdue hv.2⟩
      · intro e he
        rw [calls_take_pointsTo] at he
        exact hdue (h.host he)
      · intro e he
        rw [calls_take_pointsTo] at he ⊢
        exact h.callee he
  | call e =>
      obtain ⟨hready, _⟩ : InOrder p (· ∈ s.calls.reachableIn) (.call e :: rest) := hq ▸ h.queue
      refine ⟨h.queue_of_take hq, ?_, hflow, ?_, ?_, hreturns⟩
      · intro v o ho
        rw [pointsTo_take] at ho
        exact (h.points ho).imp hreached fun hv => ⟨hv.1, hdue hv.2⟩
      · intro e' he
        rcases mem_edges_take_call.1 he with rfl | he
        · exact .inl (hreached hready)
        · exact hdue (h.host he)
      · intro e' he
        rcases mem_edges_take_call.1 he with rfl | he
        · exact callee_of_take h.callee
        · exact hreached (h.callee he)

/-- A method may be found to be reachable at any time. -/
theorem of_discover (h : s.Orderly p) (m : QMethod) :
    Orderly p { s with calls := s.calls.discover m } := by
  have hreached : ∀ {q}, q ∈ s.calls.reachableIn → q ∈ (s.calls.discover m).reachableIn :=
    fun hr => CallGraph.mem_reachableIn_discover.2 (.inr hr)
  have hdue : ∀ {q}, s.Due q → Due { s with calls := s.calls.discover m } q :=
    fun hd => hd.mono (fun _ => hreached) fun _ hw => hw
  refine ⟨h.queue.mono fun _ => hreached, ?_, ?_, ?_, ?_, ?_⟩
  · exact fun ho => (h.points ho).imp hreached fun hv => ⟨hv.1, hdue hv.2⟩
  · exact fun hf v hv => hdue (h.flow hf v hv)
  · exact fun he => hdue (h.host (by simpa using he))
  · exact fun he => hreached (h.callee (by simpa using he))
  · exact fun he => h.returns (he.imp (fun he => by simpa using he) id)

end Orderly

end Solver

/-! ## Runs -/

section Runs

variable {σ : Type} {P : Plugin σ} {env : Setting} {K : View → σ → Prop}
  {entries : List MethodId} {plugins : List σ} {stage : Machine.Stage σ}

/-- At every stage of a run on a tidy program the queue is in order. -/
theorem orderly_of_visits (hb : env.program.Built) (hhoused : env.program.Housed)
    (htidy : env.program.Tidy) (hP : P.Honest env (PluginRule env) K)
    (hstart : ∀ p ∈ plugins, K ({} : Solver).settled p)
    (h : Machine.Visits P env entries (.new plugins) stage) :
    stage.machine.solver.Orderly env.program := by
  refine Machine.holds_of_visits hP hstart Solver.Orderly.new ?_ ?_ ?_ h
  · intro s a t _ hs hrule hadd
    refine hs.of_adds hhoused ?_ hadd
    exact hrule.elim (hs.lies.of_coreRule hb hhoused htidy)
      (hs.lies.of_pluginRule hhoused htidy)
  · exact fun _ _ hs => hs.of_discover _
  · exact fun _ hs hq => hs.of_take hq

/-- At every stage of a run on a tidy program, a variable that refers to something and is not a
receiver is that of a method that is reachable. -/
theorem reached_of_points (hb : env.program.Built) (hhoused : env.program.Housed)
    (htidy : env.program.Tidy) (hP : P.Honest env (PluginRule env) K)
    (hstart : ∀ p ∈ plugins, K ({} : Solver).settled p)
    (h : Machine.Visits P env entries (.new plugins) stage) {v : QVar} {o : QObj}
    (ho : o ∈ stage.machine.solver.pointsTo.get (.var v))
    (hv : ¬ env.program.IsReceiver v.item) :
    env.program.home v ∈ stage.machine.solver.calls.reachableIn :=
  ((orderly_of_visits hb hhoused htidy hP hstart h).points ho).resolve_right fun hr => hv hr.1

end Runs

end PointsTo
