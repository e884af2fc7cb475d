import PointsTo.Reflection

/-!
# Calls that are offered

When a method becomes reachable, the plugin for reflection is offered its calls.  A log keeps in
mind what it asks of a call.  If it asks for nothing, the other models look at the call from then
on, whenever one of the variables that it depends on refers to more.  What an offer changes is read
off from the models once here.

Main results:

- {lit}`LogModel.asked`, and theorem {lit}`LogModel.offer_eq`: what a log asks of a call.
- {lit}`ResolvedEntry.SpeaksOf`, and theorem {lit}`LogModel.mem_asked`: the entries that speak of
  the call say it.
- {lit}`Watch`: how a model may look at a call; theorems {lit}`ClassModel.watch_of_offered`,
  {lit}`StringModel.watch_of_offered`, {lit}`ActionModel.watch_of_offered`: they look at it in no
  other way.
- {lit}`State.Offered`, and theorem {lit}`State.offered`: all that an offer changes.
-/

namespace PointsTo.Reflection

variable {call : Invoke} {x : VarId × InvokeId × Api}

/-! ## Logs -/

/-- What the log asks of a call. -/
def LogModel.asked (m : LogModel) (call : Invoke) : List Claim :=
  match Api.classify call.target with
  | none => []
  | some api => (m.matching call api).map fun e =>
      { caller := call.container, site := call.id, api, target := e.target }

/-- The log covers a call if it asks something of it, and keeps in mind what it asks. -/
theorem LogModel.offer_eq (m : LogModel) (call : Invoke) :
    m.offer call = (!(m.asked call).isEmpty, { m with claims := m.claims ++ m.asked call }) := by
  unfold offer asked
  cases Api.classify call.target with
  | none => simp
  | some api =>
      cases hentries : m.matching call api with
      | nil => simp [hentries]
      | cons entry entries => simp [hentries]

/-- Logs with the same entries ask for the same. -/
theorem LogModel.asked_congr {m m' : LogModel} (h : m'.entries = m.entries) (call : Invoke) :
    m'.asked call = m.asked call := by
  unfold asked matching
  rw [h]

/-- An entry of a log speaks of a call of a method. -/
structure ResolvedEntry.SpeaksOf (m : MethodId) (call : Invoke) (e : ResolvedEntry) : Prop where
  caller : e.caller = m
  classified : Api.classify call.target = some e.api
  line : e.line = none ∨ e.line = call.line

/-- What it asks of the call. -/
def ResolvedEntry.claim (e : ResolvedEntry) (call : Invoke) : Claim :=
  { caller := call.container, site := call.id, api := e.api, target := e.target }

/-- A log asks of a call what those entries say that speak of it. -/
theorem LogModel.mem_asked {m : LogModel} {claim : Claim} : claim ∈ m.asked call ↔
    ∃ e ∈ m.entries, e.SpeaksOf call.container call ∧ claim = e.claim call := by
  unfold asked
  cases hapi : Api.classify call.target with
  | none =>
      simp only [List.not_mem_nil, false_iff, not_exists, not_and]
      rintro e _ hspeaks
      exact absurd (hapi.symm.trans hspeaks.classified) (by simp)
  | some api =>
      simp only [matching, List.mem_map, List.mem_filter, Bool.and_eq_true, Bool.or_eq_true,
        decide_eq_true_eq, Option.isNone_iff_eq_none]
      constructor
      · rintro ⟨e, ⟨he, ⟨hcaller, rfl⟩, hline⟩, rfl⟩
        exact ⟨e, he, ⟨hcaller, hapi, hline⟩, rfl⟩
      · rintro ⟨e, he, hspeaks, rfl⟩
        obtain rfl := Option.some.inj (hapi.symm.trans hspeaks.classified)
        exact ⟨e, ⟨he, ⟨hspeaks.caller, rfl⟩, hspeaks.line⟩, rfl⟩

/-! ## The other models -/

/-- A model looks at a call as what it is, whenever its base or its first argument refers to
more. -/
structure Watch (call : Invoke) (x : VarId × InvokeId × Api) : Prop where
  site : x.2.1 = call.id
  classified : Api.classify call.target = some x.2.2
  place : x.1 ∈ call.base ∨ x.1 ∈ call.args.head?

/-- The pairs of variables and calls that models look at are those of before and those that an
offered call brings. -/
theorem ClassModel.mem_offer {m : ClassModel} : x ∈ (m.offer call).2.relevant.pairs ↔
    x ∈ m.relevant.pairs ∨ x ∈ (({} : ClassModel).offer call).2.relevant.pairs := by
  unfold offer
  split
  · split <;> simp [Waitlist.mem_register, Waitlist.not_mem_empty, or_comm]
  · simp [Waitlist.not_mem_empty]

/-- An offer to the model of strings adds what it adds to the empty model. -/
theorem StringModel.mem_offer {m : StringModel} : x ∈ (m.offer call).2.relevant.pairs ↔
    x ∈ m.relevant.pairs ∨ x ∈ (({} : StringModel).offer call).2.relevant.pairs := by
  unfold offer
  split <;> simp [Waitlist.mem_register, Waitlist.not_mem_empty, or_comm, or_assoc]

/-- So does an offer to the model of actions. -/
theorem ActionModel.mem_offer {m : ActionModel} : x ∈ (m.offer call).2.relevant.pairs ↔
    x ∈ m.relevant.pairs ∨ x ∈ (({} : ActionModel).offer call).2.relevant.pairs := by
  unfold offer
  split
  · simp [Waitlist.mem_register, Waitlist.not_mem_empty, or_comm]
  · simp [Waitlist.mem_register, Waitlist.not_mem_empty, or_comm]
  · dsimp only
    split <;> simp [Waitlist.mem_register, Waitlist.not_mem_empty, or_comm, or_assoc]
  · simp [Waitlist.not_mem_empty]

/-- The model of classes looks at an offered call at its base. -/
theorem ClassModel.watch_of_offered
    (h : x ∈ (({} : ClassModel).offer call).2.relevant.pairs) : Watch call x := by
  unfold offer at h
  split at h
  · rename_i hapi hbase _
    split at h
    · simp only [Waitlist.mem_register, Waitlist.not_mem_empty, or_false] at h
      subst h
      exact ⟨rfl, hapi, .inl hbase⟩
    · exact absurd h (OrderedSet.not_mem_empty _)
  · exact absurd h (OrderedSet.not_mem_empty _)

/-- The model of strings looks at it at its first argument, and where it looks a method up also at
its base. -/
theorem StringModel.watch_of_offered
    (h : x ∈ (({} : StringModel).offer call).2.relevant.pairs) : Watch call x := by
  have hhead : ∀ {n rest}, call.args = n :: rest → n ∈ call.args.head? :=
    fun hargs => by rw [hargs]; rfl
  unfold offer at h
  split at h
  all_goals simp only [Waitlist.mem_register, Waitlist.not_mem_empty, or_false] at h
  · rename_i hapi hargs
    subst h
    exact ⟨rfl, hapi, .inr (hhead hargs)⟩
  · rename_i hapi hargs
    subst h
    exact ⟨rfl, hapi, .inr (hhead hargs)⟩
  · rename_i hapi hbase hargs
    rcases h with rfl | rfl
    · exact ⟨rfl, hapi, .inr (hhead hargs)⟩
    · exact ⟨rfl, hapi, .inl hbase⟩
  · rename_i hapi hbase hargs
    rcases h with rfl | rfl
    · exact ⟨rfl, hapi, .inr (hhead hargs)⟩
    · exact ⟨rfl, hapi, .inl hbase⟩

/-- The model of actions looks at an offered call at its base or at its first argument, if it is
one that acts. -/
theorem ActionModel.watch_of_offered
    (h : x ∈ (({} : ActionModel).offer call).2.relevant.pairs) :
    Watch call x ∧
      (x.2.2 = .classNewInstance ∨ x.2.2 = .constructorNewInstance ∨ x.2.2 = .methodInvoke) := by
  unfold offer at h
  split at h
  · rename_i hapi hbase
    simp only [Waitlist.mem_register, Waitlist.not_mem_empty, or_false] at h
    subst h
    exact ⟨⟨rfl, hapi, .inl hbase⟩, .inl rfl⟩
  · rename_i hapi hbase
    simp only [Waitlist.mem_register, Waitlist.not_mem_empty, or_false] at h
    subst h
    exact ⟨⟨rfl, hapi, .inl hbase⟩, .inr (.inl rfl)⟩
  · rename_i hapi hbase
    dsimp only at h
    split at h
    all_goals simp only [Waitlist.mem_register, Waitlist.not_mem_empty, or_false] at h
    · rename_i hargs
      rcases h with rfl | rfl
      · exact ⟨⟨rfl, hapi, .inr (by rw [hargs]; rfl)⟩, .inr (.inr rfl)⟩
      · exact ⟨⟨rfl, hapi, .inl hbase⟩, .inr (.inr rfl)⟩
    · subst h
      exact ⟨⟨rfl, hapi, .inl hbase⟩, .inr (.inr rfl)⟩
  · exact absurd h (OrderedSet.not_mem_empty _)

/-- An offer makes nothing. -/
theorem ActionModel.made_offer (m : ActionModel) (call : Invoke) :
    (m.offer call).2.made = m.made := by
  unfold offer
  split <;> rfl

/-! ## All models -/

namespace State

/-- The log covers a call. -/
def covers (st : State) (call : Invoke) : Bool := st.log.any fun m => (m.offer call).1

/-- A call is offered to the log, and to the other models if the log does not cover it. -/
theorem offer_eq (st : State) (call : Invoke) :
    st.offer call =
      let offered : State := { st with log := st.log.map fun m => (m.offer call).2 }
      if st.covers call then offered else offered.offerModels call := by
  unfold offer covers
  obtain ⟨log, classes, strings, actions, argArrays, forwarded⟩ := st
  cases log with
  | none => rfl
  | some m =>
      cases hm : m.offer call with
      | mk taken m' => cases taken <;> simp [hm]

/-- All that an offer changes: the log keeps in mind what it asks of the call, and unless it covers
the call the other models may look at it. -/
structure Offered (st : State) (call : Invoke) (q : State) : Prop where
  log : q.log = st.log.map fun m => { m with claims := m.claims ++ m.asked call }
  classes : ∀ x ∈ q.classes.relevant.pairs, x ∈ st.classes.relevant.pairs ∨
    st.covers call = false ∧ Watch call x
  strings : ∀ m' ∈ q.strings, ∃ m ∈ st.strings, ∀ x ∈ m'.relevant.pairs,
    x ∈ m.relevant.pairs ∨ st.covers call = false ∧ Watch call x
  actions : ∀ x ∈ q.actions.relevant.pairs, x ∈ st.actions.relevant.pairs ∨
    st.covers call = false ∧ Watch call x ∧
      (x.2.2 = .classNewInstance ∨ x.2.2 = .constructorNewInstance ∨ x.2.2 = .methodInvoke)
  made : q.actions.made = st.actions.made
  argArrays : q.argArrays = st.argArrays
  forwarded : q.forwarded = st.forwarded

/-- An offer changes nothing else. -/
theorem offered (st : State) (call : Invoke) : st.Offered call (st.offer call) := by
  have hlog : (st.log.map fun m => (m.offer call).2) =
      st.log.map fun m => { m with claims := m.claims ++ m.asked call } := by
    simp only [LogModel.offer_eq]
  rw [offer_eq]
  dsimp only
  split
  · exact ⟨hlog, fun _ => .inl, fun m hm => ⟨m, hm, fun _ => .inl⟩, fun _ => .inl, rfl, rfl, rfl⟩
  · rename_i hcovers
    rw [Bool.not_eq_true] at hcovers
    refine ⟨hlog, fun x hx => ?_, fun m' hm' => ?_, fun x hx => ?_,
      ActionModel.made_offer _ _, rfl, rfl⟩
    · exact (ClassModel.mem_offer.1 hx).imp_right fun hnew =>
        ⟨hcovers, ClassModel.watch_of_offered hnew⟩
    · obtain ⟨m, hm, rfl⟩ := Option.map_eq_some_iff.1 hm'
      exact ⟨m, hm, fun x hx => (StringModel.mem_offer.1 hx).imp_right fun hnew =>
        ⟨hcovers, StringModel.watch_of_offered hnew⟩⟩
    · exact (ActionModel.mem_offer.1 hx).imp_right fun hnew =>
        ⟨hcovers, ActionModel.watch_of_offered hnew⟩

/-- What becomes of a log when a call is offered. -/
theorem Offered.of_log {st q : State} (h : st.Offered call q) {m' : LogModel} (hm' : m' ∈ q.log) :
    ∃ m ∈ st.log, m' = { m with claims := m.claims ++ m.asked call } := by
  rw [h.log] at hm'
  obtain ⟨m, hm, rfl⟩ := Option.map_eq_some_iff.1 hm'
  exact ⟨m, hm, rfl⟩

end State

end PointsTo.Reflection
