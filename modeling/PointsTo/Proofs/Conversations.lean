import PointsTo.MockTable
import PointsTo.Proofs.PluginRules

/-!
# What plugins bring about

The requests that plugins make, each with what it achieves: that it keeps to the rules of
the plugins, and what is there or on its way afterwards.

Main results:

- Theorems {lit}`Service.callContext_ok`, {lit}`Service.addResult_ok` and their like: one
  request.
- {lit}`MockTable.Denotes`, and theorem {lit}`MockTable.getOrCreate_ok`: tables of stand-ins
  hold the objects that they say.
-/

namespace PointsTo

namespace Service

variable {env : Setting} {s t : Solver}

/-! ## Requests as computations -/

section Run

variable (env : Setting)

/-- A request for a stand-in is carried out by the table of objects. -/
@[simp] theorem run_mock (m : MockObj) : (mock m).run env = SolverM.internObj m.obj :=
  bind_pure _

/-- A request for the context of a call is carried out by the selector. -/
@[simp] theorem run_callContext (site : QSite) (receiver : Option QObj) :
    (callContext site receiver).run env = SolverM.callContext env site receiver :=
  bind_pure _

/-- So is one for a heap context. -/
@[simp] theorem run_heapContext (m : QMethod) :
    (heapContext m).run env = SolverM.heapContext env m :=
  bind_pure _

/-- A request for objects to reach a pointer adds these. -/
@[simp] theorem run_addPointsTo (ptr : Pointer) (os : ObjSet) :
    (addPointsTo ptr os).run env = modify fun s => s.addPointsTo ptr os :=
  bind_pure _

/-- A request for a flow edge adds it. -/
@[simp] theorem run_addFlow (e : FlowEdge) :
    (addFlow e).run env = modify fun s => s.addFlow env.program e :=
  bind_pure _

/-- A request for a call edge adds it. -/
@[simp] theorem run_addCall (e : CallEdge) :
    (addCall e).run env = modify fun s => s.addCall e :=
  bind_pure _

/-- A request for a note adds the line. -/
@[simp] theorem run_note (line : String) : (note line).run env = modify fun s => s.note line :=
  bind_pure _

end Run

/-! ## What requests achieve -/

/-- To look at an object changes nothing. -/
theorem obj_eq_ok {o : ObjId} {x : Obj} :
    (obj o).run env s = .ok x t ↔ s.heap.get o = x ∧ s = t := by
  show EStateM.Result.ok (s.heap.get o) s = .ok x t ↔ _
  simp

/-- To look at what a pointer refers to changes nothing. -/
theorem pointsTo_eq_ok {ptr : Pointer} {os : ObjSet} :
    (pointsTo ptr).run env s = .ok os t ↔ s.pointsTo.get ptr = os ∧ s = t := by
  show EStateM.Result.ok (s.pointsTo.get ptr) s = .ok os t ↔ _
  simp

/-- Nor does it for a variable. -/
theorem varPointsTo_eq_ok {v : QVar} {os : ObjSet} :
    (varPointsTo v).run env s = .ok os t ↔ s.pointsTo.get (.var v) = os ∧ s = t :=
  pointsTo_eq_ok

/-- The id of a stand-in denotes it. -/
theorem mock_ok {m : MockObj} {i : ObjId} (h : (mock m).run env s = .ok i t) :
    s.Evolves env.program (PluginRule env) t ∧ t.heap.get? i = some m.obj := by
  rw [run_mock] at h
  obtain ⟨hadd, hget⟩ := SolverM.internObj_ok env h
  exact ⟨hadd.evolves .object, hget⟩

/-- The context of a call exists and is the selected one. -/
theorem callContext_ok {site : QSite} {receiver : Option QObj} {c : ContextId}
    (h : (callContext site receiver).run env s = .ok c t) (hempty : s.contexts.Has emptyContext)
    (hsite : s.contexts.Has site.context) (hreceiver : ∀ o ∈ receiver, s.settled.HasObj o) :
    s.Evolves env.program (PluginRule env) t ∧ t.settled.Selects env site receiver c ∧
      t.contexts.Has c := by
  rw [run_callContext] at h
  have hevolves : s.Evolves env.program (PluginRule env) t :=
    SolverM.evolves_callContext h fun _ _ => .context
  obtain ⟨contexts, rfl, hc⟩ := SolverM.callContext_ok h
  exact ⟨hevolves, SolverM.selects_of_callContext h hsite hreceiver,
    Selector.has_of_callContext hc hsite hempty⟩

/-- The heap context of a method exists and is the selected one. -/
theorem heapContext_ok {m : QMethod} {c : ContextId}
    (h : (heapContext m).run env s = .ok c t) (hempty : s.contexts.Has emptyContext)
    (hm : s.contexts.Has m.context) :
    s.Evolves env.program (PluginRule env) t ∧ t.settled.SelectsHeap env m c ∧
      t.contexts.Has c := by
  rw [run_heapContext] at h
  have hevolves : s.Evolves env.program (PluginRule env) t :=
    SolverM.evolves_heapContext h fun _ _ => .context
  obtain ⟨contexts, rfl, hc⟩ := SolverM.heapContext_ok h
  exact ⟨hevolves, SolverM.selects_of_heapContext h hm, Selector.has_of_heapContext hc hempty⟩

/-- An object that was let reach the result of a call is on its way to it. -/
theorem addResult_ok (site : QSite) {v : VarId} {o : QObj} {x : Unit}
    (h : (addVarObj site.context v o).run env s = .ok x t)
    (hsite : s.settled.Acting env.program site) (hv : v ∈ (env.program.invoke site.item).result)
    (ho : s.settled.HasObj o) :
    s.Evolves env.program (PluginRule env) t ∧ t.Owes (varPointer site.context v) o := by
  simp only [addVarObj, run_addPointsTo, modify_eq_ok] at h
  refine ⟨Solver.Adds.evolves (a := .points (varPointer site.context v) (.singleton o)) h ?_, ?_⟩
  · refine .yield hsite hv ?_
    intro o' ho'
    obtain rfl := OrderedSet.mem_singleton.1 ho'
    exact ho
  · rw [h]
    exact Solver.owes_addObj s _ o

/-- The same where the call may have no result. -/
theorem forM_addResult_ok {site : QSite} {o : QObj} {x : Unit}
    (h : ((env.program.invoke site.item).result.forM fun v =>
      addVarObj site.context v o).run env s = .ok x t)
    (hsite : s.settled.Acting env.program site) (ho : s.settled.HasObj o) :
    s.Evolves env.program (PluginRule env) t ∧
      ∀ v ∈ (env.program.invoke site.item).result, t.Owes (varPointer site.context v) o := by
  rcases option_forM_cases h with ⟨hnone, rfl⟩ | ⟨v, hv, h⟩
  · exact ⟨.refl _, fun v hv => absurd (hnone.symm.trans hv) (by simp)⟩
  · obtain ⟨hevolves, howes⟩ := addResult_ok site h hsite hv ho
    refine ⟨hevolves, ?_⟩
    intro v' hv'
    obtain rfl := Option.some.inj (hv.symm.trans hv')
    exact howes

/-- A call edge that was asked for is on its way to the call graph. -/
theorem addCall_ok {e : CallEdge} {x : Unit} (h : (addCall e).run env s = .ok x t)
    (hsite : s.settled.Acting env.program e.site) (hreturns : e.Returns env.program)
    (hselected : e.Selected env s.settled) (he : e.Exists s.settled) :
    s.Evolves env.program (PluginRule env) t ∧ t.Announces e := by
  simp only [run_addCall, modify_eq_ok] at h
  refine ⟨Solver.Adds.evolves (a := .call e) h (.call hsite hreturns hselected he), ?_⟩
  rw [h]
  exact Solver.announces_addCall s e

/-- A method was asked to be run on an object. -/
theorem eq_enterOn {receiver : Option VarId} {c : ContextId} {o : QObj} {site : QSite}
    {m : MethodId} {kind : CallKind} {u : Solver} {x y : Unit}
    (hthis : (receiver.forM fun this => addVarObj c this o).run env s = .ok x u)
    (hcall : (addCall ⟨site, ⟨c, m⟩, kind⟩).run env u = .ok y t) :
    t = s.enterOn receiver o ⟨site, ⟨c, m⟩, kind⟩ := by
  rw [run_addCall, modify_eq_ok] at hcall
  subst hcall
  rcases option_forM_cases hthis with ⟨rfl, rfl⟩ | ⟨this, rfl, hadd⟩
  · rfl
  · simp only [addVarObj, run_addPointsTo, modify_eq_ok] at hadd
    subst hadd
    rfl

/-- Flow edges that were asked for are there. -/
theorem addFlows_ok {e : CallEdge} {es : List FlowEdge} {x : Unit}
    (h : (addFlows es).run env s = .ok x t) (he : e ∈ s.calls.edges)
    (hfeeds : ∀ f ∈ es, e.Feeds env.program f.target) (hes : ∀ f ∈ es, f.Exists s.settled) :
    s.Evolves env.program (PluginRule env) t ∧ ∀ f ∈ es, f ∈ t.flow.edges := by
  simp only [addFlows, run_forM, run_addFlow] at h
  obtain ⟨hevolves, hall⟩ := forM_rel (R := Solver.Evolves env.program (PluginRule env)) .refl
    .trans h (by
      intro f hf u v hsu huv
      have hold : f.Exists u.settled := (hes f hf).mono hsu.extends.settled
      exact Solver.Adds.evolves (a := .flow f) (modify_eq_ok.1 huv)
        (.flow (hsu.extends.settled.call he) (hfeeds f hf) hold))
  refine ⟨hevolves, ?_⟩
  intro f hf
  obtain ⟨u, v, _, huv, hvt⟩ := hall f hf
  refine hvt.accretes.flow ?_
  rw [modify_eq_ok.1 huv]
  exact Solver.mem_flow_addFlow u env.program f

end Service

/-! ## Loops -/

namespace Service

variable {env : Setting} {s t : Solver} {α : Type}

/-- A loop keeps to the rules if all its steps do. -/
theorem evolves_forM {f : α → Service PUnit} {l : List α} {x : PUnit}
    (h : (l.forM f).run env s = .ok x t)
    (hstep : ∀ a ∈ l, ∀ {u v}, s.Evolves env.program (PluginRule env) u →
      (f a).run env u = .ok ⟨⟩ v → u.Evolves env.program (PluginRule env) v) :
    s.Evolves env.program (PluginRule env) t := by
  rw [run_forM] at h
  exact (forM_rel (R := Solver.Evolves env.program (PluginRule env)) .refl .trans h
    fun a ha _ _ hsu huv => hstep a ha hsu huv).1

/-- A step that may be left out keeps to the rules if the step does. -/
theorem evolves_option_forM {f : α → Service PUnit} {o : Option α} {x : PUnit}
    (h : (o.forM f).run env s = .ok x t)
    (hstep : ∀ a, o = some a → (f a).run env s = .ok ⟨⟩ t →
      s.Evolves env.program (PluginRule env) t) :
    s.Evolves env.program (PluginRule env) t := by
  rcases option_forM_cases h with ⟨_, rfl⟩ | ⟨a, ha, h⟩
  · exact .refl _
  · exact hstep a ha h

/-- A loop with an accumulator keeps an invariant that connects it to the state, if all its
steps do. -/
theorem evolves_foldlM {β : Type} {J : β → Solver → Prop} {f : β → α → Service β} {l : List α}
    {b c : β} (h : (l.foldlM f b).run env s = .ok c t) (hb : J b s)
    (hstep : ∀ a ∈ l, ∀ {b c u v}, s.Evolves env.program (PluginRule env) u → J b u →
      (f b a).run env u = .ok c v → u.Evolves env.program (PluginRule env) v ∧ J c v) :
    s.Evolves env.program (PluginRule env) t ∧ J c t := by
  rw [run_foldlM] at h
  exact foldlM_rel (R := Solver.Evolves env.program (PluginRule env)) .refl .trans h hb
    fun a ha _ _ _ _ hsu hJ huv => hstep a ha hsu hJ huv

/-- What every step of a loop achieves is so in the end, if nothing that comes after undoes
it. -/
theorem achieves_forM {f : α → Service PUnit} {E : α → View → Prop} {l : List α} {x : PUnit}
    (h : (l.forM f).run env s = .ok x t)
    (hmono : ∀ a ∈ l, ∀ {u v}, s.Evolves env.program (PluginRule env) u →
      u.Evolves env.program (PluginRule env) v → E a u.expected → E a v.expected)
    (hstep : ∀ a ∈ l, ∀ {u v}, s.Evolves env.program (PluginRule env) u →
      (f a).run env u = .ok ⟨⟩ v → u.Evolves env.program (PluginRule env) v ∧ E a v.expected) :
    s.Evolves env.program (PluginRule env) t ∧ ∀ a ∈ l, E a t.expected := by
  rw [run_forM] at h
  obtain ⟨hst, hall⟩ := forM_rel (R := Solver.Evolves env.program (PluginRule env)) .refl .trans h
    fun a ha _ _ hsu huv => (hstep a ha hsu huv).1
  refine ⟨hst, ?_⟩
  intro a ha
  obtain ⟨u, v, hsu, huv, hvt⟩ := hall a ha
  obtain ⟨hevolves, hE⟩ := hstep a ha hsu huv
  exact hmono a ha (hsu.trans hevolves) hvt hE

/-- The same for a loop with an accumulator. -/
theorem achieves_foldlM {β : Type} {J : β → Solver → Prop} {f : β → α → Service β}
    {E : α → View → Prop} {l : List α} {b c : β} (h : (l.foldlM f b).run env s = .ok c t)
    (hb : J b s)
    (hmono : ∀ a ∈ l, ∀ {u v}, s.Evolves env.program (PluginRule env) u →
      u.Evolves env.program (PluginRule env) v → E a u.expected → E a v.expected)
    (hstep : ∀ a ∈ l, ∀ {b c u v}, s.Evolves env.program (PluginRule env) u → J b u →
      (f b a).run env u = .ok c v →
      u.Evolves env.program (PluginRule env) v ∧ J c v ∧ E a v.expected) :
    s.Evolves env.program (PluginRule env) t ∧ J c t ∧ ∀ a ∈ l, E a t.expected := by
  have hloop : ∀ a ∈ l, ∀ {b c u v}, s.Evolves env.program (PluginRule env) u → J b u →
      (f b a).run env u = .ok c v → u.Evolves env.program (PluginRule env) v ∧ J c v := by
    intro a ha b c u v hsu hJ huv
    obtain ⟨hevolves, hJ', _⟩ := hstep a ha hsu hJ huv
    exact ⟨hevolves, hJ'⟩
  obtain ⟨hst, hc⟩ := evolves_foldlM h hb hloop
  refine ⟨hst, hc, ?_⟩
  intro a ha
  rw [run_foldlM] at h
  obtain ⟨b', c', u, v, hsu, hJ, huv, hvt⟩ := foldlM_steps
    (R := Solver.Evolves env.program (PluginRule env)) .refl .trans h hb
    (fun a ha _ _ _ _ hsu hJ huv => hloop a ha hsu hJ huv) a ha
  obtain ⟨hevolves, _, hE⟩ := hstep a ha hsu hJ huv
  exact hmono a ha (hsu.trans hevolves) hvt hE

end Service

/-! ## Calls under a selected context -/

namespace View

/-- A call edge leads to a method under the context that is selected for a receiver. -/
def Runs (env : Setting) (k : View) (site : QSite) (receiver : Option QObj) (m : MethodId)
    (kind : CallKind) : Prop :=
  ∃ c, k.Selects env site receiver c ∧ k.call ⟨site, ⟨c, m⟩, kind⟩

/-- A call edge leads to a method under the context that is selected for an object,
which is the receiver of the method. -/
def RunsOn (env : Setting) (k : View) (site : QSite) (o : QObj) (m : MethodId)
    (kind : CallKind) : Prop :=
  ∃ c, k.Selects env site (some o) c ∧ k.call ⟨site, ⟨c, m⟩, kind⟩ ∧
    ∀ this ∈ (env.program.method m).receiver, k.points (varPointer c this) o

variable {env : Setting} {k l : View} {site : QSite} {m : MethodId} {kind : CallKind}

/-- A method that was run stays so while a view grows. -/
theorem Runs.mono {receiver : Option QObj} (h : k.Runs env site receiver m kind)
    (hsite : k.contexts.Has site.context) (hreceiver : ∀ o ∈ receiver, k.HasObj o)
    (hle : k.Le l) : l.Runs env site receiver m kind := by
  obtain ⟨c, hc, he⟩ := h
  exact ⟨c, hc.mono hsite hreceiver hle, hle.call he⟩

/-- A method that was run on an object stays so. -/
theorem RunsOn.mono {o : QObj} (h : k.RunsOn env site o m kind)
    (hsite : k.contexts.Has site.context) (ho : k.HasObj o) (hle : k.Le l) :
    l.RunsOn env site o m kind := by
  obtain ⟨c, hc, he, hthis⟩ := h
  refine ⟨c, hc.mono hsite ?_ hle, hle.call he, fun this ht => hle.points (hthis this ht)⟩
  rintro _ ⟨⟩
  exact ho

end View

namespace Service

variable {env : Setting} {s u v t : Solver} {site : QSite} {m : MethodId} {kind : CallKind}
  {c : ContextId} {x y : Unit}

/-- A method is called under the context that was selected. -/
theorem runs_ok {receiver : Option QObj}
    (hselect : (callContext site receiver).run env s = .ok c u)
    (hcall : (addCall ⟨site, ⟨c, m⟩, kind⟩).run env u = .ok y t)
    (hempty : s.contexts.Has emptyContext) (hsite : s.settled.Acting env.program site)
    (hreceiver : ∀ o ∈ receiver, s.settled.HasObj o)
    (hkind : ∀ call, kind = .lambda call → s.contexts.Has call.lambdaContext ∧
      call.result = (env.program.invoke site.item).result) :
    s.Evolves env.program (PluginRule env) t ∧ t.expected.Runs env site receiver m kind := by
  obtain ⟨hsu, hsel, hc⟩ := callContext_ok hselect hempty hsite.context hreceiver
  have hle := hsu.extends.settled
  have hsite' := hsite.mono hle
  obtain ⟨hut, hannounced⟩ := addCall_ok hcall hsite' (fun call hk => (hkind call hk).2)
    ⟨receiver, hsel⟩ ⟨hsite'.context, hc, fun call hk => (hkind call hk).1.of_grows hle.contexts⟩
  have hlater : u.settled.Le t.expected :=
    (Solver.settled_le_expected u).trans hut.extends.expected
  exact ⟨hsu.trans hut, c, hsel.mono hsite'.context (fun o ho => (hreceiver o ho).mono hle) hlater,
    hannounced⟩

/-- A method is called on an object under the context that was selected. -/
theorem runsOn_ok {o : QObj}
    (hselect : (callContext site (some o)).run env s = .ok c u)
    (hthis : ((env.program.method m).receiver.forM fun this => addVarObj c this o).run env u =
      .ok x v)
    (hcall : (addCall ⟨site, ⟨c, m⟩, kind⟩).run env v = .ok y t)
    (hempty : s.contexts.Has emptyContext) (hsite : s.settled.Acting env.program site)
    (ho : s.settled.HasObj o)
    (hkind : ∀ call, kind = .lambda call → s.contexts.Has call.lambdaContext ∧
      call.result = (env.program.invoke site.item).result) :
    s.Evolves env.program (PluginRule env) t ∧ t.expected.RunsOn env site o m kind := by
  have hreceiver : ∀ o' ∈ some o, s.settled.HasObj o' := by
    rintro _ ⟨⟩
    exact ho
  obtain ⟨hsu, hsel, hc⟩ := callContext_ok hselect hempty hsite.context hreceiver
  have hle := hsu.extends.settled
  have hsite' := hsite.mono hle
  obtain rfl := eq_enterOn hthis hcall
  have hadd : u.Adds env.program (.enter (env.program.method m).receiver o _)
    (u.enterOn (env.program.method m).receiver o ⟨site, ⟨c, m⟩, kind⟩) := rfl
  have hedge : CallEdge.Exists u.settled ⟨site, ⟨c, m⟩, kind⟩ :=
    ⟨hsite'.context, hc, fun call hk => (hkind call hk).1.of_grows hle.contexts⟩
  have hselected : CallEdge.Selected env u.settled ⟨site, ⟨c, m⟩, kind⟩ := ⟨some o, hsel⟩
  have hut := hadd.evolves (PluginRule.enter hsite' (fun call hk => (hkind call hk).2) hselected
    hedge (ho.mono hle))
  have hlater := (Solver.settled_le_expected u).trans hut.extends.expected
  refine ⟨hsu.trans hut, c, ?_, Solver.announces_enterOn _ _ _ _, ?_⟩
  · exact hsel.mono hsite'.context (fun o' ho' => (hreceiver o' ho').mono hle) hlater
  · exact fun this ht => Solver.owes_enterOn _ _ _ ht

end Service

/-! ## Tables of stand-ins -/

namespace MockTable

/-- The object that a table holds for a call site and a type. -/
def standIn (p : Program) (kind : MockKind) (site : InvokeId) (type : JavaType) : Obj :=
  { kind := .mock kind (.invoke site), type, container := some (p.invoke site).container }

/-- The entries of a table are the objects of call sites that they say. -/
def Denotes (p : Program) (k : View) (t : MockTable) : Prop :=
  ∀ site type i, ((site, type), i) ∈ t.entries →
    ∃ j, site = .invoke j ∧ k.heap.get? i = some (standIn p t.kind j type)

variable {p : Program} {k l : View} {table table' : MockTable}

/-- The entries of a table go on denoting what they say. -/
theorem Denotes.mono (h : table.Denotes p k) (hle : k.Le l) : table.Denotes p l := by
  intro site type i hi
  obtain ⟨j, hj, hget⟩ := h site type i hi
  exact ⟨j, hj, hle.heap _ _ hget⟩

/-- A new table has no entries to be wrong. -/
theorem denotes_new (kind : MockKind) : (MockTable.new kind).Denotes p k :=
  fun _ _ _ h => absurd h List.not_mem_nil

/-- What is found in a table is an entry of it. -/
theorem mem_of_find? {site : MockSite} {type : JavaType} {i : ObjId}
    (h : table.find? site type = some i) : ((site, type), i) ∈ table.entries := by
  obtain ⟨pre, post, heq, _⟩ := List.lookup_eq_some_iff.1 h
  rw [heq]
  exact List.mem_append_right _ List.mem_cons_self

/-- A table stays one of its kind. -/
theorem getOrCreate_kept {env : Setting} {s t : Solver} {site : MockSite} {type : JavaType}
    {container : Option MethodId} {i : ObjId}
    (h : (table.getOrCreate site type container).run env s = .ok (i, table') t) :
    table'.kind = table.kind := by
  unfold getOrCreate at h
  split at h
  · obtain ⟨heq, _⟩ := pure_eq_ok.1 h
    cases heq
    rfl
  · simp only [Service.bind_eq, Service.run_bind, bind_eq_ok] at h
    obtain ⟨_, _, _, h⟩ := h
    obtain ⟨heq, _⟩ := pure_eq_ok.1 h
    cases heq
    rfl

/-- A table hands out the object that it says, and stays right. -/
theorem getOrCreate_ok {env : Setting} {s t : Solver} {site : InvokeId} {type : JavaType}
    {i : ObjId}
    (h : (table.getOrCreate (.invoke site) type
      (some (env.program.invoke site).container)).run env s = .ok (i, table') t)
    (htable : table.Denotes env.program s.settled) :
    s.Evolves env.program (PluginRule env) t ∧ table'.kind = table.kind ∧
      table'.Denotes env.program t.settled ∧
      t.heap.get? i = some (standIn env.program table.kind site type) := by
  cases hfind : table.find? (.invoke site) type with
  | some j =>
      rw [getOrCreate_of_find? hfind] at h
      obtain ⟨heq, rfl⟩ := pure_eq_ok.1 h
      obtain ⟨rfl, rfl⟩ := Prod.mk.inj heq
      obtain ⟨j, hj, hget⟩ := htable _ _ _ (mem_of_find? hfind)
      cases hj
      exact ⟨.refl _, rfl, htable, hget⟩
  | none =>
      simp only [getOrCreate, hfind, Service.bind_eq, Service.run_bind, bind_eq_ok] at h
      obtain ⟨j, u, hmock, h⟩ := h
      obtain ⟨hevolves, hget⟩ := Service.mock_ok hmock
      obtain ⟨heq, rfl⟩ := pure_eq_ok.1 h
      obtain ⟨rfl, rfl⟩ := Prod.mk.inj heq
      refine ⟨hevolves, rfl, ?_, hget⟩
      intro site' type' i hi
      rcases List.mem_append.1 hi with hi | hi
      · exact htable.mono hevolves.extends.settled site' type' i hi
      · obtain ⟨⟨rfl, rfl⟩, rfl⟩ := by simpa using hi
        exact ⟨site, rfl, hget⟩

end MockTable

end PointsTo
