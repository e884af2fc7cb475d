import PointsTo.Proofs.Conversations
import PointsTo.Reflection

/-!
# What the plugin for reflection does

The conversations of the models that the plugin for reflection consists of keep to the rules
of the plugins, and their tables of stand-ins hold the objects that they say.  This file says so
of the models of classes and of string constants, and of what all models have in common, and it
says what the conversations achieve.

Main results:

- Theorems {lit}`newInstance_ok`, {lit}`invokeMethod_ok`: reflective allocation and invocation;
  {lit}`Instantiated`, {lit}`InvokedStatic` and {lit}`InvokedOn` are what they achieve.
- {lit}`Mentioned`: variables are looked at for calls that mention them.
- {lit}`ClassModel.Yielded`, and theorem {lit}`ClassModel.yielded_of_grown`: what a call that asks
  for a class or for constructors yields.
- {lit}`StringModel.Found`, and theorem {lit}`StringModel.grown_ok`: which classes and methods are
  found by name.
-/

namespace PointsTo.Reflection

variable {env : Setting} {s t : Solver} {k l : View} {site : QSite}

/-- The variables that are looked at are mentioned by the calls that they are looked at
for. -/
def Mentioned (p : Program) {τ : Type} (w : RelevantVars τ) : Prop :=
  ∀ v site x, (v, (site, x)) ∈ w.pairs → v ∈ p.mentioned (.invoke site)

/-- A variable that a call mentions may be watched for it. -/
theorem Mentioned.register {p : Program} {τ : Type} [DecidableEq τ] {w : RelevantVars τ}
    (h : Mentioned p w) {v : VarId} {site : InvokeId} (hv : v ∈ p.mentioned (.invoke site))
    (x : τ) : Mentioned p (w.register v (site, x)) := by
  intro v' site' x' hmem
  rcases OrderedSet.mem_insert.1 hmem with heq | hmem
  · cases heq
    exact hv
  · exact h v' site' x' hmem

/-- Where nothing is watched, only mentioned variables are. -/
theorem mentioned_empty {p : Program} {τ : Type} : Mentioned p (.empty : RelevantVars τ) :=
  fun _ _ _ hmem => absurd hmem (OrderedSet.not_mem_empty _)

/-- A variable that refers to something is a reason to act at the calls that it is looked at
for. -/
theorem Mentioned.acting {p : Program} {τ : Type} [DecidableEq τ] {w : RelevantVars τ}
    (h : Mentioned p w) {v : QVar} (hv : k.Refers v) {site : InvokeId} {x : τ}
    (hmem : (site, x) ∈ w.get v.item) : k.Acting p ⟨v.context, site⟩ :=
  hv.acting (h _ _ _ (Waitlist.mem_get.1 hmem))

/-! ## What calls achieve -/

/-- A stand-in is at the result of a call, under the empty heap context. -/
def Presented (env : Setting) (k : View) (site : QSite) (made : MockObj) : Prop :=
  ∀ result ∈ (env.program.invoke site.item).result, ∃ i, k.heap.get? i = some made.obj ∧
    k.points (varPointer site.context result) ⟨emptyContext, i⟩

/-- An object of a type stands for what a call makes.  It is at the result of the call, and if
there is a constructor the call runs it on the object. -/
def Instantiated (env : Setting) (k : View) (site : QSite) (type : JavaType)
    (constructor? : Option MethodId) (call : ReflectiveCall) : Prop :=
  ∃ c i, k.SelectsHeap env ⟨site.context, (env.program.invoke site.item).container⟩ c ∧
    k.heap.get? i = some (MockTable.standIn env.program .reflective site.item type) ∧
    (∀ result ∈ (env.program.invoke site.item).result,
      k.points (varPointer site.context result) ⟨c, i⟩) ∧
    ∀ m ∈ constructor?, k.RunsOn env site ⟨c, i⟩ m (.reflective call)

/-- A call runs a method if that is static and no constructor. -/
def InvokedStatic (env : Setting) (k : View) (site : QSite) (target : MethodId)
    (args : Option VarId) : Prop :=
  (env.program.method target).isConstructor = false →
    (env.program.method target).isStatic = true →
      k.Runs env site none target (.reflective { api := .methodInvoke, args })

/-- A call runs on an object what dispatch finds there for a method, if the method is neither
static nor a constructor. -/
def InvokedOn (env : Setting) (k : View) (site : QSite) (target : MethodId)
    (args : Option VarId) (o : QObj) : Prop :=
  (env.program.method target).isConstructor = false →
    (env.program.method target).isStatic = false →
      ∀ m, invokedOn? env.program target (k.heap.get o.item).type = some m →
        k.RunsOn env site o m (.reflective { api := .methodInvoke, args })

section Achieved

variable {made : MockObj} {type : JavaType} {constructor? : Option MethodId}
  {call : ReflectiveCall} {target : MethodId} {args : Option VarId} {o : QObj} (hle : k.Le l)

include hle

/-- A meta object that was handed on stays so while a view grows. -/
theorem Presented.mono (h : Presented env k site made) : Presented env l site made := by
  intro result hresult
  obtain ⟨i, hi, hpoints⟩ := h result hresult
  exact ⟨i, hle.heap _ _ hi, hle.points hpoints⟩

/-- An object that was made at a call stays so. -/
theorem Instantiated.mono (h : Instantiated env k site type constructor? call)
    (hempty : k.contexts.Has emptyContext) (hsite : k.contexts.Has site.context) :
    Instantiated env l site type constructor? call := by
  obtain ⟨c, i, hc, hi, hresult, hruns⟩ := h
  refine ⟨c, i, hc.mono hsite hle, hle.heap _ _ hi, fun r hr => hle.points (hresult r hr), ?_⟩
  exact fun m hm => (hruns m hm).mono hsite ⟨Selector.has_of_heapContext hc hempty, _, hi⟩ hle

/-- A static method that was invoked stays so. -/
theorem InvokedStatic.mono (h : InvokedStatic env k site target args)
    (hsite : k.contexts.Has site.context) : InvokedStatic env l site target args :=
  fun hc hs => (h hc hs).mono hsite (by simp) hle

/-- A method that was invoked on an object stays so. -/
theorem InvokedOn.mono (h : InvokedOn env k site target args o)
    (hsite : k.contexts.Has site.context) (ho : k.HasObj o) :
    InvokedOn env l site target args o := by
  intro hc hs m hm
  rw [Heap.get_of_grows ho.2 hle.heap] at hm
  exact (h hc hs m hm).mono hsite ho hle

end Achieved

/-! ## Allocation and invocation -/

/-- What a variable refers to as far as a change concerns it. -/
def seen (points : PointsToMap) (changed : QVar) (delta : ObjSet) (v : VarId) : ObjSet :=
  if v = changed.item then delta else points.get (.var ⟨changed.context, v⟩)

/-- Looking at a variable changes nothing. -/
theorem seenIn_ok {changed : QVar} {delta os : ObjSet} {v : VarId}
    (h : (seenIn changed delta v).run env s = .ok os t) :
    t = s ∧ os = seen s.pointsTo changed delta v := by
  unfold seenIn at h
  unfold seen
  split at h
  · rename_i hv
    obtain ⟨rfl, rfl⟩ := pure_eq_ok.1 h
    exact ⟨rfl, (if_pos hv).symm⟩
  · rename_i hv
    obtain ⟨rfl, rfl⟩ := Service.varPointsTo_eq_ok.1 h
    exact ⟨rfl, (if_neg hv).symm⟩

/-- What is seen exists. -/
theorem hasObj_of_seen {changed : QVar} {delta : ObjSet} {v : VarId} (hs : s.Rooted)
    (hdelta : ∀ o ∈ delta, s.settled.HasObj o) :
    ∀ o ∈ seen s.pointsTo changed delta v, s.settled.HasObj o := by
  unfold seen
  split
  · exact hdelta
  · exact hs _

/-- A table of stand-ins that an object was made from stays one of its kind. -/
theorem newInstance_kept {made made' : MockTable} {type : JavaType} {constructor? : Option MethodId}
    {call : ReflectiveCall}
    (h : (newInstance env made site type constructor? call).run env s = .ok made' t) :
    made'.kind = made.kind := by
  simp only [newInstance, Service.bind_eq, Service.run_bind, bind_eq_ok] at h
  obtain ⟨⟨i, table⟩, u, hmake, _, _, _, _, _, _, h⟩ := h
  have htable : made' = table := by
    cases constructor? with
    | none => exact (pure_eq_ok.1 h).1.symm
    | some m =>
        simp only [Service.run_bind, bind_eq_ok] at h
        obtain ⟨_, _, _, _, _, _, _, _, _, h⟩ := h
        exact (pure_eq_ok.1 h).1.symm
  rw [htable]
  exact MockTable.getOrCreate_kept hmake

/-- Making an object at a call site keeps to the rules; the object is made and its constructor
is run. -/
theorem newInstance_ok {made made' : MockTable} {type : JavaType} {constructor? : Option MethodId}
    {call : ReflectiveCall}
    (h : (newInstance env made site type constructor? call).run env s = .ok made' t)
    (hempty : s.contexts.Has emptyContext) (hsite : s.settled.Acting env.program site)
    (hmade : made.Denotes env.program s.settled) :
    s.Evolves env.program (PluginRule env) t ∧ made'.Denotes env.program t.settled ∧
      (made.kind = .reflective → Instantiated env t.expected site type constructor? call) := by
  simp only [newInstance, Service.bind_eq, Service.run_bind, bind_eq_ok] at h
  obtain ⟨⟨i, table⟩, u, hmake, c, v, hheap, _, w, hassign, h⟩ := h
  obtain ⟨hsu, _, htable, hi⟩ := MockTable.getOrCreate_ok hmake hmade
  have hu := hsu.extends.settled
  obtain ⟨huv, hselects, hc⟩ := Service.heapContext_ok hheap (hempty.of_grows hu.contexts)
    (hsite.mono hu).context
  have hv := hu.trans huv.extends.settled
  have hobject : v.settled.HasObj ⟨c, i⟩ := ⟨hc, _, huv.accretes.heap _ _ hi⟩
  obtain ⟨hvw, hresult⟩ := Service.forM_addResult_ok hassign (hsite.mono hv) hobject
  have hw := hv.trans hvw.extends.settled
  have huw := (huv.trans hvw).extends.settled
  -- what is there before the constructor is run stays there
  have hmakes : ∀ {z : Solver}, w.Evolves env.program (PluginRule env) z →
      (∀ m ∈ constructor?, z.expected.RunsOn env site ⟨c, i⟩ m (.reflective call)) →
      made.kind = .reflective → Instantiated env z.expected site type constructor? call := by
    intro z hwz hruns hk
    have hz := (hvw.trans hwz).extends.settled.trans (Solver.settled_le_expected z)
    refine ⟨c, i, hselects.mono (hsite.mono hv).context hz, ?_, ?_, hruns⟩
    · rw [← hk]
      exact hz.heap _ _ (huv.accretes.heap _ _ hi)
    · exact fun r hr => hwz.extends.expected.points (hresult r hr)
  cases constructor? with
  | none =>
      obtain ⟨rfl, rfl⟩ := pure_eq_ok.1 h
      exact ⟨(hsu.trans huv).trans hvw, htable.mono huw, hmakes (.refl _) (by simp)⟩
  | some m =>
      simp only [Service.run_bind, bind_eq_ok] at h
      obtain ⟨c', x, hselect, _, y, hthis, _, z, hcall, h⟩ := h
      obtain ⟨rfl, rfl⟩ := pure_eq_ok.1 h
      obtain ⟨hwz, hruns⟩ := Service.runsOn_ok hselect hthis hcall (hempty.of_grows hw.contexts)
        (hsite.mono hw) (hobject.mono hvw.extends.settled) (by simp)
      exact ⟨((hsu.trans huv).trans hvw).trans hwz,
        htable.mono (huw.trans hwz.extends.settled), hmakes hwz fun _ hm => by
          obtain rfl := Option.some.inj hm
          exact hruns⟩

/-- Invoking a method keeps to the rules; the method is run, on every receiver if it is not
static. -/
theorem invokeMethod_ok {target : MethodId} {receivers : ObjSet} {args : Option VarId} {x : Unit}
    (h : (invokeMethod env site target receivers args).run env s = .ok x t)
    (hempty : s.contexts.Has emptyContext) (hsite : s.settled.Acting env.program site)
    (hreceivers : ∀ o ∈ receivers, s.settled.HasObj o) :
    s.Evolves env.program (PluginRule env) t ∧ InvokedStatic env t.expected site target args ∧
      ∀ o ∈ receivers, InvokedOn env t.expected site target args o := by
  simp only [invokeMethod] at h
  split at h
  · rename_i hconstructor
    obtain ⟨_, rfl⟩ := pure_eq_ok.1 h
    exact ⟨.refl _, fun hc => absurd (hconstructor.symm.trans hc) (by simp),
      fun _ _ hc => absurd (hconstructor.symm.trans hc) (by simp)⟩
  · split at h
    · rename_i hstatic
      simp only [Service.bind_eq, Service.run_bind, bind_eq_ok] at h
      obtain ⟨c, u, hselect, hcall⟩ := h
      obtain ⟨hst, hruns⟩ := Service.runs_ok hselect hcall hempty hsite (by simp) (by simp)
      exact ⟨hst, fun _ _ => hruns, fun _ _ _ hs => absurd (hstatic.symm.trans hs) (by simp)⟩
    · rename_i hstatic
      suffices hboth : s.Evolves env.program (PluginRule env) t ∧
          ∀ o ∈ receivers, InvokedOn env t.expected site target args o from
        ⟨hboth.1, fun _ hs => absurd hs hstatic, hboth.2⟩
      refine Service.achieves_forM (E := fun o k => InvokedOn env k site target args o) h ?_ ?_
      · intro o ho u v hsu huv hinvoked
        have hu := hsu.extends.settled.trans (Solver.settled_le_expected u)
        exact hinvoked.mono huv.extends.expected (hsite.mono hu).context
          ((hreceivers o ho).mono hu)
      · intro o ho u v hsu huv
        have hu := hsu.extends.settled
        have hobj := (hreceivers o ho).mono hu
        simp only [Service.bind_eq, Service.run_bind, bind_eq_ok, Service.obj_eq_ok] at huv
        obtain ⟨_, _, ⟨rfl, rfl⟩, huv⟩ := huv
        split at huv
        · rename_i hnone
          obtain ⟨_, rfl⟩ := pure_eq_ok.1 huv
          exact ⟨.refl _, fun _ _ m hm => absurd (hnone.symm.trans hm) (by simp)⟩
        · rename_i m hm
          simp only [Service.run_bind, bind_eq_ok] at huv
          obtain ⟨c, w, hselect, _, y, hthis, hcall⟩ := huv
          obtain ⟨huv, hruns⟩ := Service.runsOn_ok hselect hthis hcall
            (hempty.of_grows hu.contexts) (hsite.mono hu) hobj (by simp)
          refine ⟨huv, fun _ _ m' hm' => ?_⟩
          rw [Heap.get_of_grows hobj.2 huv.extends.expected.heap] at hm'
          obtain rfl := Option.some.inj (hm.symm.trans hm')
          exact hruns

/-- A stand-in under the empty heap context may reach the result of a call. -/
theorem presented_ok (site : QSite) {m : MockObj} {i : ObjId} {v : VarId} {u : Solver}
    {x : Unit} (hmock : (Service.mock m).run env s = .ok i u)
    (hadd : (Service.addVarObj site.context v ⟨emptyContext, i⟩).run env u = .ok x t)
    (hempty : s.contexts.Has emptyContext) (hsite : s.settled.Acting env.program site)
    (hv : v ∈ (env.program.invoke site.item).result) :
    s.Evolves env.program (PluginRule env) t ∧ Presented env t.expected site m := by
  obtain ⟨hsu, hi⟩ := Service.mock_ok hmock
  have hu := hsu.extends.settled
  obtain ⟨hut, howes⟩ := Service.addResult_ok site hadd (hsite.mono hu) hv
    ⟨hempty.of_grows hu.contexts, _, hi⟩
  refine ⟨hsu.trans hut, ?_⟩
  intro v' hv'
  obtain rfl := Option.some.inj (hv.symm.trans hv')
  exact ⟨i, hut.accretes.heap _ _ hi, howes⟩

/-! ## Classes and constructors -/

namespace ClassModel

/-- What a call asks for of an object that its base refers to is at its result, under the
empty heap context. -/
def Yielded (env : Setting) (k : View) (site : QSite) (api : Api) (o : QObj) : Prop :=
  ∀ result ∈ (env.program.invoke site.item).result,
    ∀ made ∈ yields env.program api (k.heap.get o.item),
      ∃ i, k.heap.get? i = some made.obj ∧
        k.points (varPointer site.context result) ⟨emptyContext, i⟩

/-- What was yielded on an object stays yielded. -/
theorem Yielded.mono {api : Api} {o : QObj} (h : Yielded env k site api o) (ho : k.HasObj o)
    (hle : k.Le l) : Yielded env l site api o := by
  intro result hresult made hmade
  rw [Heap.get_of_grows ho.2 hle.heap] at hmade
  obtain ⟨i, hi, hpoints⟩ := h result hresult made hmade
  exact ⟨i, hle.heap _ _ hi, hle.points hpoints⟩

/-- Each of several stand-ins has an id. -/
private theorem mocks_ok {ms : List MockObj} {is : List ObjId}
    (h : (ms.mapM Service.mock).run env s = .ok is t) :
    s.Evolves env.program (PluginRule env) t ∧ (∀ i ∈ is, t.heap.Has i) ∧
      ∀ m ∈ ms, ∃ i ∈ is, t.heap.get? i = some m.obj := by
  induction ms generalizing s is with
  | nil =>
      obtain ⟨rfl, rfl⟩ := pure_eq_ok.1 h
      exact ⟨.refl _, by simp, by simp⟩
  | cons m ms ih =>
      simp only [List.mapM_cons, Service.bind_eq, Service.run_bind, bind_eq_ok] at h
      obtain ⟨i, u, hmock, js, v, hrest, h⟩ := h
      obtain ⟨rfl, rfl⟩ := pure_eq_ok.1 h
      obtain ⟨hsu, hi⟩ := Service.mock_ok hmock
      obtain ⟨huv, hjs, hall⟩ := ih hrest
      have hi' := huv.accretes.heap _ _ hi
      refine ⟨hsu.trans huv, ?_, ?_⟩
      · intro j hj
        rcases List.mem_cons.1 hj with rfl | hj
        · exact ⟨_, hi'⟩
        · exact hjs j hj
      · intro m' hm'
        rcases List.mem_cons.1 hm' with rfl | hm'
        · exact ⟨i, List.mem_cons_self, hi'⟩
        · obtain ⟨j, hj, hget⟩ := hall m' hm'
          exact ⟨j, List.mem_cons_of_mem _ hj, hget⟩

/-- A call yields what it asks for of one object. -/
private theorem yield_ok {api : Api} {o : QObj} {c : ContextId} {result : VarId}
    (h : (do
      let receiver ← Service.obj o.item
      let metas ← (yields env.program api receiver).mapM Service.mock
      metas.forM fun made => Service.addVarObj c result ⟨emptyContext, made⟩ :
        Service Unit).run env s = .ok ⟨⟩ t) :
    ∀ made ∈ yields env.program api (s.heap.get o.item),
      ∃ i, t.heap.get? i = some made.obj ∧ t.Owes (varPointer c result) ⟨emptyContext, i⟩ := by
  simp only [Service.bind_eq, Service.run_bind, bind_eq_ok, Service.obj_eq_ok,
    Service.run_forM] at h
  obtain ⟨_, _, ⟨rfl, rfl⟩, is, u, hmocks, h⟩ := h
  obtain ⟨hut, hloop⟩ := forM_rel (R := Solver.Accretes) .refl .trans h
    fun _ _ _ _ _ hvw => (Service.evolves hvw).accretes
  intro made hmade
  obtain ⟨i, hi, hget⟩ := (mocks_ok hmocks).2.2 made hmade
  obtain ⟨v, w, _, hvw, hwt⟩ := hloop i hi
  refine ⟨i, hut.heap _ _ hget, hwt.extends.expected.points ?_⟩
  simp only [Service.addVarObj, Service.run_addPointsTo, modify_eq_ok] at hvw
  rw [hvw]
  exact Solver.owes_addObj v _ _

/-- A call yields what it asks for of every object of a set. -/
private theorem yieldAll_ok {site : InvokeId} {api : Api} {c : ContextId} {os : ObjSet}
    (h : ((env.program.invoke site).result.forM fun result => os.toList.forM fun o => do
      let receiver ← Service.obj o.item
      let metas ← (yields env.program api receiver).mapM Service.mock
      metas.forM fun made => Service.addVarObj c result ⟨emptyContext, made⟩ :
        Service Unit).run env s = .ok ⟨⟩ t)
    (hos : ∀ o ∈ os, s.settled.HasObj o) :
    ∀ o ∈ os, Yielded env t.expected ⟨c, site⟩ api o := by
  have hst := (Service.evolves h).accretes
  rcases Service.option_forM_cases h with ⟨hnone, _⟩ | ⟨result, hresult, h⟩
  · intro o _ result hmem
    exact absurd (hnone.symm.trans hmem) (by simp)
  · rw [Service.run_forM] at h
    obtain ⟨_, hall⟩ := forM_rel (R := Solver.Accretes) .refl .trans h
      fun _ _ _ _ _ huv => (Service.evolves huv).accretes
    intro o ho result' hmem made hmade
    obtain rfl := Option.some.inj (hresult.symm.trans hmem)
    obtain ⟨u, v, hsu, huv, hvt⟩ := hall o ho
    have hsame : u.heap.get o.item = t.expected.heap.get o.item := by
      rw [Heap.get_of_grows (hos o ho).2 hsu.heap,
        Heap.get_of_grows (hos o ho).2 hst.extends.expected.heap]
    obtain ⟨i, hi, howes⟩ := yield_ok huv made (hsame ▸ hmade)
    exact ⟨i, hvt.heap _ _ hi, hvt.extends.expected.points howes⟩

/-- When a variable refers to more, every call that it is looked at for yields what it asks for
of the objects that are new. -/
theorem yielded_of_grown {m : ClassModel} {v : QVar} {delta : ObjSet} {x : Unit}
    (h : (m.grown env v delta).run env s = .ok x t) (hdelta : ∀ o ∈ delta, s.settled.HasObj o) :
    ∀ site api, (v.item, (site, api)) ∈ m.relevant.pairs →
      ∀ o ∈ delta, Yielded env t.expected ⟨v.context, site⟩ api o := by
  simp only [grown, Service.run_forM] at h
  obtain ⟨_, hall⟩ := forM_rel (R := Solver.Accretes) .refl .trans h
    fun _ _ _ _ _ huw => (Service.evolves huw).accretes
  intro site api hmem o ho
  obtain ⟨u, w, hsu, huw, hwt⟩ := hall (site, api) (Waitlist.mem_get.2 hmem)
  have hdelta' : ∀ o ∈ delta, u.settled.HasObj o :=
    fun o ho => (hdelta o ho).mono hsu.extends.settled
  have hw := (Service.evolves huw).accretes.extends.settled
  exact (yieldAll_ok huw hdelta' o ho).mono
    (((hdelta' o ho).mono hw).mono (Solver.settled_le_expected w)) hwt.extends.expected

/-- In doing so the model keeps to the rules. -/
theorem grown_ok {m : ClassModel} {v : QVar} {delta : ObjSet} {x : Unit}
    (h : (m.grown env v delta).run env s = .ok x t) (hempty : s.contexts.Has emptyContext)
    (hv : s.settled.Refers v) (hm : Mentioned env.program m.relevant) :
    s.Evolves env.program (PluginRule env) t := by
  refine Service.evolves_forM h ?_
  rintro ⟨site, api⟩ hmem u w hsu huw
  have hsite := hm.acting hv hmem
  refine Service.evolves_option_forM huw fun result hresult huw => Service.evolves_forM huw ?_
  intro o _ y z huy hyz
  simp only [Service.bind_eq, Service.run_bind, bind_eq_ok, Service.obj_eq_ok] at hyz
  obtain ⟨_, _, ⟨rfl, rfl⟩, is, y', hmocks, hadds⟩ := hyz
  obtain ⟨hyy', his, _⟩ := mocks_ok hmocks
  have hy' := (hsu.trans (huy.trans hyy')).extends.settled
  refine hyy'.trans (Service.evolves_forM hadds ?_)
  intro i hi a b hya hab
  have ha := hy'.trans hya.extends.settled
  exact (Service.addResult_ok ⟨v.context, site⟩ hab (hsite.mono ha) hresult
    ⟨hempty.of_grows ha.contexts, (his i hi).of_grows hya.accretes.heap⟩).1

end ClassModel

/-! ## Classes and methods by name -/

namespace StringModel

/-- If an object is the name of a declared class, the meta object of the class is at the result
of a call. -/
def ClassNamed (env : Setting) (k : View) (site : QSite) (o : QObj) : Prop :=
  ∀ c, (k.heap.get o.item).string?.filter env.program.hasClass = some c →
    Presented env k site (classMeta (.cls c))

/-- If an object denotes a class and another one is a string constant, the meta objects of the
methods that the constant names in the class are at the result of a call. -/
def MethodsNamed (env : Setting) (k : View) (site : QSite) (api : Api) (c o : QObj) : Prop :=
  ∀ className, denotedClass? (k.heap.get c.item) = some className →
    ∀ name, (k.heap.get o.item).string? = some name →
      ∀ m ∈ methodsFor env.program api className name, Presented env k site (methodMeta m)

/-- The class that a text names stays found. -/
theorem ClassNamed.mono {o : QObj} (h : ClassNamed env k site o) (ho : k.HasObj o)
    (hle : k.Le l) : ClassNamed env l site o := by
  intro c hc
  rw [Heap.get_of_grows ho.2 hle.heap] at hc
  exact (h c hc).mono hle

/-- The methods that a class and a text name stay found. -/
theorem MethodsNamed.mono {api : Api} {c o : QObj} (h : MethodsNamed env k site api c o)
    (hc : k.HasObj c) (ho : k.HasObj o) (hle : k.Le l) : MethodsNamed env l site api c o := by
  intro className hclass name hname m hm
  rw [Heap.get_of_grows hc.2 hle.heap] at hclass
  rw [Heap.get_of_grows ho.2 hle.heap] at hname
  exact (h className hclass name hname m hm).mono hle

/-- Looking a class up by name keeps to the rules; the classes that are named are found. -/
theorem lookUpClass_ok {v : QVar} {site : InvokeId} {names : ObjSet} {x : Unit}
    (h : (lookUpClass env v site names).run env s = .ok x t)
    (hempty : s.contexts.Has emptyContext)
    (hsite : s.settled.Acting env.program ⟨v.context, site⟩)
    (hnames : ∀ o ∈ names, s.settled.HasObj o) :
    s.Evolves env.program (PluginRule env) t ∧
      ∀ o ∈ names, ClassNamed env t.expected ⟨v.context, site⟩ o := by
  rcases Service.option_forM_cases h with ⟨hnone, rfl⟩ | ⟨result, hresult, h⟩
  · exact ⟨.refl _, fun _ _ _ _ r hr => absurd (hnone.symm.trans hr) (by simp)⟩
  · refine Service.achieves_forM (E := fun o k => ClassNamed env k ⟨v.context, site⟩ o) h ?_ ?_
    · intro o ho u w hsu huw hnamed
      exact hnamed.mono ((hnames o ho).mono
        (hsu.extends.settled.trans (Solver.settled_le_expected u))) huw.extends.expected
    · intro o ho u w hsu huw
      have hobj := (hnames o ho).mono hsu.extends.settled
      simp only [Service.bind_eq, Service.run_bind, bind_eq_ok, Service.obj_eq_ok] at huw
      obtain ⟨_, _, ⟨rfl, rfl⟩, huw⟩ := huw
      split at huw
      · rename_i hnone
        obtain ⟨_, rfl⟩ := pure_eq_ok.1 huw
        exact ⟨.refl _, fun c hc => absurd (hnone.symm.trans hc) (by simp)⟩
      · rename_i c hc
        simp only [Service.run_bind, bind_eq_ok] at huw
        obtain ⟨i, y, hmock, hadd⟩ := huw
        obtain ⟨huw, hpresented⟩ := presented_ok ⟨v.context, site⟩ hmock hadd
          (hempty.of_grows hsu.accretes.contexts) (hsite.mono hsu.extends.settled) hresult
        refine ⟨huw, fun c' hc' => ?_⟩
        rw [Heap.get_of_grows hobj.2 huw.extends.expected.heap] at hc'
        obtain rfl := Option.some.inj (hc.symm.trans hc')
        exact hpresented

/-- Every method that a string constant names in a class is found. -/
private theorem presentAll_ok (site : QSite) {ms : List MethodId} {result : VarId} {x : Unit}
    (h : (ms.forM fun m => do
      let made ← Service.mock (methodMeta m)
      Service.addVarObj site.context result ⟨emptyContext, made⟩ : Service Unit).run env s =
        .ok x t)
    (hempty : s.contexts.Has emptyContext) (hsite : s.settled.Acting env.program site)
    (hresult : result ∈ (env.program.invoke site.item).result) :
    s.Evolves env.program (PluginRule env) t ∧
      ∀ m ∈ ms, Presented env t.expected site (methodMeta m) := by
  refine Service.achieves_forM (E := fun m k => Presented env k site (methodMeta m)) h ?_ ?_
  · exact fun _ _ _ _ _ huv hpresented => hpresented.mono huv.extends.expected
  · intro m _ u v hsu huv
    simp only [Service.bind_eq, Service.run_bind, bind_eq_ok] at huv
    obtain ⟨i, w, hmock, hadd⟩ := huv
    exact presented_ok site hmock hadd (hempty.of_grows hsu.accretes.contexts)
      (hsite.mono hsu.extends.settled) hresult

/-- Every method that is named in one class may reach the result of a call. -/
private theorem lookUpEach_ok (site : QSite) {api : Api} {className : String} {result : VarId}
    {names : ObjSet} {x : Unit}
    (h : (names.toList.forM fun o => do
      let constant ← Service.obj o.item
      constant.string?.forM fun methodName =>
        (methodsFor env.program api className methodName).forM fun m => do
          let made ← Service.mock (methodMeta m)
          Service.addVarObj site.context result ⟨emptyContext, made⟩ : Service Unit).run
      env s = .ok x t)
    (hempty : s.contexts.Has emptyContext) (hsite : s.settled.Acting env.program site)
    (hresult : result ∈ (env.program.invoke site.item).result)
    (hnames : ∀ o ∈ names, s.settled.HasObj o) :
    s.Evolves env.program (PluginRule env) t ∧ ∀ o ∈ names, ∀ name,
      (t.heap.get o.item).string? = some name →
        ∀ m ∈ methodsFor env.program api className name,
          Presented env t.expected site (methodMeta m) := by
  refine Service.achieves_forM (E := fun o k => ∀ name,
    (k.heap.get o.item).string? = some name → ∀ m ∈ methodsFor env.program api className name,
      Presented env k site (methodMeta m)) h ?_ ?_
  · intro o ho u v hsu huv hpresented name hname m hm
    rw [Heap.get_of_grows ((hnames o ho).mono hsu.extends.settled).2
      huv.extends.expected.heap] at hname
    exact (hpresented name hname m hm).mono huv.extends.expected
  · intro o ho u v hsu huv
    have hobj := (hnames o ho).mono hsu.extends.settled
    simp only [Service.bind_eq, Service.run_bind, bind_eq_ok, Service.obj_eq_ok] at huv
    obtain ⟨_, _, ⟨rfl, rfl⟩, huv⟩ := huv
    rcases Service.option_forM_cases huv with ⟨hnone, rfl⟩ | ⟨name, hname, huv⟩
    · exact ⟨.refl _, fun name hname => absurd (hnone.symm.trans hname) (by simp)⟩
    · obtain ⟨huv, hall⟩ := presentAll_ok site huv (hempty.of_grows hsu.accretes.contexts)
        (hsite.mono hsu.extends.settled) hresult
      refine ⟨huv, fun name' hname' => ?_⟩
      rw [Heap.get_of_grows hobj.2 huv.extends.expected.heap] at hname'
      obtain rfl := Option.some.inj (hname.symm.trans hname')
      exact hall

/-- Every method that is named in a class may reach the result of a call. -/
private theorem lookUpIn_ok (site : QSite) {api : Api} {result : VarId}
    {classes names : ObjSet} {x : Unit}
    (h : (classes.toList.forM fun c' => do
      let classObj ← Service.obj c'.item
      (denotedClass? classObj).forM fun className =>
        names.toList.forM fun o => do
          let constant ← Service.obj o.item
          constant.string?.forM fun methodName =>
            (methodsFor env.program api className methodName).forM fun m => do
              let made ← Service.mock (methodMeta m)
              Service.addVarObj site.context result ⟨emptyContext, made⟩ : Service Unit).run
      env s = .ok x t)
    (hempty : s.contexts.Has emptyContext) (hsite : s.settled.Acting env.program site)
    (hresult : result ∈ (env.program.invoke site.item).result)
    (hclasses : ∀ o ∈ classes, s.settled.HasObj o) (hnames : ∀ o ∈ names, s.settled.HasObj o) :
    s.Evolves env.program (PluginRule env) t ∧
      ∀ c ∈ classes, ∀ o ∈ names, MethodsNamed env t.expected site api c o := by
  refine Service.achieves_forM
    (E := fun c k => ∀ o ∈ names, MethodsNamed env k site api c o) h ?_ ?_
  · intro c hc u v hsu huv hnamed o ho
    have hu := hsu.extends.settled.trans (Solver.settled_le_expected u)
    exact (hnamed o ho).mono ((hclasses c hc).mono hu) ((hnames o ho).mono hu)
      huv.extends.expected
  · intro c hc u v hsu huv
    have hobj := (hclasses c hc).mono hsu.extends.settled
    simp only [Service.bind_eq, Service.run_bind, bind_eq_ok, Service.obj_eq_ok] at huv
    obtain ⟨_, _, ⟨rfl, rfl⟩, huv⟩ := huv
    rcases Service.option_forM_cases huv with ⟨hnone, rfl⟩ | ⟨className, hclass, huv⟩
    · exact ⟨.refl _, fun _ _ className hclass => absurd (hnone.symm.trans hclass) (by simp)⟩
    · obtain ⟨huv, hall⟩ := lookUpEach_ok site huv (hempty.of_grows hsu.accretes.contexts)
        (hsite.mono hsu.extends.settled) hresult
        fun o ho => (hnames o ho).mono hsu.extends.settled
      refine ⟨huv, fun o ho className' hclass' => ?_⟩
      rw [Heap.get_of_grows hobj.2 huv.extends.expected.heap] at hclass'
      obtain rfl := Option.some.inj (hclass.symm.trans hclass')
      exact hall o ho

/-- The classes and the names that are paired when a variable has changed. -/
def lookedUp (points : PointsToMap) (v : QVar) (delta : ObjSet) (base n : VarId) :
    ObjSet × ObjSet :=
  (if base = v.item ∧ n = v.item then points.get (.var v) else seen points v delta base,
    seen points v delta n)

/-- The objects among which methods are looked up are on the heap. -/
theorem hasObj_of_lookedUp {v : QVar} {delta : ObjSet} (base n : VarId) (hs : s.Rooted)
    (hdelta : ∀ o ∈ delta, s.settled.HasObj o) :
    (∀ o ∈ (lookedUp s.pointsTo v delta base n).1, s.settled.HasObj o) ∧
      ∀ o ∈ (lookedUp s.pointsTo v delta base n).2, s.settled.HasObj o := by
  refine ⟨?_, hasObj_of_seen hs hdelta⟩
  unfold lookedUp
  split
  · exact hs _
  · exact hasObj_of_seen hs hdelta

/-- What a call for classes or methods by name asks for when a variable has changed is found. -/
def Found (env : Setting) (k : View) (points : PointsToMap) (v : QVar) (delta : ObjSet)
    (site : InvokeId) : Api → Prop
  | .forName | .loadClass => ∀ o ∈ delta, ClassNamed env k ⟨v.context, site⟩ o
  | api => ∀ base n, (env.program.invoke site).base = some base →
      (env.program.invoke site).args.head? = some n →
        ∀ c ∈ (lookedUp points v delta base n).1, ∀ o ∈ (lookedUp points v delta base n).2,
          MethodsNamed env k ⟨v.context, site⟩ api c o

/-- What a call has found for a change of its variable stays found. -/
theorem Found.mono {v : QVar} {delta : ObjSet} {site : InvokeId} {api : Api}
    (h : Found env k s.pointsTo v delta site api) (hs : s.Rooted)
    (hdelta : ∀ o ∈ delta, s.settled.HasObj o) (hsk : s.settled.Le k) (hle : k.Le l) :
    Found env l s.pointsTo v delta site api := by
  have hmethods : ∀ {api}, (∀ base n, (env.program.invoke site).base = some base →
      (env.program.invoke site).args.head? = some n →
        ∀ c ∈ (lookedUp s.pointsTo v delta base n).1, ∀ o ∈ (lookedUp s.pointsTo v delta base n).2,
          MethodsNamed env k ⟨v.context, site⟩ api c o) → ∀ base n,
      (env.program.invoke site).base = some base →
      (env.program.invoke site).args.head? = some n →
        ∀ c ∈ (lookedUp s.pointsTo v delta base n).1, ∀ o ∈ (lookedUp s.pointsTo v delta base n).2,
          MethodsNamed env l ⟨v.context, site⟩ api c o := by
    intro api h base n hbase hn c hc o ho
    obtain ⟨hclasses, hnames⟩ := hasObj_of_lookedUp base n hs hdelta
    exact (h base n hbase hn c hc o ho).mono ((hclasses c hc).mono hsk) ((hnames o ho).mono hsk) hle
  cases api with
  | forName | loadClass => exact fun o ho => (h o ho).mono ((hdelta o ho).mono hsk) hle
  | getClass | getConstructor | getDeclaredConstructor | getMethod | getDeclaredMethod
  | classNewInstance | constructorNewInstance | methodInvoke => exact hmethods h

/-- Looking a method up by name keeps to the rules; the methods that are named are found. -/
theorem lookUpMethod_ok {v : QVar} {delta : ObjSet} {site : InvokeId} {api : Api} {x : Unit}
    (h : (lookUpMethod env v delta site api).run env s = .ok x t) (hg : s.Grounded)
    (hsite : s.settled.Acting env.program ⟨v.context, site⟩)
    (hdelta : ∀ o ∈ delta, s.settled.HasObj o) :
    s.Evolves env.program (PluginRule env) t ∧
      ∀ base n, (env.program.invoke site).base = some base →
        (env.program.invoke site).args.head? = some n →
          ∀ c ∈ (lookedUp s.pointsTo v delta base n).1,
            ∀ o ∈ (lookedUp s.pointsTo v delta base n).2,
              MethodsNamed env t.expected ⟨v.context, site⟩ api c o := by
  simp only [lookUpMethod] at h
  split at h
  · rename_i base n rest result hbase hargs hresult
    obtain ⟨hclasses, hnames⟩ := hasObj_of_lookedUp (v := v) base n hg.points hdelta
    -- in either case the loops go through what is paired
    suffices hboth : s.Evolves env.program (PluginRule env) t ∧
        ∀ c ∈ (lookedUp s.pointsTo v delta base n).1,
          ∀ o ∈ (lookedUp s.pointsTo v delta base n).2,
            MethodsNamed env t.expected ⟨v.context, site⟩ api c o by
      refine ⟨hboth.1, ?_⟩
      intro base' n' hbase' hn'
      obtain rfl := Option.some.inj (hbase.symm.trans hbase')
      rw [hargs] at hn'
      obtain rfl := Option.some.inj hn'
      exact hboth.2
    split at h
    · rename_i hsame
      simp only [Service.bind_eq, Service.run_bind, bind_eq_ok, Service.varPointsTo_eq_ok] at h
      obtain ⟨_, _, ⟨rfl, rfl⟩, names, u, hseen, h⟩ := h
      obtain ⟨rfl, rfl⟩ := seenIn_ok hseen
      rw [lookedUp, if_pos hsame] at hclasses ⊢
      exact lookUpIn_ok ⟨v.context, site⟩ h hg.empty hsite hresult hclasses hnames
    · rename_i hsame
      simp only [Service.bind_eq, Service.run_bind, bind_eq_ok] at h
      obtain ⟨classes, u, hbases, names, w, hseen, h⟩ := h
      obtain ⟨rfl, rfl⟩ := seenIn_ok hbases
      obtain ⟨rfl, rfl⟩ := seenIn_ok hseen
      rw [lookedUp, if_neg hsame] at hclasses ⊢
      exact lookUpIn_ok ⟨v.context, site⟩ h hg.empty hsite hresult hclasses hnames
  · rename_i hnone
    obtain ⟨_, rfl⟩ := pure_eq_ok.1 h
    refine ⟨.refl _, ?_⟩
    intro base n hbase hn c _ o _ className _ name _ m _ result hresult
    obtain ⟨rest, hargs⟩ := List.head?_eq_some_iff.1 hn
    exact (hnone base n rest result hbase hargs hresult).elim

/-- All calls that watch a variable look up what they can when the variable changes. -/
theorem grown_ok {m : StringModel} {v : QVar} {delta : ObjSet} {x : Unit}
    (h : (m.grown env v delta).run env s = .ok x t) (hg : s.Grounded)
    (hv : s.settled.Refers v) (hdelta : ∀ o ∈ delta, s.settled.HasObj o)
    (hm : Mentioned env.program m.relevant) :
    s.Evolves env.program (PluginRule env) t ∧
      ∀ site api, (v.item, (site, api)) ∈ m.relevant.pairs →
        Found env t.expected s.pointsTo v delta site api := by
  suffices hboth : s.Evolves env.program (PluginRule env) t ∧
      ∀ x ∈ m.relevant.get v.item, Found env t.expected s.pointsTo v delta x.1 x.2 from
    ⟨hboth.1, fun site api hmem => hboth.2 (site, api) (Waitlist.mem_get.2 hmem)⟩
  refine Service.achieves_forM (E := fun x k => Found env k s.pointsTo v delta x.1 x.2) h ?_ ?_
  · intro x _ u w hsu huw hfound
    exact hfound.mono hg.points hdelta
      (hsu.extends.settled.trans (Solver.settled_le_expected u)) huw.extends.expected
  · rintro ⟨site, api⟩ hmem u w hsu huw
    have hg' := hg.of_accretes hsu.accretes
    have hsite := (hm.acting hv hmem).mono hsu.extends.settled
    have hdelta' : ∀ o ∈ delta, u.settled.HasObj o :=
      fun o ho => (hdelta o ho).mono hsu.extends.settled
    rw [← hsu.accretes.pointsTo]
    cases api with
    | forName | loadClass => exact lookUpClass_ok huw hg'.empty hsite hdelta'
    | getClass | getConstructor | getDeclaredConstructor | getMethod | getDeclaredMethod
    | classNewInstance | constructorNewInstance | methodInvoke =>
        exact lookUpMethod_ok huw hg' hsite hdelta'

end StringModel

end PointsTo.Reflection
