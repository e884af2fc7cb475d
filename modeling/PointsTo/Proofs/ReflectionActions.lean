import PointsTo.Proofs.ReflectionCalls

/-!
# What reflective actions do

The model of actions makes objects and invokes methods, and the log has covered call sites do
the same.  Both keep to the rules of the plugins, and their tables of stand-ins hold the objects
that they say.

Main results:

- {lit}`ActionModel.Acted`, and theorem {lit}`ActionModel.grown_ok`: what the model of actions does
  when a variable refers to more.
- {lit}`Claim.Done`, and theorem {lit}`LogModel.reached_ok`: what covered call sites do when their
  method is reachable; {lit}`LogModel.grown_ok`: what they do when a receiver refers to more.
-/

namespace PointsTo.Reflection

variable {env : Setting} {s t : Solver} {k l : View} {site : QSite}

namespace ActionModel

/-! ## Making objects -/

/-- What a call makes of an object that its base refers to, if it makes something: an object of
a type, with a constructor that is run along an edge. -/
def product? (p : Program) (site : InvokeId) (api : Api) (o : Obj) :
    Option (JavaType × Option MethodId × ReflectiveCall) :=
  match api with
  | .classNewInstance => ((denotedClass? o).filter p.hasClass).map fun c =>
      (.cls c, p.defaultConstructor? c, { api := .classNewInstance, args := none })
  | .constructorNewInstance => (denotedConstructor? o).map fun m =>
      ((p.method m).declaringType, some m,
        { api := .constructorNewInstance, args := (p.invoke site).args.head? })
  | _ => none

/-- The two ways in which a call makes an object: of a class that it is asked for, or by a
constructor. -/
inductive Produces (p : Program) (site : InvokeId) (o : Obj) :
    Api → JavaType → Option MethodId → ReflectiveCall → Prop
  | ofClass {c} (hc : denotedClass? o = some c) (hclass : p.hasClass c = true) :
      Produces p site o .classNewInstance (.cls c) (p.defaultConstructor? c)
        { api := .classNewInstance, args := none }
  | byConstructor {m} (hm : denotedConstructor? o = some m) :
      Produces p site o .constructorNewInstance (p.method m).declaringType (some m)
        { api := .constructorNewInstance, args := (p.invoke site).args.head? }

/-- What a call makes, it makes in one of the two ways. -/
theorem produces_of_product? {p : Program} {site : InvokeId} {api : Api} {o : Obj}
    {type : JavaType} {constructor? : Option MethodId} {call : ReflectiveCall}
    (h : product? p site api o = some (type, constructor?, call)) :
    Produces p site o api type constructor? call := by
  unfold product? at h
  split at h
  · obtain ⟨c, hc, heq⟩ := Option.map_eq_some_iff.1 h
    cases heq
    obtain ⟨hc, hclass⟩ := Option.filter_eq_some_iff.1 hc
    exact .ofClass hc hclass
  · obtain ⟨m, hm, heq⟩ := Option.map_eq_some_iff.1 h
    cases heq
    exact .byConstructor hm
  · cases h

/-- An edge to the constructor of a new object is none of an invocation. -/
theorem api_of_product? {p : Program} {site : InvokeId} {api : Api} {o : Obj} {type : JavaType}
    {constructor? : Option MethodId} {call : ReflectiveCall}
    (h : product? p site api o = some (type, constructor?, call)) :
    call.api ≠ .methodInvoke := by
  cases produces_of_product? h <;> simp

/-- A call has made what it makes of an object that its base refers to. -/
def Made (env : Setting) (k : View) (site : QSite) (api : Api) (o : QObj) : Prop :=
  ∀ type constructor? call,
    product? env.program site.item api (k.heap.get o.item) = some (type, constructor?, call) →
      Instantiated env k site type constructor? call

/-- What was made of an object stays made. -/
theorem Made.mono {api : Api} {o : QObj} (h : Made env k site api o) (ho : k.HasObj o)
    (hempty : k.contexts.Has emptyContext) (hsite : k.contexts.Has site.context)
    (hle : k.Le l) : Made env l site api o := by
  intro type constructor? call hproduct
  rw [Heap.get_of_grows ho.2 hle.heap] at hproduct
  exact (h type constructor? call hproduct).mono hle hempty hsite

/-- A call makes of one object that its base refers to what it makes of it, if it is something. -/
def make (env : Setting) (site : QSite) (api : Api) (made : MockTable) (o : QObj) :
    Service MockTable := do
  let obj ← Service.obj o.item
  match product? env.program site.item api obj with
  | none => return made
  | some (type, constructor?, call) => newInstance env made site type constructor? call

/-- Objects of classes are made one by one. -/
theorem makeOfClass_eq (env : Setting) (made : MockTable) (site : QSite) (metas : ObjSet) :
    makeOfClass env made site metas =
      metas.toList.foldlM (make env site .classNewInstance) made := by
  refine congrArg (metas.toList.foldlM · made) (funext fun made => funext fun o =>
    congrArg (Service.obj o.item >>= ·) (funext fun obj => ?_))
  unfold product?
  cases (denotedClass? obj).filter env.program.hasClass <;> rfl

/-- So are objects by constructors. -/
theorem makeByConstructor_eq (env : Setting) (made : MockTable) (site : QSite)
    (metas : ObjSet) :
    makeByConstructor env made site metas =
      metas.toList.foldlM (make env site .constructorNewInstance) made := by
  refine congrArg (metas.toList.foldlM · made) (funext fun made => funext fun o =>
    congrArg (Service.obj o.item >>= ·) (funext fun obj => ?_))
  unfold product?
  cases denotedConstructor? obj <;> rfl

/-- To make something of an object is to find that there is nothing to make, or to make an instance.
-/
theorem make_cases {api : Api} {made made' : MockTable} {o : QObj}
    (h : (make env site api made o).run env s = .ok made' t) :
    (product? env.program site.item api (s.heap.get o.item) = none ∧ made' = made ∧ t = s) ∨
      ∃ type constructor? call,
        product? env.program site.item api (s.heap.get o.item) =
            some (type, constructor?, call) ∧
          (newInstance env made site type constructor? call).run env s = .ok made' t := by
  simp only [make, Service.bind_eq, Service.run_bind, bind_eq_ok, Service.obj_eq_ok] at h
  obtain ⟨_, _, ⟨rfl, rfl⟩, h⟩ := h
  split at h
  · rename_i hnone
    obtain ⟨rfl, rfl⟩ := pure_eq_ok.1 h
    exact .inl ⟨hnone, rfl, rfl⟩
  · rename_i hproduct
    exact .inr ⟨_, _, _, hproduct, h⟩

section Loop

variable {made made' : MockTable} {metas : ObjSet} {api : Api}

/-- The table of objects stays one of its kind. -/
theorem make_kept (h : (metas.toList.foldlM (make env site api) made).run env s = .ok made' t) :
    made'.kind = made.kind := by
  rw [Service.run_foldlM] at h
  refine (foldlM_rel (R := fun _ _ => True) (J := fun b _ => b.kind = made.kind)
    (fun _ => trivial) (fun _ _ => trivial) h rfl ?_).2
  intro o _ b c u w _ hb huw
  refine ⟨trivial, ?_⟩
  rcases make_cases huw with ⟨_, rfl, _⟩ | ⟨_, _, _, _, hnew⟩
  · exact hb
  · exact (newInstance_kept hnew).trans hb

/-- Making what a call makes of each of several objects keeps to the rules. -/
theorem make_ok (h : (metas.toList.foldlM (make env site api) made).run env s = .ok made' t)
    (hempty : s.contexts.Has emptyContext) (hsite : s.settled.Acting env.program site)
    (hmade : made.Denotes env.program s.settled) (hmetas : ∀ o ∈ metas, s.settled.HasObj o) :
    s.Evolves env.program (PluginRule env) t ∧ made'.Denotes env.program t.settled ∧
      (made.kind = .reflective → ∀ o ∈ metas, Made env t.expected site api o) := by
  suffices hall : s.Evolves env.program (PluginRule env) t ∧
      (made'.Denotes env.program t.settled ∧ made'.kind = made.kind) ∧
      ∀ o ∈ metas, made.kind = .reflective → Made env t.expected site api o from
    ⟨hall.1, hall.2.1.1, fun hk o ho => hall.2.2 o ho hk⟩
  refine Service.achieves_foldlM
    (J := fun b u => b.Denotes env.program u.settled ∧ b.kind = made.kind)
    (E := fun o k => made.kind = .reflective → Made env k site api o) h ⟨hmade, rfl⟩ ?_ ?_
  · intro o ho u v hsu huv hE hkind
    have hu := hsu.extends.settled.trans (Solver.settled_le_expected u)
    exact (hE hkind).mono ((hmetas o ho).mono hu) (hempty.of_grows hu.contexts)
      (hsite.mono hu).context huv.extends.expected
  · intro o ho b c u w hsu hb huw
    have hu := hsu.extends.settled
    rcases make_cases huw with ⟨hnone, rfl, rfl⟩ | ⟨type, constructor?, call, hproduct, hnew⟩
    · exact ⟨.refl _, hb, fun _ _ _ _ hp => absurd (hnone.symm.trans hp) (by simp)⟩
    · obtain ⟨huw, hdenotes, hmakes⟩ := newInstance_ok hnew (hempty.of_grows hu.contexts)
        (hsite.mono hu) hb.1
      refine ⟨huw, ⟨hdenotes, (newInstance_kept hnew).trans hb.2⟩, ?_⟩
      intro hk type' constructor' call' hproduct'
      rw [Heap.get_of_grows ((hmetas o ho).mono hu).2 huw.extends.expected.heap] at hproduct'
      cases hproduct.symm.trans hproduct'
      exact hmakes (hb.2.trans hk)

end Loop

/-! ## Invoking methods -/

/-- The meta objects and the receivers that are paired when a variable has changed. -/
def paired (points : PointsToMap) (v : QVar) (delta : ObjSet) (base : VarId) :
    Option VarId → ObjSet × ObjSet
  | none => (seen points v delta base, .empty)
  | some r =>
    if r = base then (points.get (.var v), points.get (.var v))
    else (seen points v delta base, seen points v delta r)

/-- The objects that are paired are on the heap. -/
theorem hasObj_of_paired {v : QVar} {delta : ObjSet} (base : VarId) (receiver : Option VarId)
    (hs : s.Rooted) (hdelta : ∀ o ∈ delta, s.settled.HasObj o) :
    (∀ o ∈ (paired s.pointsTo v delta base receiver).1, s.settled.HasObj o) ∧
      ∀ o ∈ (paired s.pointsTo v delta base receiver).2, s.settled.HasObj o := by
  unfold paired
  split
  · exact ⟨hasObj_of_seen hs hdelta, fun o ho => absurd ho (OrderedSet.not_mem_empty o)⟩
  · split
    · exact ⟨hs _, hs _⟩
    · exact ⟨hasObj_of_seen hs hdelta, hasObj_of_seen hs hdelta⟩

/-- Pairing changes nothing. -/
theorem pairs_ok {v : QVar} {delta : ObjSet} {base : VarId} {receiver : Option VarId}
    {r : ObjSet × ObjSet} (h : (pairs v delta base receiver).run env s = .ok r t) :
    t = s ∧ r = paired s.pointsTo v delta base receiver := by
  unfold pairs at h
  unfold paired
  split at h
  · simp only [Service.bind_eq, Service.run_bind, bind_eq_ok] at h
    obtain ⟨metas, u, hmetas, h⟩ := h
    obtain ⟨rfl, rfl⟩ := pure_eq_ok.1 h
    obtain ⟨rfl, rfl⟩ := seenIn_ok hmetas
    exact ⟨rfl, rfl⟩
  · split at h
    · rename_i hsame
      simp only [Service.bind_eq, Service.run_bind, bind_eq_ok,
        Service.varPointsTo_eq_ok] at h
      obtain ⟨_, _, ⟨rfl, rfl⟩, h⟩ := h
      obtain ⟨rfl, rfl⟩ := pure_eq_ok.1 h
      exact ⟨rfl, (if_pos hsame).symm⟩
    · rename_i hsame
      simp only [Service.bind_eq, Service.run_bind, bind_eq_ok] at h
      obtain ⟨metas, u, hmetas, receivers, w, hreceivers, h⟩ := h
      obtain ⟨rfl, rfl⟩ := pure_eq_ok.1 h
      obtain ⟨rfl, rfl⟩ := seenIn_ok hmetas
      obtain ⟨rfl, rfl⟩ := seenIn_ok hreceivers
      exact ⟨rfl, (if_neg hsame).symm⟩

/-- A call invokes the method that a meta object denotes, on some receivers if it is not
static. -/
def Invoked (env : Setting) (k : View) (site : QSite) (receivers : ObjSet) (o : QObj) : Prop :=
  ∀ m, denotedMethod? (k.heap.get o.item) = some m →
    InvokedStatic env k site m (env.program.invoke site.item).args[1]? ∧
      ∀ r ∈ receivers, InvokedOn env k site m (env.program.invoke site.item).args[1]? r

/-- Invocations that were made stay made. -/
theorem Invoked.mono {receivers : ObjSet} {o : QObj} (h : Invoked env k site receivers o)
    (ho : k.HasObj o) (hreceivers : ∀ r ∈ receivers, k.HasObj r)
    (hsite : k.contexts.Has site.context) (hle : k.Le l) : Invoked env l site receivers o := by
  intro m hm
  rw [Heap.get_of_grows ho.2 hle.heap] at hm
  obtain ⟨hstatic, hall⟩ := h m hm
  exact ⟨hstatic.mono hle hsite, fun r hr => (hall r hr).mono hle hsite (hreceivers r hr)⟩

/-- Invoking methods keeps to the rules. -/
theorem invokeAll_ok {v : QVar} {delta : ObjSet} {site : InvokeId} {x : Unit}
    (h : (invokeAll env v delta (env.program.invoke site)).run env s = .ok x t)
    (hid : (env.program.invoke site).id = site) (hg : s.Grounded)
    (hsite : s.settled.Acting env.program ⟨v.context, site⟩)
    (hdelta : ∀ o ∈ delta, s.settled.HasObj o) :
    s.Evolves env.program (PluginRule env) t ∧
      ∀ base, (env.program.invoke site).base = some base →
        ∀ o ∈ (paired s.pointsTo v delta base (env.program.invoke site).args.head?).1,
          Invoked env t.expected ⟨v.context, site⟩
            (paired s.pointsTo v delta base (env.program.invoke site).args.head?).2 o := by
  unfold invokeAll at h
  split at h
  · rename_i hnone
    obtain ⟨_, rfl⟩ := pure_eq_ok.1 h
    exact ⟨.refl _, fun base hbase => absurd (hnone.symm.trans hbase) (by simp)⟩
  · rename_i base hbase
    simp only [Service.bind_eq, Service.run_bind, bind_eq_ok, hid] at h
    obtain ⟨⟨metas, receivers⟩, u, hpairs, h⟩ := h
    obtain ⟨rfl, hpaired⟩ := pairs_ok hpairs
    obtain ⟨hmetas, hreceivers⟩ := hasObj_of_paired (v := v) base
      (env.program.invoke site).args.head? hg.points hdelta
    suffices hboth : u.Evolves env.program (PluginRule env) t ∧
        ∀ o ∈ metas, Invoked env t.expected ⟨v.context, site⟩ receivers o by
      refine ⟨hboth.1, ?_⟩
      intro base' hbase'
      obtain rfl := Option.some.inj (hbase.symm.trans hbase')
      rw [← hpaired]
      exact hboth.2
    rw [← hpaired] at hmetas hreceivers
    refine Service.achieves_forM
      (E := fun o k => Invoked env k ⟨v.context, site⟩ receivers o) h ?_ ?_
    · intro o ho w y hsw hwy hinvoked
      have hw := hsw.extends.settled.trans (Solver.settled_le_expected w)
      exact hinvoked.mono ((hmetas o ho).mono hw) (fun r hr => (hreceivers r hr).mono hw)
        (hsite.mono hw).context hwy.extends.expected
    · intro o ho w y hsw hwy
      have hw := hsw.extends.settled
      have hobj := (hmetas o ho).mono hw
      simp only [Service.run_bind, bind_eq_ok, Service.obj_eq_ok] at hwy
      obtain ⟨_, _, ⟨rfl, rfl⟩, hwy⟩ := hwy
      rcases Service.option_forM_cases hwy with ⟨hnone, rfl⟩ | ⟨m, hm, hwy⟩
      · exact ⟨.refl _, fun m hm => absurd (hnone.symm.trans hm) (by simp)⟩
      · obtain ⟨hwy, hstatic, hall⟩ := invokeMethod_ok hwy (hg.empty.of_grows hw.contexts)
          (hsite.mono hw) (fun r hr => (hreceivers r hr).mono hw)
        refine ⟨hwy, fun m' hm' => ?_⟩
        rw [Heap.get_of_grows hobj.2 hwy.extends.expected.heap] at hm'
        obtain rfl := Option.some.inj (hm.symm.trans hm')
        exact ⟨hstatic, hall⟩

/-! ## The model -/

/-- The objects that the model has made are what they are kept for, and it looks at variables
for calls that mention them. -/
structure Sound (p : Program) (k : View) (m : ActionModel) : Prop where
  made : m.made.Denotes p k
  relevant : Mentioned p m.relevant

/-- A model that is right stays right while the state grows. -/
theorem Sound.mono {p : Program} {m : ActionModel} (h : m.Sound p k) (hle : k.Le l) :
    m.Sound p l :=
  ⟨h.made.mono hle, h.relevant⟩

/-- What a call does when a variable that it is looked at for has changed. -/
def Acted (env : Setting) (k : View) (points : PointsToMap) (v : QVar) (delta : ObjSet)
    (site : InvokeId) (api : Api) : Prop :=
  (∀ o ∈ delta, Made env k ⟨v.context, site⟩ api o) ∧
    (api = .methodInvoke → ∀ base, (env.program.invoke site).base = some base →
      ∀ o ∈ (paired points v delta base (env.program.invoke site).args.head?).1,
        Invoked env k ⟨v.context, site⟩
          (paired points v delta base (env.program.invoke site).args.head?).2 o)

/-- What a call has done for a change of its variable stays done. -/
theorem Acted.mono {v : QVar} {delta : ObjSet} {site : InvokeId} {api : Api}
    (h : Acted env k s.pointsTo v delta site api) (hg : s.Grounded)
    (hv : s.contexts.Has v.context) (hdelta : ∀ o ∈ delta, s.settled.HasObj o)
    (hsk : s.settled.Le k) (hle : k.Le l) : Acted env l s.pointsTo v delta site api := by
  refine ⟨?_, ?_⟩
  · exact fun o ho => (h.1 o ho).mono ((hdelta o ho).mono hsk)
      (hg.empty.of_grows hsk.contexts) (hv.of_grows hsk.contexts) hle
  · intro hapi base hbase o ho
    obtain ⟨hmetas, hreceivers⟩ := hasObj_of_paired (v := v) base
      (env.program.invoke site).args.head? hg.points hdelta
    exact (h.2 hapi base hbase o ho).mono ((hmetas o ho).mono hsk)
      (fun r hr => (hreceivers r hr).mono hsk) (hv.of_grows hsk.contexts) hle

/-- The model looks at the same variables, and its table of objects stays one of its kind. -/
theorem grown_kept {m m' : ActionModel} {v : QVar} {delta : ObjSet}
    (h : (m.grown env v delta).run env s = .ok m' t) :
    m'.relevant = m.relevant ∧ m'.made.kind = m.made.kind := by
  simp only [grown, Service.bind_eq, Service.run_bind, bind_eq_ok] at h
  obtain ⟨made, u, hloop, h⟩ := h
  obtain ⟨rfl, rfl⟩ := pure_eq_ok.1 h
  refine ⟨rfl, ?_⟩
  rw [Service.run_foldlM] at hloop
  refine (foldlM_rel (R := fun _ _ => True) (J := fun b _ => b.kind = m.made.kind)
    (fun _ => trivial) (fun _ _ => trivial) hloop rfl ?_).2
  rintro ⟨site, api⟩ _ b c w y _ hb hwy
  refine ⟨trivial, ?_⟩
  cases api with
  | classNewInstance =>
      rw [makeOfClass_eq] at hwy
      exact (make_kept hwy).trans hb
  | constructorNewInstance =>
      rw [makeByConstructor_eq] at hwy
      exact (make_kept hwy).trans hb
  | forName | loadClass | getClass | getConstructor | getDeclaredConstructor | getMethod
  | getDeclaredMethod | methodInvoke =>
      simp only [Service.run_bind, bind_eq_ok] at hwy
      obtain ⟨_, _, _, hwy⟩ := hwy
      obtain ⟨rfl, _⟩ := pure_eq_ok.1 hwy
      exact hb

/-- When a variable refers to more, the model does what calls ask for, which keeps to the
rules. -/
theorem grown_ok {m m' : ActionModel} {v : QVar} {delta : ObjSet}
    (h : (m.grown env v delta).run env s = .ok m' t) (hp : env.program.Numbered)
    (hg : s.Grounded) (hv : s.settled.Refers v) (hdelta : ∀ o ∈ delta, s.settled.HasObj o)
    (hm : m.Sound env.program s.settled) :
    s.Evolves env.program (PluginRule env) t ∧ m'.Sound env.program t.settled ∧
      (m.made.kind = .reflective → ∀ site api, (v.item, (site, api)) ∈ m.relevant.pairs →
        Acted env t.expected s.pointsTo v delta site api) := by
  simp only [grown, Service.bind_eq, Service.run_bind, bind_eq_ok] at h
  obtain ⟨made, u, hloop, h⟩ := h
  obtain ⟨rfl, rfl⟩ := pure_eq_ok.1 h
  suffices hall : s.Evolves env.program (PluginRule env) u ∧
      (made.Denotes env.program u.settled ∧ made.kind = m.made.kind) ∧
      ∀ x ∈ m.relevant.get v.item, m.made.kind = .reflective →
        Acted env u.expected s.pointsTo v delta x.1 x.2 by
    obtain ⟨hevolves, ⟨hdenotes, _⟩, hacted⟩ := hall
    exact ⟨hevolves, ⟨hdenotes, hm.relevant⟩,
      fun hk site api hmem => hacted (site, api) (Waitlist.mem_get.2 hmem) hk⟩
  refine Service.achieves_foldlM
    (J := fun b u => b.Denotes env.program u.settled ∧ b.kind = m.made.kind)
    (E := fun x k => m.made.kind = .reflective → Acted env k s.pointsTo v delta x.1 x.2)
    hloop ⟨hm.made, rfl⟩ ?_ ?_
  · intro x _ w y hsw hwy hacted hk
    exact (hacted hk).mono hg hv.context hdelta
      (hsw.extends.settled.trans (Solver.settled_le_expected w)) hwy.extends.expected
  · rintro ⟨site, api⟩ hmem b c w y hsw ⟨hb, hbk⟩ hwy
    have hw := hsw.extends.settled
    have hg' := hg.of_accretes hsw.accretes
    have hsite := (hm.relevant.acting hv hmem).mono hw
    have hdelta' : ∀ o ∈ delta, w.settled.HasObj o := fun o ho => (hdelta o ho).mono hw
    have hid : (env.program.invoke site).id = site :=
      hp.invoke_id (hm.relevant _ _ _ (Waitlist.mem_get.1 hmem))
    rw [← hsw.accretes.pointsTo]
    have hmake : ∀ {api}, api ≠ .methodInvoke →
        (delta.toList.foldlM (make env ⟨v.context, site⟩ api) b).run env w = .ok c y →
        w.Evolves env.program (PluginRule env) y ∧
          (c.Denotes env.program y.settled ∧ c.kind = m.made.kind) ∧
          (m.made.kind = .reflective → Acted env y.expected w.pointsTo v delta site api) := by
      intro api hapi hwy
      obtain ⟨hevolves, hc, hmakes⟩ := make_ok hwy hg'.empty hsite hb hdelta'
      exact ⟨hevolves, ⟨hc, (make_kept hwy).trans hbk⟩,
        fun hk => ⟨hmakes (hbk.trans hk), fun h => absurd h hapi⟩⟩
    have hinvoke : ((invokeAll env v delta (env.program.invoke site)).bind
        fun _ => .done b).run env w = .ok c y →
        (∀ o, product? env.program site api o = none) →
        w.Evolves env.program (PluginRule env) y ∧
          (c.Denotes env.program y.settled ∧ c.kind = m.made.kind) ∧
          (m.made.kind = .reflective → Acted env y.expected w.pointsTo v delta site api) := by
      intro hwy hnone
      simp only [Service.run_bind, bind_eq_ok] at hwy
      obtain ⟨_, z, hinvoke, hwy⟩ := hwy
      obtain ⟨rfl, rfl⟩ := pure_eq_ok.1 hwy
      obtain ⟨hwz, hinvoked⟩ := invokeAll_ok hinvoke hid hg' hsite hdelta'
      refine ⟨hwz, ⟨hb.mono hwz.extends.settled, hbk⟩, fun _ => ⟨?_, fun _ => hinvoked⟩⟩
      exact fun o _ type constructor? call hp => absurd ((hnone _).symm.trans hp) (by simp)
    cases api with
    | classNewInstance =>
        rw [makeOfClass_eq] at hwy
        exact hmake (by simp) hwy
    | constructorNewInstance =>
        rw [makeByConstructor_eq] at hwy
        exact hmake (by simp) hwy
    | forName | loadClass | getClass | getConstructor | getDeclaredConstructor | getMethod
    | getDeclaredMethod | methodInvoke => exact hinvoke hwy fun _ => rfl

end ActionModel

/-! ## Calls from a log -/

/-- A covered call has done under a context what the log says; a method was invoked on whatever
the receiver of the call refers to. -/
def Claim.Done (env : Setting) (k : View) (points : PointsToMap) (c : ContextId)
    (claim : Claim) : Prop :=
  let call := env.program.invoke claim.site
  match claim.api, claim.target with
  | .forName, .cls className => Presented env k ⟨c, claim.site⟩ (classMeta (.cls className))
  | .classNewInstance, .cls className =>
      Instantiated env k ⟨c, claim.site⟩ (.cls className)
        (env.program.defaultConstructor? className) { api := .classNewInstance, args := none }
  | .constructorNewInstance, .method m =>
      Instantiated env k ⟨c, claim.site⟩ (env.program.method m).declaringType (some m)
        { api := .constructorNewInstance, args := call.args.head? }
  | .methodInvoke, .method m => InvokedStatic env k ⟨c, claim.site⟩ m call.args[1]? ∧
      ∀ r ∈ call.args.head?, ∀ o ∈ points.get (varPointer c r),
        InvokedOn env k ⟨c, claim.site⟩ m call.args[1]? o
  | _, _ => True

/-- Of what a covered call does, only the methods that it invokes on objects depend on what
variables refer to. -/
theorem Claim.done_iff {points : PointsToMap} {c : ContextId} {claim : Claim} :
    claim.Done env k points c ↔ claim.Done env k .empty c ∧
      ∀ m, claim.api = .methodInvoke → claim.target = .method m →
        ∀ r ∈ (env.program.invoke claim.site).args.head?, ∀ o ∈ points.get (varPointer c r),
          InvokedOn env k ⟨c, claim.site⟩ m (env.program.invoke claim.site).args[1]? o := by
  unfold Claim.Done
  dsimp only
  split
  · rename_i hapi _
    simp [hapi]
  · rename_i hapi _
    simp [hapi]
  · rename_i hapi _
    simp [hapi]
  · rename_i m hapi htarget
    simp only [hapi, htarget, LogTarget.method.injEq, true_implies]
    constructor
    · rintro ⟨hstatic, hall⟩
      refine ⟨⟨hstatic, fun _ _ o ho => absurd ho (OrderedSet.not_mem_empty o)⟩, ?_⟩
      rintro _ rfl
      exact hall
    · rintro ⟨⟨hstatic, _⟩, hall⟩
      exact ⟨hstatic, hall m rfl⟩
  · rename_i hinvoke
    simp only [true_and, true_iff]
    exact fun m hapi htarget => (hinvoke m hapi htarget).elim

/-- What a covered call has done stays done. -/
theorem Claim.Done.mono {points : PointsToMap} {c : ContextId} {claim : Claim}
    (h : claim.Done env k points c) (hempty : k.contexts.Has emptyContext)
    (hc : k.contexts.Has c) (hpoints : ∀ {ptr o}, o ∈ points.get ptr → k.HasObj o)
    (hle : k.Le l) : claim.Done env l points c := by
  unfold Claim.Done at h ⊢
  dsimp only at h ⊢
  split
  · rename_i hapi htarget
    rw [hapi, htarget] at h
    exact Presented.mono hle h
  · rename_i hapi htarget
    rw [hapi, htarget] at h
    exact Instantiated.mono hle h hempty hc
  · rename_i hapi htarget
    rw [hapi, htarget] at h
    exact Instantiated.mono hle h hempty hc
  · rename_i hapi htarget
    rw [hapi, htarget] at h
    exact ⟨h.1.mono hle hc, fun r hr o ho => (h.2 r hr o ho).mono hle hc (hpoints ho)⟩
  · trivial

namespace LogModel

/-- The calls that the log covers are claimed for the methods that contain them, and the rest
of the memory is as that of the other models. -/
structure Sound (p : Program) (k : View) (m : LogModel) : Prop where
  claims : ∀ c ∈ m.claims, c.caller = (p.invoke c.site).container
  receivers : Mentioned p m.receivers
  made : m.made.Denotes p k

/-- A log that is right stays right while the state grows. -/
theorem Sound.mono {p : Program} {m : LogModel} (h : m.Sound p k) (hle : k.Le l) :
    m.Sound p l :=
  ⟨h.claims, h.receivers, h.made.mono hle⟩

/-- A log has lost nothing of its memory, and covers the same calls. -/
structure Retains (m m' : LogModel) : Prop where
  entries : m'.entries = m.entries
  kind : m'.made.kind = m.made.kind
  claims : ∀ c ∈ m.claims, c ∈ m'.claims
  receivers : ∀ x ∈ m.receivers.pairs, x ∈ m'.receivers.pairs

/-- A log retains what it has. -/
theorem Retains.refl (m : LogModel) : m.Retains m :=
  ⟨rfl, rfl, fun _ => id, fun _ => id⟩

/-- What is retained twice is retained. -/
theorem Retains.trans {m m' m'' : LogModel} (h : m.Retains m') (h' : m'.Retains m'') :
    m.Retains m'' :=
  ⟨h'.entries.trans h.entries, h'.kind.trans h.kind, fun c hc => h'.claims c (h.claims c hc),
    fun x hx => h'.receivers x (h.receivers x hx)⟩

/-- The receiver of a call that invokes a method for the log is looked at. -/
def Enlists (p : Program) (claim : Claim) (m : LogModel) : Prop :=
  ∀ target, claim.api = .methodInvoke → claim.target = .method target →
    ∀ r ∈ (p.invoke claim.site).args.head?, (r, (claim.site, target)) ∈ m.receivers.pairs

/-- A claim that is enlisted stays so while the log retains what it has. -/
theorem Enlists.of_retains {p : Program} {claim : Claim} {m m' : LogModel}
    (h : m.Enlists p claim) (hm : m.Retains m') : m'.Enlists p claim :=
  fun target hapi htarget r hr => hm.receivers _ (h target hapi htarget r hr)

/-- Where no method is invoked, no receiver has to be looked at. -/
theorem enlists_of_api {p : Program} {claim : Claim} {m : LogModel}
    (h : claim.api ≠ .methodInvoke) : m.Enlists p claim :=
  fun _ hapi => absurd hapi h

/-- A covered call that acts forgets nothing, and its receiver is looked at from then on. -/
theorem act_kept {m m' : LogModel} {c : ContextId} {claim : Claim}
    (h : (act env m c claim).run env s = .ok m' t) :
    m.Retains m' ∧ m'.claims = m.claims ∧ m'.Enlists env.program claim := by
  have hmade : ∀ {made : MockTable}, made.kind = m.made.kind → claim.api ≠ .methodInvoke →
      m.Retains { m with made } ∧ { m with made }.claims = m.claims ∧
        Enlists env.program claim { m with made } :=
    fun hkind hapi => ⟨⟨rfl, hkind, fun _ => id, fun _ => id⟩, rfl, enlists_of_api hapi⟩
  simp only [act] at h
  split at h
  · rename_i hapi _
    simp only [Service.bind_eq, Service.run_bind, bind_eq_ok] at h
    obtain ⟨_, _, _, h⟩ := h
    obtain ⟨rfl, _⟩ := pure_eq_ok.1 h
    exact hmade rfl (by simp [hapi])
  · rename_i hapi _
    simp only [Service.bind_eq, Service.run_bind, bind_eq_ok] at h
    obtain ⟨made, _, hnew, h⟩ := h
    obtain ⟨rfl, _⟩ := pure_eq_ok.1 h
    exact hmade (newInstance_kept hnew) (by simp [hapi])
  · rename_i hapi _
    simp only [Service.bind_eq, Service.run_bind, bind_eq_ok] at h
    obtain ⟨made, _, hnew, h⟩ := h
    obtain ⟨rfl, _⟩ := pure_eq_ok.1 h
    exact hmade (newInstance_kept hnew) (by simp [hapi])
  · rename_i target hapi htarget
    split at h
    · rename_i hargs
      simp only [Service.bind_eq, Service.run_bind, bind_eq_ok] at h
      obtain ⟨_, _, _, h⟩ := h
      obtain ⟨rfl, _⟩ := pure_eq_ok.1 h
      exact ⟨.refl m, rfl, fun _ _ _ r hr => by simp [hargs] at hr⟩
    · rename_i receiver rest hargs
      simp only [Service.bind_eq, Service.run_bind, bind_eq_ok] at h
      obtain ⟨_, _, _, _, _, _, h⟩ := h
      obtain ⟨rfl, _⟩ := pure_eq_ok.1 h
      refine ⟨⟨rfl, rfl, fun _ => id, fun x hx => OrderedSet.mem_insert.2 (.inr hx)⟩, rfl, ?_⟩
      intro target' _ htarget' r hr
      rw [hargs] at hr
      cases Option.some.inj hr
      cases htarget.symm.trans htarget'
      exact OrderedSet.mem_insert.2 (.inl rfl)
  · rename_i hinvoke
    obtain ⟨rfl, _⟩ := pure_eq_ok.1 h
    exact ⟨.refl m, rfl, fun target hapi htarget => (hinvoke target hapi htarget).elim⟩

/-- A covered call that names a class presents the class. -/
private theorem present_ok {c : ContextId} {site : InvokeId} {made : MockObj} {x : Unit}
    (h : ((env.program.invoke site).result.forM fun result => do
      let i ← Service.mock made
      Service.addVarObj c result ⟨emptyContext, i⟩ : Service Unit).run env s = .ok x t)
    (hempty : s.contexts.Has emptyContext) (hsite : s.settled.Acting env.program ⟨c, site⟩) :
    s.Evolves env.program (PluginRule env) t ∧ Presented env t.expected ⟨c, site⟩ made := by
  rcases Service.option_forM_cases h with ⟨hnone, rfl⟩ | ⟨result, hresult, h⟩
  · exact ⟨.refl _, fun r hr => absurd (hnone.symm.trans hr) (by simp)⟩
  · simp only [Service.bind_eq, Service.run_bind, bind_eq_ok] at h
    obtain ⟨i, w, hmock, hadd⟩ := h
    exact presented_ok ⟨c, site⟩ hmock hadd hempty hsite hresult

/-- A covered call does what the log says, which keeps to the rules. -/
theorem act_ok {m m' : LogModel} {c : ContextId} {claim : Claim}
    (h : (act env m c claim).run env s = .ok m' t) (hg : s.Grounded)
    (hsite : s.settled.Acting env.program ⟨c, claim.site⟩) (hm : m.Sound env.program s.settled) :
    s.Evolves env.program (PluginRule env) t ∧ m'.Sound env.program t.settled ∧
      (m.made.kind = .reflective → claim.Done env t.expected s.pointsTo c) := by
  simp only [act] at h
  split at h
  · rename_i className hapi htarget
    simp only [Service.bind_eq, Service.run_bind, bind_eq_ok] at h
    obtain ⟨_, u, hyield, h⟩ := h
    obtain ⟨rfl, rfl⟩ := pure_eq_ok.1 h
    obtain ⟨hevolves, hpresented⟩ := present_ok hyield hg.empty hsite
    refine ⟨hevolves, hm.mono hevolves.extends.settled, fun _ => ?_⟩
    simp only [Claim.Done, hapi, htarget]
    exact hpresented
  · rename_i className hapi htarget
    simp only [Service.bind_eq, Service.run_bind, bind_eq_ok] at h
    obtain ⟨made, u, hnew, h⟩ := h
    obtain ⟨rfl, rfl⟩ := pure_eq_ok.1 h
    obtain ⟨hevolves, hmade, hmakes⟩ := newInstance_ok hnew hg.empty hsite hm.made
    refine ⟨hevolves, ⟨hm.claims, hm.receivers, hmade⟩, fun hk => ?_⟩
    simp only [Claim.Done, hapi, htarget]
    exact hmakes hk
  · rename_i target hapi htarget
    simp only [Service.bind_eq, Service.run_bind, bind_eq_ok] at h
    obtain ⟨made, u, hnew, h⟩ := h
    obtain ⟨rfl, rfl⟩ := pure_eq_ok.1 h
    obtain ⟨hevolves, hmade, hmakes⟩ := newInstance_ok hnew hg.empty hsite hm.made
    refine ⟨hevolves, ⟨hm.claims, hm.receivers, hmade⟩, fun hk => ?_⟩
    simp only [Claim.Done, hapi, htarget]
    exact hmakes hk
  · rename_i target hapi htarget
    split at h
    · rename_i hargs
      simp only [Service.bind_eq, Service.run_bind, bind_eq_ok] at h
      obtain ⟨_, u, hinvoke, h⟩ := h
      obtain ⟨rfl, rfl⟩ := pure_eq_ok.1 h
      obtain ⟨hevolves, hstatic, _⟩ := invokeMethod_ok hinvoke hg.empty hsite
        (fun o ho => absurd ho (OrderedSet.not_mem_empty o))
      refine ⟨hevolves, hm.mono hevolves.extends.settled, fun _ => ?_⟩
      simp only [Claim.Done, hapi, htarget, hargs]
      exact ⟨hstatic, by simp⟩
    · rename_i receiver rest hargs
      simp only [Service.bind_eq, Service.run_bind, bind_eq_ok,
        Service.varPointsTo_eq_ok] at h
      obtain ⟨_, _, ⟨rfl, rfl⟩, _, u, hinvoke, h⟩ := h
      obtain ⟨rfl, rfl⟩ := pure_eq_ok.1 h
      obtain ⟨hevolves, hstatic, hall⟩ := invokeMethod_ok hinvoke hg.empty hsite (hg.points _)
      have hm' := hm.mono hevolves.extends.settled
      have hmention : receiver ∈ env.program.mentioned (.invoke claim.site) := by
        simp [Program.mentioned, hargs]
      have hrest : rest.head? = (env.program.invoke claim.site).args[1]? := by
        rw [hargs, List.head?_eq_getElem?, List.getElem?_cons_succ]
      rw [hrest] at hstatic hall
      refine ⟨hevolves, ⟨hm'.claims, hm'.receivers.register hmention _, hm'.made⟩, fun _ => ?_⟩
      simp only [Claim.Done, hapi, htarget]
      refine ⟨hstatic, fun r hr => ?_⟩
      rw [hargs] at hr
      cases Option.some.inj hr
      exact hall
  · rename_i hclass hnew hconstructor hinvoke
    obtain ⟨rfl, rfl⟩ := pure_eq_ok.1 h
    refine ⟨.refl _, hm, fun _ => ?_⟩
    unfold Claim.Done
    dsimp only
    split
    · rename_i hapi htarget
      exact (hclass _ hapi htarget).elim
    · rename_i hapi htarget
      exact (hnew _ hapi htarget).elim
    · rename_i hapi htarget
      exact (hconstructor _ hapi htarget).elim
    · rename_i hapi htarget
      exact (hinvoke _ hapi htarget).elim
    · trivial

/-- Covered calls that act one after the other forget nothing. -/
theorem actAll_kept {m m' : LogModel} {c : ContextId} {claims : List Claim}
    (h : (claims.foldlM (fun m claim => act env m c claim) m).run env s = .ok m' t) :
    m.Retains m' ∧ m'.claims = m.claims ∧ ∀ claim ∈ claims, m'.Enlists env.program claim := by
  induction claims generalizing m s with
  | nil =>
      obtain ⟨rfl, rfl⟩ := pure_eq_ok.1 h
      exact ⟨.refl _, rfl, by simp⟩
  | cons claim claims ih =>
      simp only [List.foldlM_cons, Service.bind_eq, Service.run_bind, bind_eq_ok] at h
      obtain ⟨m₁, u, hact, hrest⟩ := h
      obtain ⟨hretains, hclaims, henlists⟩ := act_kept hact
      obtain ⟨hretains', hclaims', hall⟩ := ih hrest
      refine ⟨hretains.trans hretains', hclaims'.trans hclaims, ?_⟩
      intro claim' hclaim'
      rcases List.mem_cons.1 hclaim' with rfl | hclaim'
      · exact henlists.of_retains hretains'
      · exact hall claim' hclaim'

/-- Covered calls of a reachable method do what the log says, one after the other. -/
private theorem actAll_ok {m m' : LogModel} {q : QMethod} {claims : List Claim}
    (h : (claims.foldlM (fun m c => act env m q.context c) m).run env s = .ok m' t)
    (hg : s.Grounded) (hq : q ∈ s.calls.reachableIn) (hm : m.Sound env.program s.settled)
    (hclaims : ∀ claim ∈ claims, claim ∈ m.claims ∧ claim.caller = q.item) :
    s.Evolves env.program (PluginRule env) t ∧ m'.Sound env.program t.settled ∧
      (m.made.kind = .reflective → ∀ claim ∈ claims,
        claim.Done env t.expected s.pointsTo q.context) := by
  induction claims generalizing m s with
  | nil =>
      obtain ⟨rfl, rfl⟩ := pure_eq_ok.1 h
      exact ⟨.refl _, hm, by simp⟩
  | cons claim claims ih =>
      simp only [List.foldlM_cons, Service.bind_eq, Service.run_bind, bind_eq_ok] at h
      obtain ⟨m₁, u, hact, hrest⟩ := h
      obtain ⟨hmem, hcaller⟩ := hclaims claim List.mem_cons_self
      have hsite : s.settled.Acting env.program ⟨q.context, claim.site⟩ := by
        refine ⟨hg.reached q hq, .inl ⟨q.item, hq, .inl ?_⟩⟩
        rw [← hcaller]
        exact hm.claims claim hmem
      obtain ⟨hretains, hclaims₁, _⟩ := act_kept hact
      obtain ⟨hsu, hm₁, hdone⟩ := act_ok hact hg hsite hm
      have hg' := hg.of_accretes hsu.accretes
      have hq' := hsu.extends.reachableIn hq
      obtain ⟨hut, hm', hall⟩ := ih hrest hg' hq' hm₁
        (fun c hc => hclaims₁ ▸ hclaims c (List.mem_cons_of_mem _ hc))
      refine ⟨hsu.trans hut, hm', ?_⟩
      intro hk claim' hclaim'
      rw [← hsu.accretes.pointsTo] at hdone ⊢
      rcases List.mem_cons.1 hclaim' with rfl | hclaim'
      · have hu := Solver.settled_le_expected u
        exact (hdone hk).mono (hg'.empty.of_grows hu.contexts)
          ((hg'.reached q hq').of_grows hu.contexts) (fun ho => (hg'.points _ _ ho).mono hu)
          hut.extends.expected
      · exact hall (hretains.kind.trans hk) claim' hclaim'

/-- The method of a call that the log covers is told of under a context: nothing is forgotten,
and the receivers of its covered calls are looked at from then on. -/
theorem reached_kept {m m' : LogModel} {q : QMethod}
    (h : (m.reached env q).run env s = .ok m' t) :
    m.Retains m' ∧ m'.claims = m.claims ∧
      ∀ claim ∈ m.claims, claim.caller = q.item → m'.Enlists env.program claim := by
  obtain ⟨hretains, hclaims, hall⟩ := actAll_kept h
  exact ⟨hretains, hclaims, fun claim hmem hcaller =>
    hall claim (List.mem_filter.2 ⟨hmem, decide_eq_true hcaller⟩)⟩

/-- When a method is reachable under a context, its covered calls do what the log says. -/
theorem reached_ok {m m' : LogModel} {q : QMethod}
    (h : (m.reached env q).run env s = .ok m' t) (hg : s.Grounded)
    (hq : q ∈ s.calls.reachableIn) (hm : m.Sound env.program s.settled) :
    s.Evolves env.program (PluginRule env) t ∧ m'.Sound env.program t.settled ∧
      (m.made.kind = .reflective → ∀ claim ∈ m.claims, claim.caller = q.item →
        claim.Done env t.expected s.pointsTo q.context) := by
  obtain ⟨hst, hm', hall⟩ := actAll_ok h hg hq hm fun claim hclaim => by
    obtain ⟨hmem, hcaller⟩ := List.mem_filter.1 hclaim
    exact ⟨hmem, of_decide_eq_true hcaller⟩
  exact ⟨hst, hm', fun hk claim hmem hcaller =>
    hall hk claim (List.mem_filter.2 ⟨hmem, decide_eq_true hcaller⟩)⟩

/-- When a receiver refers to more, the methods are invoked on what is new. -/
theorem grown_ok {m : LogModel} {v : QVar} {delta : ObjSet} {x : Unit}
    (h : (m.grown env v delta).run env s = .ok x t) (hempty : s.contexts.Has emptyContext)
    (hv : s.settled.Refers v) (hdelta : ∀ o ∈ delta, s.settled.HasObj o)
    (hm : Mentioned env.program m.receivers) :
    s.Evolves env.program (PluginRule env) t ∧
      ∀ site target, (v.item, (site, target)) ∈ m.receivers.pairs → ∀ o ∈ delta,
        InvokedOn env t.expected ⟨v.context, site⟩ target
          (env.program.invoke site).args[1]? o := by
  suffices hboth : s.Evolves env.program (PluginRule env) t ∧
      ∀ x ∈ m.receivers.get v.item, ∀ o ∈ delta, InvokedOn env t.expected ⟨v.context, x.1⟩ x.2
        (env.program.invoke x.1).args[1]? o from
    ⟨hboth.1, fun site target hmem => hboth.2 (site, target) (Waitlist.mem_get.2 hmem)⟩
  refine Service.achieves_forM (E := fun x k => ∀ o ∈ delta,
    InvokedOn env k ⟨v.context, x.1⟩ x.2 (env.program.invoke x.1).args[1]? o) h ?_ ?_
  · intro x _ u w hsu huw hinvoked o ho
    have hu := hsu.extends.settled.trans (Solver.settled_le_expected u)
    exact (hinvoked o ho).mono huw.extends.expected (hv.context.of_grows hu.contexts)
      ((hdelta o ho).mono hu)
  · rintro ⟨site, target⟩ hmem u w hsu huw
    have hu := hsu.extends.settled
    obtain ⟨huw, _, hall⟩ := invokeMethod_ok huw (hempty.of_grows hu.contexts)
      ((hm.acting hv hmem).mono hu) (fun o ho => (hdelta o ho).mono hu)
    exact ⟨huw, hall⟩

end LogModel

end PointsTo.Reflection
