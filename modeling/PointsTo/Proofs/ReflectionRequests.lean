import PointsTo.Proofs.PluginRequests
import PointsTo.Proofs.ReflectionActions

/-!
# What the plugin for reflection may ask for

The plugin yields meta objects, makes objects, invokes methods and forwards arguments.  Each of its
functions is read once here; what it asks for, and what the plugin remembers afterwards, is listed
case by case.

Main results:

- {lit}`Reflection.Instantiating`, {lit}`Reflection.Invoking`: what reflective allocation and
  invocation ask for; theorems {lit}`Reflection.asks_newInstance`,
  {lit}`Reflection.asks_invokeMethod`.
- {lit}`Reflection.Asked`, {lit}`Reflection.Became`: what the plugin may ask for at an event, and
  what it may remember afterwards.
- Theorem {lit}`Reflection.asks_react`: it asks for nothing else.
-/

namespace PointsTo.Reflection

open Service

variable {env : Setting} {p : Program} {R : Request → Prop} {A : (r : Request) → r.Answer → Prop}
  {site : QSite} {v : QVar} {delta : ObjSet}

/-! ## Objects that are read and objects that are yielded -/

/-- An object that is seen when a variable has changed and another one is looked at: a new one if
both are the same, or one that the other refers to. -/
def Reads (A : (r : Request) → r.Answer → Prop) (v : QVar) (delta : ObjSet) (w : VarId)
    (o : QObj) : Prop :=
  (w = v.item ∧ o ∈ delta) ∨ ∃ os, A (.pointsTo (.var ⟨v.context, w⟩)) os ∧ o ∈ os

/-- To see what a variable refers to, its objects are asked for unless they are those that are new.
-/
theorem asks_seenIn {w : VarId} (hR : R (.pointsTo (.var ⟨v.context, w⟩))) :
    (seenIn v delta w).Asks R A fun os => ∀ o ∈ os, Reads A v delta w o := by
  unfold seenIn
  split
  · rename_i hw
    exact fun o ho => .inl ⟨hw, ho⟩
  · exact (asks_request hR).mono fun os hos o ho => .inr ⟨os, hos, ho⟩

/-- All that the changed variable refers to is seen too where it is asked for itself. -/
theorem asks_varPointsTo {w : VarId} (hw : w = v.item)
    (hR : R (.pointsTo (.var ⟨v.context, w⟩))) :
    (varPointsTo v).Asks R A fun os => ∀ o ∈ os, Reads A v delta w o := by
  subst hw
  exact (asks_request hR).mono fun os hos o ho => .inr ⟨os, hos, ho⟩

/-- What is asked for to let a meta object reach the result of a call. -/
inductive Presenting (A : (r : Request) → r.Answer → Prop) (c : ContextId) (result : VarId)
    (x : MockObj) : Request → Prop
  | make : Presenting A c result x (.mock x)
  | result {i} (hi : A (.mock x) i) :
      Presenting A c result x (.addPointsTo (varPointer c result) (.singleton ⟨emptyContext, i⟩))

/-- A meta object is made, and handed on. -/
theorem asks_present {c : ContextId} {result : VarId} {x : MockObj}
    (hR : ∀ r, Presenting A c result x r → R r) :
    (do
      let made ← Service.mock x
      Service.addVarObj c result ⟨emptyContext, made⟩ : Service Unit).Asks R A Any := by
  refine Asks.bind (asks_request (hR _ .make)) fun i hi => ?_
  exact (asks_request (hR _ (.result hi))).mono fun _ _ => trivial

/-! ## Allocation -/

/-- What is asked for to make an object at a call and to run a constructor on it: the object and
its heap context, the result of the call, and the constructor if there is one. -/
inductive Instantiating (p : Program) (A : (r : Request) → r.Answer → Prop) (table : MockTable)
    (site : QSite) (type : JavaType) (constructor? : Option MethodId) (call : ReflectiveCall) :
    Request → Prop
  | make : Instantiating p A table site type constructor? call
      (.mock (table.wanted p site.item type))
  | heapContext : Instantiating p A table site type constructor? call
      (.heapContext ⟨site.context, (p.invoke site.item).container⟩)
  | result {i h w} (hi : table.Hands p A site.item type i)
      (hh : A (.heapContext ⟨site.context, (p.invoke site.item).container⟩) h)
      (hw : (p.invoke site.item).result = some w) :
      Instantiating p A table site type constructor? call
        (.addPointsTo (varPointer site.context w) (.singleton ⟨h, i⟩))
  | run {i h m r} (hi : table.Hands p A site.item type i)
      (hh : A (.heapContext ⟨site.context, (p.invoke site.item).container⟩) h)
      (hresult : ∀ w ∈ (p.invoke site.item).result,
        A (.addPointsTo (varPointer site.context w) (.singleton ⟨h, i⟩)) ())
      (hm : constructor? = some m)
      (hr : Request.RunsOn p A site ⟨h, i⟩ m (.reflective call) r) :
      Instantiating p A table site type constructor? call r

section Allocation

variable {table table' : MockTable} {type : JavaType} {constructor? : Option MethodId}
  {call : ReflectiveCall}

/-- Whatever is asked for with a later table could have been asked for with the first one. -/
theorem Instantiating.of_fills {W : InvokeId → Prop} {r : Request} (h : table.Fills p A W table')
    (hr : Instantiating p A table' site type constructor? call r) :
    Instantiating p A table site type constructor? call r := by
  cases hr with
  | make =>
      rw [MockTable.wanted_eq h.kind]
      exact .make
  | heapContext => exact .heapContext
  | result hi hh hw => exact .result (h.hands hi) hh hw
  | run hi hh hresult hm hr => exact .run (h.hands hi) hh hresult hm hr

/-- To make an object is to ask the table for it, and to run the constructor. -/
theorem asks_newInstance
    (hR : ∀ r, Instantiating env.program A table site type constructor? call r → R r) :
    (newInstance env table site type constructor? call).Asks R A
      (table.Fills env.program A (· = site.item)) := by
  refine Asks.bind (MockTable.asks_getOrCreate (hR _ .make)) ?_
  rintro ⟨i, table'⟩ ⟨hi, htable⟩
  refine Asks.bind (asks_request (hR _ .heapContext)) fun h hh => ?_
  refine Asks.bind (Q := fun _ => ∀ w ∈ (env.program.invoke site.item).result,
    A (.addPointsTo (varPointer site.context w) (.singleton ⟨h, i⟩)) ()) ?_ fun _ hresult => ?_
  · cases hw : (env.program.invoke site.item).result with
    | none => exact fun _ h => by cases h
    | some w =>
        refine (asks_request (hR _ (.result hi hh hw))).mono fun _ ha => ?_
        rintro _ ⟨⟩
        exact ha
  · cases constructor? with
    | none => exact htable
    | some m => exact asks_runsOn (fun r hr => hR r (.run hi hh hresult rfl hr)) htable

end Allocation

/-! ## Invocation -/

/-- What is asked for to invoke a method at a call, on objects that are as {lit}`O` says: only a
call if the method is static, else the type of each object and a call of the method that this type
has. -/
inductive Invoking (p : Program) (A : (r : Request) → r.Answer → Prop) (site : QSite)
    (target : MethodId) (O : QObj → Prop) (args : Option VarId) : Request → Prop
  | static {r} (hno : (p.method target).isConstructor = false)
      (hstatic : (p.method target).isStatic = true)
      (hr : Request.Runs A site none target (.reflective { api := .methodInvoke, args }) r) :
      Invoking p A site target O args r
  | look {o} (ho : O o) : Invoking p A site target O args (.obj o.item)
  | run {o x m r} (hno : (p.method target).isConstructor = false)
      (hstatic : (p.method target).isStatic = false) (ho : O o) (hx : A (.obj o.item) x)
      (hm : invokedOn? p target x.type = some m)
      (hr : Request.RunsOn p A site o m (.reflective { api := .methodInvoke, args }) r) :
      Invoking p A site target O args r

/-- Methods are invoked on the receivers one by one. -/
theorem asks_invokeMethod {target : MethodId} {O : QObj → Prop} {receivers : ObjSet}
    {args : Option VarId} (hreceivers : ∀ o ∈ receivers, O o)
    (hR : ∀ r, Invoking env.program A site target O args r → R r) :
    (invokeMethod env site target receivers args).Asks R A Any := by
  unfold invokeMethod
  dsimp only
  split
  · trivial
  · rename_i hno
    have hno' : (env.program.method target).isConstructor = false := by simpa using hno
    split
    · rename_i hstatic
      exact asks_runs fun r hr => hR r (.static hno' hstatic hr)
    · rename_i hstatic
      have hstatic' : (env.program.method target).isStatic = false := by simpa using hstatic
      refine asks_forM fun o ho => ?_
      refine Asks.bind (asks_request (hR _ (.look (hreceivers o ho)))) fun x hx => ?_
      split
      · trivial
      · rename_i m hm
        exact asks_runsOn (x := pure ())
          (fun r hr => hR r (.run hno' hstatic' (hreceivers o ho) hx hm hr)) trivial

/-! ## Models -/

/-- What the model of classes may ask for when a variable refers to more: the receivers, and the
meta objects that calls yield on them. -/
inductive ClassModel.Asked (p : Program) (A : (r : Request) → r.Answer → Prop) (m : ClassModel)
    (v : QVar) (delta : ObjSet) : Request → Prop
  | look {o} (ho : o ∈ delta) : Asked p A m v delta (.obj o.item)
  | yield {i api result o x made r} (hmem : (v.item, (i, api)) ∈ m.relevant.pairs)
      (hresult : (p.invoke i).result = some result) (ho : o ∈ delta) (hx : A (.obj o.item) x)
      (hmade : made ∈ yields p api x) (hr : Presenting A v.context result made r) :
      Asked p A m v delta r

/-- The model of classes yields one meta object after the other. -/
theorem ClassModel.asks_grown {m : ClassModel}
    (hR : ∀ r, ClassModel.Asked env.program A m v delta r → R r) :
    (m.grown env v delta).Asks R A Any := by
  refine asks_forM fun ⟨i, api⟩ hmem => asks_option_forM fun result hresult =>
    asks_forM fun o ho => ?_
  refine Asks.bind (asks_request (hR _ (.look ho))) fun x hx => ?_
  have hyield : ∀ made ∈ yields env.program api x, ∀ r,
      Presenting A v.context result made r → R r := fun made hmade r hr =>
    hR r (.yield (Waitlist.mem_get.1 hmem) hresult ho hx hmade hr)
  -- all meta objects are made before the first of them is handed on
  refine Asks.bind (asks_mapM_forall (S := fun j => ∃ made ∈ yields env.program api x,
    A (.mock made) j) fun made hmade => ?_) fun metas hmetas => asks_forM fun j hj => ?_
  · exact (asks_request (hyield made hmade _ .make)).mono fun j hj => ⟨made, hmade, hj⟩
  · obtain ⟨made, hmade, hj⟩ := hmetas j hj
    exact (asks_request (hyield made hmade _ (.result hj))).mono fun _ _ => trivial

/-- A variable that a call depends on when it looks methods up or invokes them. -/
def Concerns (p : Program) (i : InvokeId) (w : VarId) : Prop :=
  w ∈ (p.invoke i).base ∨ w ∈ (p.invoke i).args.head?

/-- What the model of strings may ask for when a variable refers to more: the names and the classes
of a call, and the meta objects that these name. -/
inductive StringModel.Asked (p : Program) (A : (r : Request) → r.Answer → Prop) (m : StringModel)
    (v : QVar) (delta : ObjSet) : Request → Prop
  | lookNew {o} (ho : o ∈ delta) : Asked p A m v delta (.obj o.item)
  | read {i api w} (hmem : (v.item, (i, api)) ∈ m.relevant.pairs) (hw : Concerns p i w) :
      Asked p A m v delta (.pointsTo (.var ⟨v.context, w⟩))
  | look {i api w o} (hmem : (v.item, (i, api)) ∈ m.relevant.pairs) (hw : Concerns p i w)
      (ho : Reads A v delta w o) : Asked p A m v delta (.obj o.item)
  | cls {i api result o x c r} (hmem : (v.item, (i, api)) ∈ m.relevant.pairs)
      (hresult : (p.invoke i).result = some result) (ho : o ∈ delta) (hx : A (.obj o.item) x)
      (hc : x.string?.filter p.hasClass = some c)
      (hr : Presenting A v.context result (classMeta (.cls c)) r) : Asked p A m v delta r
  | method {i api result n r} (hmem : (v.item, (i, api)) ∈ m.relevant.pairs)
      (hresult : (p.invoke i).result = some result)
      (hn : ∃ className name, n ∈ methodsFor p api className name)
      (hr : Presenting A v.context result (methodMeta n) r) : Asked p A m v delta r

section Strings

variable {m : StringModel} {i : InvokeId} {api : Api}

/-- Each text that names a class yields the meta object of the class. -/
theorem StringModel.asks_lookUpClass (hmem : (v.item, (i, api)) ∈ m.relevant.pairs)
    (hR : ∀ r, StringModel.Asked env.program A m v delta r → R r) :
    (lookUpClass env v i delta).Asks R A Any := by
  refine asks_option_forM fun result hresult => asks_forM fun o ho => ?_
  refine Asks.bind (asks_request (hR _ (.lookNew ho))) fun x hx => ?_
  split
  · trivial
  · rename_i c hc
    exact asks_present fun r hr => hR r (.cls hmem hresult ho hx hc hr)

/-- Classes and names are looked at pair by pair. -/
theorem StringModel.asks_lookUpMethod (hmem : (v.item, (i, api)) ∈ m.relevant.pairs)
    (hR : ∀ r, StringModel.Asked env.program A m v delta r → R r) :
    (lookUpMethod env v delta i api).Asks R A Any := by
  unfold lookUpMethod
  dsimp only
  split
  · rename_i base n rest result hbase hargs hresult
    have hb : Concerns env.program i base := .inl hbase
    have hn : Concerns env.program i n := .inr (by rw [hargs]; rfl)
    suffices hnames : ∀ classes : ObjSet, (∀ o ∈ classes, Reads A v delta base o) → _ by
      split
      · rename_i hsame
        exact Asks.bind (asks_varPointsTo hsame.1 (hR _ (.read hmem hb))) hnames
      · exact Asks.bind (asks_seenIn (hR _ (.read hmem hb))) hnames
    intro classes hclasses
    refine Asks.bind (asks_seenIn (hR _ (.read hmem hn))) fun names hnames => ?_
    refine asks_forM fun c hc => ?_
    refine Asks.bind (asks_request (hR _ (.look hmem hb (hclasses c hc)))) fun classObj _ => ?_
    refine asks_option_forM fun className _ => asks_forM fun o ho => ?_
    refine Asks.bind (asks_request (hR _ (.look hmem hn (hnames o ho)))) fun constant _ => ?_
    refine asks_option_forM fun methodName _ => asks_forM fun x hx => ?_
    exact asks_present fun r hr => hR r (.method hmem hresult ⟨className, methodName, hx⟩ hr)
  · trivial

/-- Every call that watches the variable looks up its classes or methods. -/
theorem StringModel.asks_grown (hR : ∀ r, StringModel.Asked env.program A m v delta r → R r) :
    (m.grown env v delta).Asks R A Any := by
  refine asks_forM fun ⟨i, api⟩ hget => ?_
  have hmem := Waitlist.mem_get.1 hget
  dsimp only
  split
  · exact asks_lookUpClass hmem hR
  · exact asks_lookUpClass hmem hR
  · exact asks_lookUpMethod hmem hR

end Strings

/-- An object that is seen when methods are invoked: where one variable is both the base and the
receiver of the call, all that the changed variable refers to. -/
def ActionModel.Meets (A : (r : Request) → r.Answer → Prop) (v : QVar) (delta : ObjSet)
    (base : VarId) (receiver : Option VarId) (w : VarId) (o : QObj) : Prop :=
  (receiver = some base ∧ ∃ os, A (.pointsTo (.var v)) os ∧ o ∈ os) ∨
    (receiver ≠ some base ∧ Reads A v delta w o)

/-- What the model of actions may ask for when a variable refers to more: the objects that its
calls make, and the methods that they invoke. -/
inductive ActionModel.Asked (p : Program) (A : (r : Request) → r.Answer → Prop) (m : ActionModel)
    (v : QVar) (delta : ObjSet) : Request → Prop
  | lookNew {o} (ho : o ∈ delta) : Asked p A m v delta (.obj o.item)
  | make {i api o x type constructor? call r} (hmem : (v.item, (i, api)) ∈ m.relevant.pairs)
      (ho : o ∈ delta) (hx : A (.obj o.item) x)
      (hproduct : product? p i api x = some (type, constructor?, call))
      (hr : Instantiating p A m.made ⟨v.context, i⟩ type constructor? call r) :
      Asked p A m v delta r
  | readAll : Asked p A m v delta (.pointsTo (.var v))
  | read {i api w} (hmem : (v.item, (i, api)) ∈ m.relevant.pairs) (hw : Concerns p i w) :
      Asked p A m v delta (.pointsTo (.var ⟨v.context, w⟩))
  | look {i api base o} (hmem : (v.item, (i, api)) ∈ m.relevant.pairs)
      (hbase : (p.invoke i).base = some base)
      (ho : Meets A v delta base (p.invoke i).args.head? base o) :
      Asked p A m v delta (.obj o.item)
  | invoke {i api base o x target r} (hmem : (v.item, (i, api)) ∈ m.relevant.pairs)
      (hapi : api ≠ .classNewInstance ∧ api ≠ .constructorNewInstance)
      (hbase : (p.invoke i).base = some base)
      (ho : Meets A v delta base (p.invoke i).args.head? base o) (hx : A (.obj o.item) x)
      (htarget : denotedMethod? x = some target)
      (hr : Invoking p A ⟨v.context, (p.invoke i).id⟩ target
        (fun o => ∃ w ∈ (p.invoke i).args.head?,
          Meets A v delta base (p.invoke i).args.head? w o) (p.invoke i).args[1]? r) :
      Asked p A m v delta r

section Actions

variable {m : ActionModel} {i : InvokeId} {api : Api}

/-- An object is looked at, and something is made of it if it denotes something. -/
theorem ActionModel.asks_make {table : MockTable} {o : QObj} (hlook : R (.obj o.item))
    (hR : ∀ x type constructor? call, A (.obj o.item) x →
      product? env.program site.item api x = some (type, constructor?, call) →
      ∀ r, Instantiating env.program A table site type constructor? call r → R r) :
    (make env site api table o).Asks R A (table.Fills env.program A (· = site.item)) := by
  refine Asks.bind (asks_request hlook) fun x hx => ?_
  split
  · exact .refl table
  · rename_i type constructor? call hproduct
    exact asks_newInstance (hR x type constructor? call hx hproduct)

/-- The base and the receivers are looked at together if they are one variable. -/
theorem ActionModel.asks_pairs {base : VarId} {receiver : Option VarId}
    (hall : R (.pointsTo (.var v)))
    (hR : ∀ w, w = base ∨ w ∈ receiver → R (.pointsTo (.var ⟨v.context, w⟩))) :
    (pairs v delta base receiver).Asks R A fun x =>
      (∀ o ∈ x.1, Meets A v delta base receiver base o) ∧
        ∀ o ∈ x.2, ∃ w ∈ receiver, Meets A v delta base receiver w o := by
  have hbase := hR base (.inl rfl)
  unfold pairs
  split
  · refine Asks.bind (asks_seenIn hbase) fun metas hmetas => ⟨fun o ho => ?_, fun o ho => ?_⟩
    · exact .inr ⟨by simp, hmetas o ho⟩
    · exact absurd ho (OrderedSet.not_mem_empty o)
  · rename_i r
    have hr := hR r (.inr rfl)
    split
    · rename_i hsame
      subst hsame
      refine Asks.bind (asks_request hall) fun all hall => ⟨fun o ho => ?_, fun o ho => ?_⟩
      · exact .inl ⟨rfl, all, hall, ho⟩
      · exact ⟨r, rfl, .inl ⟨rfl, all, hall, ho⟩⟩
    · rename_i hne
      refine Asks.bind (asks_seenIn hbase) fun metas hmetas => ?_
      refine Asks.bind (asks_seenIn hr) fun receivers hreceivers => ?_
      exact ⟨fun o ho => .inr ⟨by simpa using hne, hmetas o ho⟩,
        fun o ho => ⟨r, rfl, .inr ⟨by simpa using hne, hreceivers o ho⟩⟩⟩

/-- Every method that the base denotes is invoked on every receiver. -/
theorem ActionModel.asks_invokeAll (hmem : (v.item, (i, api)) ∈ m.relevant.pairs)
    (hapi : api ≠ .classNewInstance ∧ api ≠ .constructorNewInstance)
    (hR : ∀ r, ActionModel.Asked env.program A m v delta r → R r) :
    (invokeAll env v delta (env.program.invoke i)).Asks R A Any := by
  unfold invokeAll
  split
  · trivial
  · rename_i base hbase
    refine Asks.bind (asks_pairs (hR _ .readAll) fun w hw => hR _ (.read hmem ?_))
      fun pair hpair => asks_forM fun o ho => ?_
    · rcases hw with rfl | hw
      · exact .inl hbase
      · exact .inr hw
    refine Asks.bind (asks_request (hR _ (.look hmem hbase (hpair.1 o ho)))) fun x hx => ?_
    refine asks_option_forM fun target htarget => asks_invokeMethod hpair.2 fun r hr => ?_
    exact hR r (.invoke hmem hapi hbase (hpair.1 o ho) hx htarget hr)

/-- Every call that watches the variable acts, with the table that the calls before it have left. -/
theorem ActionModel.asks_grown (hR : ∀ r, ActionModel.Asked env.program A m v delta r → R r) :
    (m.grown env v delta).Asks R A fun m' => ∃ table, m.made.Fills env.program A
      (fun i => ∃ api, (v.item, (i, api)) ∈ m.relevant.pairs) table ∧
        m' = { m with made := table } := by
  refine Asks.bind (asks_foldlM (.refl m.made) ?_) fun table htable => ⟨table, htable, rfl⟩
  rintro ⟨i, api⟩ hget table htable
  have hmem := Waitlist.mem_get.1 hget
  -- a table that was filled before hands out what the first one would have handed out
  have hmake : (delta.toList.foldlM (make env ⟨v.context, i⟩ api) table).Asks R A
      (m.made.Fills env.program A fun i => ∃ api, (v.item, (i, api)) ∈ m.relevant.pairs) := by
    refine asks_foldlM htable fun o ho table htable => ?_
    refine (asks_make (hR _ (.lookNew ho)) fun x type constructor? call hx hproduct r hr =>
      hR r (.make hmem ho hx hproduct (hr.of_fills htable))).mono fun table' hnew => ?_
    exact htable.trans (hnew.mono fun _ hi => hi ▸ ⟨api, hmem⟩)
  cases api with
  | classNewInstance =>
      dsimp only
      rw [makeOfClass_eq]
      exact hmake
  | constructorNewInstance =>
      dsimp only
      rw [makeByConstructor_eq]
      exact hmake
  | forName | loadClass | getClass | getConstructor | getDeclaredConstructor | getMethod
  | getDeclaredMethod | methodInvoke =>
      exact Asks.bind (asks_invokeAll hmem (by simp) hR) fun _ _ => htable

end Actions

/-! ## The log -/

/-- What a covered call may ask for under a context. -/
inductive LogModel.Acting (p : Program) (A : (r : Request) → r.Answer → Prop) (table : MockTable)
    (c : ContextId) (claim : Claim) : Request → Prop
  | present {className result r} (hapi : claim.api = .forName)
      (htarget : claim.target = .cls className)
      (hresult : (p.invoke claim.site).result = some result)
      (hr : Presenting A c result (classMeta (.cls className)) r) : Acting p A table c claim r
  | ofClass {className r} (hapi : claim.api = .classNewInstance)
      (htarget : claim.target = .cls className)
      (hr : Instantiating p A table ⟨c, claim.site⟩ (.cls className)
        (p.defaultConstructor? className) { api := .classNewInstance, args := none } r) :
      Acting p A table c claim r
  | byConstructor {target r} (hapi : claim.api = .constructorNewInstance)
      (htarget : claim.target = .method target)
      (hr : Instantiating p A table ⟨c, claim.site⟩ (p.method target).declaringType (some target)
        { api := .constructorNewInstance, args := (p.invoke claim.site).args.head? } r) :
      Acting p A table c claim r
  | receivers {receiver} (hreceiver : (p.invoke claim.site).args.head? = some receiver) :
      Acting p A table c claim (.pointsTo (varPointer c receiver))
  | invoke {target r} (hapi : claim.api = .methodInvoke) (htarget : claim.target = .method target)
      (hr : Invoking p A ⟨c, claim.site⟩ target
        (fun o => ∃ receiver ∈ (p.invoke claim.site).args.head?,
          ∃ os, A (.pointsTo (varPointer c receiver)) os ∧ o ∈ os)
        (p.invoke claim.site).args[1]? r) : Acting p A table c claim r

/-- The model afterwards, if covered calls that are as {lit}`C` says have acted: it may have made
objects for them, and may wait on their receivers. -/
structure LogModel.Becomes (p : Program) (A : (r : Request) → r.Answer → Prop) (C : Claim → Prop)
    (m m' : LogModel) : Prop where
  entries : m'.entries = m.entries
  claims : m'.claims = m.claims
  made : m.made.Fills p A (fun i => ∃ claim, C claim ∧ claim.site = i) m'.made
  receivers : ∀ v i target, (v, (i, target)) ∈ m'.receivers.pairs →
    (v, (i, target)) ∈ m.receivers.pairs ∨ ∃ claim, C claim ∧ claim.site = i ∧
      claim.api = .methodInvoke ∧ claim.target = .method target ∧
      (p.invoke i).args.head? = some v

section Logs

variable {C : Claim → Prop} {m m' m'' : LogModel} {claim : Claim} {c : ContextId}

namespace LogModel.Becomes

theorem refl (m : LogModel) : m.Becomes p A C m := ⟨rfl, rfl, .refl _, fun _ _ _ => .inl⟩

theorem mono {C' : Claim → Prop} (h : m.Becomes p A C m') (hC : ∀ claim, C claim → C' claim) :
    m.Becomes p A C' m' where
  entries := h.entries
  claims := h.claims
  made := h.made.mono fun _ ⟨claim, hclaim, hi⟩ => ⟨claim, hC claim hclaim, hi⟩
  receivers := fun v i target hmem => (h.receivers v i target hmem).imp_right
    fun ⟨claim, hclaim, hrest⟩ => ⟨claim, hC claim hclaim, hrest⟩

theorem trans (h : m.Becomes p A C m') (h' : m'.Becomes p A C m'') : m.Becomes p A C m'' where
  entries := h'.entries.trans h.entries
  claims := h'.claims.trans h.claims
  made := h.made.trans h'.made
  receivers := fun v i target hmem =>
    (h'.receivers v i target hmem).elim (h.receivers v i target) .inr

end LogModel.Becomes

/-- Whatever a call asks for with a later table it could have asked for with the first one. -/
theorem LogModel.Acting.of_fills {W : InvokeId → Prop} {table table' : MockTable} {r : Request}
    (h : table.Fills p A W table') (hr : Acting p A table' c claim r) :
    Acting p A table c claim r := by
  cases hr with
  | present hapi htarget hresult hr => exact .present hapi htarget hresult hr
  | ofClass hapi htarget hr => exact .ofClass hapi htarget (hr.of_fills h)
  | byConstructor hapi htarget hr => exact .byConstructor hapi htarget (hr.of_fills h)
  | receivers hreceiver => exact .receivers hreceiver
  | invoke hapi htarget hr => exact .invoke hapi htarget hr

/-- A covered call acts as its entry says. -/
theorem LogModel.asks_act (hR : ∀ r, Acting env.program A m.made c claim r → R r) :
    (m.act env c claim).Asks R A (m.Becomes env.program A (· = claim)) := by
  have hmade : ∀ {table}, m.made.Fills env.program A (· = claim.site) table →
      m.Becomes env.program A (· = claim) { m with made := table } := fun htable =>
    ⟨rfl, rfl, htable.mono fun _ hi => ⟨claim, rfl, hi.symm⟩, fun _ _ _ => .inl⟩
  unfold act
  dsimp only
  split
  · rename_i className hapi htarget
    refine Asks.bind (asks_option_forM fun result hresult => ?_) fun _ _ => .refl m
    exact asks_present fun r hr => hR r (.present hapi htarget hresult hr)
  · rename_i className hapi htarget
    exact Asks.bind (asks_newInstance fun r hr => hR r (.ofClass hapi htarget hr))
      fun table htable => hmade htable
  · rename_i target hapi htarget
    exact Asks.bind (asks_newInstance fun r hr => hR r (.byConstructor hapi htarget hr))
      fun table htable => hmade htable
  · rename_i target hapi htarget
    have hinvoke : ∀ r, Invoking env.program A ⟨c, claim.site⟩ target
        (fun o => ∃ receiver ∈ (env.program.invoke claim.site).args.head?,
          ∃ os, A (.pointsTo (varPointer c receiver)) os ∧ o ∈ os)
        (env.program.invoke claim.site).args[1]? r → R r := fun r hr =>
      hR r (.invoke hapi htarget hr)
    split
    · rename_i hargs
      rw [hargs] at hinvoke
      refine Asks.bind (asks_invokeMethod ?_ hinvoke) fun _ _ => .refl m
      exact fun o ho => absurd ho (OrderedSet.not_mem_empty o)
    · rename_i receiver rest hargs
      have hhead : (env.program.invoke claim.site).args.head? = some receiver := by rw [hargs]; rfl
      have hrest : (env.program.invoke claim.site).args[1]? = rest.head? := by
        rw [hargs, List.head?_eq_getElem?, List.getElem?_cons_succ]
      rw [hrest] at hinvoke
      refine Asks.bind (asks_request (hR _ (.receivers hhead))) fun receivers hreceivers => ?_
      refine Asks.bind (asks_invokeMethod (fun o ho => ?_) hinvoke) fun _ _ => ?_
      · exact ⟨receiver, hhead, receivers, hreceivers, ho⟩
      · refine ⟨rfl, rfl, .refl _, fun v i target' hmem => ?_⟩
        rcases Waitlist.mem_register.1 hmem with heq | hmem
        · cases heq
          exact .inr ⟨claim, rfl, rfl, hapi, htarget, hhead⟩
        · exact .inl hmem
  · exact .refl m

/-- A covered call of a method. -/
def LogModel.Covers (m : LogModel) (q : QMethod) (claim : Claim) : Prop :=
  claim ∈ m.claims ∧ claim.caller = q.item

/-- All covered calls of a method act. -/
theorem LogModel.asks_reached {q : QMethod}
    (hR : ∀ claim, m.Covers q claim → ∀ r, Acting env.program A m.made q.context claim r → R r) :
    (m.reached env q).Asks R A (m.Becomes env.program A (m.Covers q)) := by
  refine asks_foldlM (.refl m) fun claim hclaim m' hm' => ?_
  have hcovers : m.Covers q claim := by simpa [Covers] using hclaim
  refine (asks_act fun r hr => hR claim hcovers r (hr.of_fills hm'.made)).mono fun m'' hnew => ?_
  exact hm'.trans (hnew.mono fun _ hsame => hsame ▸ hcovers)

/-- What the log may ask for when a receiver refers to more. -/
def LogModel.Asked (p : Program) (A : (r : Request) → r.Answer → Prop) (m : LogModel) (v : QVar)
    (delta : ObjSet) (r : Request) : Prop :=
  ∃ i target, (v.item, (i, target)) ∈ m.receivers.pairs ∧
    Invoking p A ⟨v.context, i⟩ target (· ∈ delta) (p.invoke i).args[1]? r

/-- The methods that wait for a receiver are invoked on what is new to it. -/
theorem LogModel.asks_grown (hR : ∀ r, LogModel.Asked env.program A m v delta r → R r) :
    (m.grown env v delta).Asks R A Any :=
  asks_forM fun ⟨i, target⟩ hget => asks_invokeMethod (fun _ ho => ho) fun r hr =>
    hR r ⟨i, target, Waitlist.mem_get.1 hget, hr⟩

end Logs

/-! ## Arguments and results -/

/-- What is asked for to forward the arrays that a variable refers to, to the parameters of a
method. -/
inductive Forwarding (p : Program) (A : (r : Request) → r.Answer → Prop) (v : QVar)
    (callee : QMethod) : Request → Prop
  | arrays : Forwarding p A v callee (.pointsTo (.var v))
  | look {os o} (hos : A (.pointsTo (.var v)) os) (ho : o ∈ os) :
      Forwarding p A v callee (.obj o.item)
  | pass {os o x f} (hos : A (.pointsTo (.var v)) os) (ho : o ∈ os) (hx : A (.obj o.item) x)
      (harray : x.type.isArray = true)
      (hf : f ∈ arrayEdges (p.method callee.item) o callee.context) :
      Forwarding p A v callee (.addFlow f)

/-- An array of a variable that was forwarded to a method. -/
def Forwarded (A : (r : Request) → r.Answer → Prop) (v : QVar) (callee : QMethod → Prop)
    (x : QObj × QMethod) : Prop :=
  callee x.2 ∧ ∃ os, A (.pointsTo (.var v)) os ∧ x.1 ∈ os

section Arguments

variable {st : State}

/-- The elements of each array are forwarded, unless that was done before. -/
theorem asks_forwardArrays {forwarded : OrderedSet (QObj × QMethod)} {objects : ObjSet}
    {callee : QMethod} (hobjects : A (.pointsTo (.var v)) objects)
    (hR : ∀ r, Forwarding env.program A v callee r → R r) :
    (forwardArrays env forwarded objects callee).Asks R A fun forwarded' =>
      ∀ x ∈ forwarded', x ∈ forwarded ∨ Forwarded A v (· = callee) x := by
  refine asks_foldlM (fun _ => .inl) fun o ho forwarded' hforwarded => ?_
  refine Asks.bind (asks_request (hR _ (.look hobjects ho))) fun x hx => ?_
  split
  · rename_i hforward
    refine Asks.bind (asks_forM fun f hf => ?_) fun _ _ y hy => ?_
    · exact (asks_request (hR _ (.pass hobjects ho hx hforward.1 hf))).mono fun _ _ => trivial
    · rcases OrderedSet.mem_insert.1 hy with rfl | hy
      · exact .inr ⟨rfl, objects, hobjects, ho⟩
      · exact hforwarded y hy
  · exact hforwarded

/-- A method waits for arrays of its argument from then on. -/
theorem asks_passArguments {e : CallEdge} {call : ReflectiveCall}
    (hR : ∀ args, call.args = some args →
      ∀ r, Forwarding env.program A ⟨e.site.context, args⟩ e.callee r → R r) :
    (passArguments env st e call).Asks R A fun st' => st' = st ∨
      ∃ args forwarded, call.args = some args ∧
        (∀ x ∈ forwarded, x ∈ st.forwarded ∨
          Forwarded A ⟨e.site.context, args⟩ (· = e.callee) x) ∧
        st' = { st with
          argArrays := st.argArrays.register ⟨e.site.context, args⟩ e.callee, forwarded } := by
  unfold passArguments
  split
  · exact .inl rfl
  · rename_i args hargs
    dsimp only
    split
    · exact .inl rfl
    · refine Asks.bind (asks_request (hR args hargs _ .arrays)) fun objects hobjects => ?_
      refine Asks.bind (asks_forwardArrays hobjects (hR args hargs)) fun forwarded hforwarded => ?_
      exact .inr ⟨args, forwarded, hargs, hforwarded, rfl⟩

/-- All methods that wait for arrays of the variable get them. -/
theorem asks_wakeArguments (hR : ∀ callee, (v, callee) ∈ st.argArrays.pairs →
    ∀ r, Forwarding env.program A v callee r → R r) :
    (wakeArguments env st v).Asks R A fun st' => ∃ forwarded,
      (∀ x ∈ forwarded, x ∈ st.forwarded ∨
        Forwarded A v (fun callee => (v, callee) ∈ st.argArrays.pairs) x) ∧
      st' = { st with forwarded } := by
  unfold wakeArguments
  split
  · exact ⟨st.forwarded, fun _ => .inl, rfl⟩
  · rename_i hget
    obtain ⟨first, hfirst⟩ := List.exists_mem_of_ne_nil _ hget
    refine Asks.bind (asks_request (hR first (Waitlist.mem_get.1 hfirst) _ .arrays))
      fun objects hobjects => ?_
    refine Asks.bind (asks_foldlM (fun _ => .inl) fun callee hcallee forwarded hforwarded => ?_)
      fun forwarded hforwarded => ⟨forwarded, hforwarded, rfl⟩
    have hmem := Waitlist.mem_get.1 hcallee
    refine (asks_forwardArrays hobjects (hR callee hmem)).mono fun forwarded' hnew x hx => ?_
    rcases hnew x hx with hx | ⟨hx, hos⟩
    · exact hforwarded x hx
    · exact .inr ⟨hx ▸ hmem, hos⟩

end Arguments

/-! ## Reactions -/

section Reactions

variable {st : State}

/-- What the log and the models may ask for when a variable refers to more. -/
inductive State.Asked (p : Program) (A : (r : Request) → r.Answer → Prop) (st : State) (v : QVar)
    (delta : ObjSet) : Request → Prop
  | log {m r} (hm : st.log = some m) (hr : m.Asked p A v delta r) : Asked p A st v delta r
  | classes {r} (hr : st.classes.Asked p A v delta r) : Asked p A st v delta r
  | strings {m r} (hm : st.strings = some m) (hr : m.Asked p A v delta r) : Asked p A st v delta r
  | actions {r} (hr : st.actions.Asked p A v delta r) : Asked p A st v delta r

/-- The log comes first, and then the models one after the other. -/
theorem asks_grown (hR : ∀ r, st.Asked env.program A v delta r → R r) :
    (grown env st v delta).Asks R A fun st' => ∃ table, st.actions.made.Fills env.program A
      (fun i => ∃ api, (v.item, (i, api)) ∈ st.actions.relevant.pairs) table ∧
        st' = { st with actions := { st.actions with made := table } } := by
  refine Asks.bind (asks_option_forM fun m hm => LogModel.asks_grown fun r hr => hR r (.log hm hr))
    fun _ _ => ?_
  refine Asks.bind (ClassModel.asks_grown fun r hr => hR r (.classes hr)) fun _ _ => ?_
  refine Asks.bind (asks_option_forM fun m hm =>
    StringModel.asks_grown fun r hr => hR r (.strings hm hr)) fun _ _ => ?_
  refine Asks.bind (ActionModel.asks_grown fun r hr => hR r (.actions hr)) ?_
  rintro _ ⟨table, htable, rfl⟩
  exact ⟨table, htable, rfl⟩

/-- What the plugin may ask for at an event. -/
inductive Asked (p : Program) (A : (r : Request) → r.Answer → Prop) (st : State) :
    Event → Request → Prop
  | act {q m claim r} (hm : st.log = some m) (hclaim : m.Covers q claim)
      (hr : LogModel.Acting p A m.made q.context claim r) : Asked p A st (.methodIn q) r
  | pass {e call args r} (hk : e.kind = .reflective call) (hargs : call.args = some args)
      (hr : Forwarding p A ⟨e.site.context, args⟩ e.callee r) : Asked p A st (.edge e) r
  | result {e call f} (hk : e.kind = .reflective call) (hf : f ∈ resultEdges p e) :
      Asked p A st (.edge e) (.addFlow f)
  | wake {v delta callee r} (hmem : (v, callee) ∈ st.argArrays.pairs)
      (hr : Forwarding p A v callee r) : Asked p A st (.grown v delta) r
  | grown {v delta r} (hr : st.Asked p A v delta r) : Asked p A st (.grown v delta) r

/-- What the plugin may remember after an event. -/
inductive Became (p : Program) (A : (r : Request) → r.Answer → Prop) (st : State) :
    Event → State → Prop
  | same {e} : Became p A st e st
  | offered {m} : Became p A st (.method m) ((p.invokesIn m).foldl State.offer st)
  | acted {q m m'} (hm : st.log = some m) (hm' : m.Becomes p A (m.Covers q) m') :
      Became p A st (.methodIn q) { st with log := some m' }
  | passed {e call args forwarded} (hk : e.kind = .reflective call) (hargs : call.args = some args)
      (hforwarded : ∀ x ∈ forwarded, x ∈ st.forwarded ∨
        Forwarded A ⟨e.site.context, args⟩ (· = e.callee) x) :
      Became p A st (.edge e)
        { st with argArrays := st.argArrays.register ⟨e.site.context, args⟩ e.callee, forwarded }
  | grown {v delta forwarded table}
      (hforwarded : ∀ x ∈ forwarded, x ∈ st.forwarded ∨
        Forwarded A v (fun callee => (v, callee) ∈ st.argArrays.pairs) x)
      (htable : st.actions.made.Fills p A
        (fun i => ∃ api, (v.item, (i, api)) ∈ st.actions.relevant.pairs) table) :
      Became p A st (.grown v delta)
        { st with forwarded, actions := { st.actions with made := table } }

/-- The plugin asks for what is listed and for nothing else, and so it is with what it
remembers. -/
theorem asks_react (e : Event) :
    (react env e st).Asks (Asked env.program A st e) A (Became env.program A st e) := by
  cases e with
  | start | finish | unresolved => exact .same
  | method m => exact .offered
  | methodIn q =>
      unfold react
      dsimp only
      split
      · exact .same
      · rename_i m hm
        exact Asks.bind (LogModel.asks_reached fun claim hclaim r hr => .act hm hclaim hr)
          fun m' hm' => .acted hm hm'
  | edge e =>
      unfold react
      dsimp only
      split
      · rename_i call hk
        refine Asks.bind (asks_passArguments fun args hargs r hr => .pass hk hargs hr)
          fun st' hst' => Asks.bind (asks_forM fun f hf => ?_) fun _ _ => ?_
        · exact (asks_request (.result hk hf)).mono fun _ _ => trivial
        · obtain rfl | ⟨args, forwarded, hargs, hforwarded, rfl⟩ := hst'
          · exact .same
          · exact .passed hk hargs hforwarded
      · exact .same
  | grown v delta =>
      refine Asks.bind (asks_wakeArguments fun callee hmem r hr => .wake hmem hr) ?_
      rintro _ ⟨forwarded, hforwarded, rfl⟩
      -- what is forwarded does not concern the models
      have hmodels : ∀ r, State.Asked env.program A { st with forwarded } v delta r →
          st.Asked env.program A v delta r := by
        rintro r (⟨hm, hr⟩ | hr | ⟨hm, hr⟩ | hr)
        · exact .log hm hr
        · exact .classes hr
        · exact .strings hm hr
        · exact .actions hr
      refine (asks_grown fun r hr => .grown (hmodels r hr)).mono ?_
      rintro _ ⟨table, htable, rfl⟩
      exact .grown hforwarded htable

end Reactions

end PointsTo.Reflection
