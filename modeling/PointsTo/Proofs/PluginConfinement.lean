import PointsTo.Proofs.Confinement
import PointsTo.Proofs.LambdaRequests
import PointsTo.Proofs.Members
import PointsTo.Proofs.ReflectionRequests

/-!
# The provided plugins stay within the universe

What the plugins for lambdas and for reflection ask for is of the universe, provided that what
they remember and what they are told of is.  They make objects of types that the program
declares or that other objects have, call methods that the program declares, and remember call
sites that they were offered.

Main results:

- {lit}`Lambda.State.Confined`, {lit}`Reflection.State.Confined`, {lit}`Member.Confined`: what a
  plugin remembers is of the universe.
- {lit}`Event.Confined`: what plugins are told of is of the universe.
- Theorem {lit}`Member.confined_react`: a reaction asks only for what is of the universe, and so
  is what is remembered after it.
- Theorem {lit}`Analysis.confined_members`: the plugins of an analysis begin like this.
-/

namespace PointsTo

open Service

variable {U : Universe}

/-! ## Running methods -/

section Requests

variable {A : (r : Request) → r.Answer → Prop} {r : Request} {site : QSite} {m : MethodId}
  {kind : CallKind}

/-- A method of the universe may be run at a call site of the universe. -/
theorem Request.Runs.confined {receiver : Option QObj}
    (hr : Request.Runs A site receiver m kind r) (hsite : site.item ∈ U.sites)
    (hreceiver : ∀ o ∈ receiver, o.item.index < U.limit) (hm : m ∈ U.methods)
    (hkind : kind.Confined U site.item) : r.Confined U := by
  cases hr with
  | context => exact ⟨hsite, hreceiver⟩
  | edge => exact ⟨hsite, hm, hkind⟩

/-- A method of the universe may be run on an object of it. -/
theorem Request.RunsOn.confined {o : QObj} (hr : Request.RunsOn U.program A site o m kind r)
    (hsite : site.item ∈ U.sites) (ho : o.item.index < U.limit) (hm : m ∈ U.methods)
    (hkind : kind.Confined U site.item) : r.Confined U := by
  cases hr with
  | run hr =>
      refine hr.confined hsite ?_ hm hkind
      rintro _ ⟨⟩
      exact ho
  | receiver _ hthis => exact Universe.mem_vars_of_receiver hthis

end Requests

/-! ## Tables of stand-ins -/

namespace MockTable

/-- The numbers of the stand-ins in a table are below the limit. -/
def Confined (U : Universe) (t : MockTable) : Prop := ∀ x ∈ t.entries, x.2.index < U.limit

variable {t t' : MockTable}

/-- A new table has nothing outside the universe. -/
theorem confined_new (kind : MockKind) : (new kind).Confined U :=
  fun _ h => absurd h List.not_mem_nil

/-- A table may ask for the stand-in for a call site of the universe. -/
theorem wanted_mem_mocks {i : InvokeId} {type : JavaType} (hi : i ∈ U.sites)
    (htype : type ∈ U.types) : t.wanted U.program i type ∈ U.mocks := by
  refine ⟨.inl (.inl ⟨i, hi, rfl⟩), htype, ?_⟩
  rintro _ ⟨⟩
  exact U.container_mem_methods i

/-- What a table hands out is an object of the universe. -/
theorem Confined.hands {p : Program} {i : InvokeId} {type : JavaType} {o : ObjId}
    (h : t.Confined U) (ho : t.Hands p (Request.Assures U) i type o) : o.index < U.limit :=
  ho.elim (h _) id

/-- A table that is filled stays in the universe. -/
theorem Confined.of_fills {p : Program} {W : InvokeId → Prop} (h : t.Confined U)
    (hfills : t.Fills p (Request.Assures U) W t') : t'.Confined U :=
  fun x hx => (hfills.entries x hx).elim (h x) fun ⟨_, _, _, _, ho⟩ => ho

end MockTable

/-! ## Lambdas -/

namespace Lambda

/-- What a call that waits will do is of the universe. -/
structure PendingCall.Confined (U : Universe) (r : PendingCall) : Prop where
  site : r.site.item ∈ U.sites
  call : (CallKind.lambda r.call).Confined U r.site.item

/-- What the plugin remembers is of the universe. -/
structure State.Confined (U : Universe) (st : State) : Prop where
  constructed : st.constructed.Confined U
  pending : ∀ {v r}, (v, r) ∈ st.pending.pairs → r.Confined U

/-- The plugin begins inside the universe. -/
theorem State.confined_new : State.Confined U {} :=
  ⟨MockTable.confined_new _, fun h => absurd h (OrderedSet.not_mem_empty _)⟩

variable {r : Request} {st : State} {maker : InvokeId} {site : QSite} {handle : MethodHandle}
  {call : LambdaCall}

/-- The objects of a method's dynamic sites have the types that the sites say. -/
theorem made_mem_mocks {m : MethodId} {call : Invoke} {d : DynamicCall} (hm : m ∈ U.methods)
    (hcall : call ∈ U.program.invokesIn m) (hd : call.dynamic = some d) :
    made m call d ∈ U.mocks := by
  obtain ⟨i, _, rfl⟩ := Program.mem_invokesIn.1 hcall
  refine ⟨.inl (.inl ⟨_, U.id_mem_sites i, rfl⟩), ?_, ?_⟩
  · exact Universe.mem_types_of_madeTypes hd List.mem_cons_self
  · rintro _ ⟨⟩
    exact hm

/-- A call that waits may be resolved. -/
theorem Resolving.confined {v : QVar} {waiting : PendingCall}
    (hr : Resolving U.program (Request.Assures U) v waiting r) (hwaiting : waiting.Confined U) :
    r.Confined U := by
  cases hr with
  | receivers | look => trivial
  | run hos ho _ hm hr =>
      refine hr.confined hwaiting.site ?_ ?_ hwaiting.call
      · rintro _ ⟨⟩
        exact hos _ ho
      · exact Universe.mem_methods_of_lists (Program.lists_of_pendingTarget? hm)

/-- The method of a handle may be run; the object that a reference to a constructor makes has the
class of the constructor. -/
theorem Handling.confined
    (hr : Handling U.env (Request.Assures U) st maker site handle call r) (hst : st.Confined U)
    (hmaker : maker ∈ U.sites) (hsite : site.item ∈ U.sites)
    (htype : .cls handle.target.className ∈ U.types)
    (hcall : (CallKind.lambda call).Confined U site.item) : r.Confined U := by
  cases hr with
  | construct _ hr =>
      cases hr with
      | make => exact MockTable.wanted_mem_mocks hmaker htype
      | result _ hv => exact Universe.mem_vars_of_result hv
      | run hi hm hr =>
          exact hr.confined hsite (hst.constructed.hands hi)
            (Universe.mem_methods_of_lists (Program.lists_of_resolve? hm)) hcall
  | static _ hm hr =>
      exact hr.confined hsite (by simp)
        (Universe.mem_methods_of_lists (Program.lists_of_resolve? hm)) hcall
  | resolve _ _ hr => exact hr.confined ⟨hsite, hcall⟩

/-- A call on a lambda object captures what the site that made the object says. -/
theorem Calls.confined {o : QObj} {i : InvokeId}
    (h : Calls U.program (Request.Assures U) o i maker handle call) :
    maker ∈ U.sites ∧ .cls handle.target.className ∈ U.types ∧
      (CallKind.lambda call).Confined U i := by
  obtain ⟨⟨x, hx, hmock, d, hd, _, hhandle⟩, rfl⟩ := h
  refine ⟨?_, ?_, U.args_mem_captures maker, rfl⟩
  · exact Universe.mem_sites_of_mockSites
      (Universe.mem_mockSites_of_obj hx (by simp [Obj.mockSite?, hmock]))
  · refine Universe.mem_types_of_madeTypes hd (List.mem_cons_of_mem _ ?_)
    exact List.mem_map.2 ⟨handle, Option.mem_toList.2 hhandle, rfl⟩

/-- What is remembered after the method of a handle was run is of the universe. -/
theorem Handled.confined {st' : State}
    (hst' : Handled U.env (Request.Assures U) st maker site handle call st')
    (hst : st.Confined U) (hsite : site.item ∈ U.sites)
    (hcall : (CallKind.lambda call).Confined U site.item) : st'.Confined U := by
  cases hst' with
  | same => exact hst
  | constructed htable => exact ⟨hst.constructed.of_fills htable, hst.pending⟩
  | waiting =>
      refine ⟨hst.constructed, fun hmem => ?_⟩
      rcases Waitlist.mem_register.1 hmem with heq | hmem
      · cases heq
        exact ⟨hsite, hcall⟩
      · exact hst.pending hmem

end Lambda

/-! ## Events -/

/-- What plugins are told of is of the universe. -/
def Event.Confined (U : Universe) : Event → Prop
  | .method m => m ∈ U.methods
  | .unresolved _ _ site => site ∈ U.sites
  | .edge e => e.Confined U
  | .grown _ delta => ∀ o ∈ delta, o.item.index < U.limit
  | .start | .finish | .methodIn _ => True

/-- What is the case in a state within the universe is of the universe. -/
theorem Event.Holds.confined {s : Solver} {e : Event} (h : e.Holds U.env s)
    (hb : U.program.Built) (hs : s.Confined U) (hscoped : s.Scoped) : e.Confined U := by
  cases e with
  | start | finish | methodIn => trivial
  | method m => exact hs.reachable h
  | unresolved o c site =>
      obtain ⟨⟨v, _, _, huse⟩, _⟩ := h
      exact Universe.mem_sites_of_hasStmt (hb.mem_invokes.1 huse).1
  | edge e => exact hs.call (.inl h)
  | grown v delta => exact fun o ho => hs.obj_index_lt (hscoped.obj (h.2.1 o ho)).2

/-- A reaction of the plugin for lambdas stays in the universe. -/
theorem Lambda.confined_react {e : Event} {st : Lambda.State} (he : e.Confined U)
    (hst : st.Confined U) : (Lambda.react U.env e st).Confined U (Lambda.State.Confined U) := by
  refine (asks_react e).imp (fun r hr => ?_) fun st' hst' => ?_
  · cases hr with
    | create hcall hd => exact made_mem_mocks he hcall hd
    | assign _ hresult => exact Universe.mem_vars_of_result hresult
    | look => trivial
    | handle hcalls hr =>
        obtain ⟨hmaker, htype, hcall⟩ := hcalls.confined
        exact hr.confined hst hmaker he htype hcall
    | wake hmem hr => exact hr.confined (hst.pending hmem)
    | wire hk hf => exact (feeds_of_wiring hk hf).confined he
  · cases hst' with
    | same => exact hst
    | created => exact ⟨hst.constructed, hst.pending⟩
    | handled hcalls hst' => exact hst'.confined hst he hcalls.confined.2.2

/-! ## Reflection -/

namespace Reflection

variable {site : QSite} {v : QVar} {delta : ObjSet}

/-! ### Meta objects -/

/-- Meta objects of its types are in the universe. -/
theorem classMeta_mem_mocks {t : JavaType} (h : t ∈ U.types) : classMeta t ∈ U.mocks :=
  ⟨.inl (.inr ⟨t, h, rfl⟩), .inl (.inl (.inl (.inl (by simp [classMeta])))), by simp [classMeta]⟩

/-- So are meta objects of its methods. -/
theorem methodMeta_mem_mocks {m : MethodId} (h : m ∈ U.methods) : methodMeta m ∈ U.mocks :=
  ⟨.inr ⟨m, h, rfl⟩, .inl (.inl (.inl (.inl (by simp [methodMeta])))), by simp [methodMeta]⟩

/-- So are those of constructors. -/
theorem constructorMeta_mem_mocks {m : MethodId} (h : m ∈ U.methods) :
    constructorMeta m ∈ U.mocks :=
  ⟨.inr ⟨m, h, rfl⟩, .inl (.inl (.inl (.inl (by simp [constructorMeta])))),
    by simp [constructorMeta]⟩

/-- A method that is denoted by an object of the universe is in it. -/
theorem mem_methods_of_denotedMethod? {o : Obj} {m : MethodId} (ho : o ∈ U.objects)
    (h : denotedMethod? o = some m) : m ∈ U.methods := by
  have hkind := denotedMethod?_eq_some.1 h
  exact Universe.mem_methods_of_mockSites
    (Universe.mem_mockSites_of_obj ho (by simp [Obj.mockSite?, hkind]))

/-- So is a constructor. -/
theorem mem_methods_of_denotedConstructor? {o : Obj} {m : MethodId} (ho : o ∈ U.objects)
    (h : denotedConstructor? o = some m) : m ∈ U.methods := by
  have hkind := denotedConstructor?_eq_some.1 h
  exact Universe.mem_methods_of_mockSites
    (Universe.mem_mockSites_of_obj ho (by simp [Obj.mockSite?, hkind]))

/-- Default constructors are in the universe. -/
theorem mem_methods_of_defaultConstructor? {c : String} {m : MethodId}
    (h : U.program.defaultConstructor? c = some m) : m ∈ U.methods :=
  Universe.mem_methods_of_lists (Program.lists_of_defaultConstructor? h)

/-- What an invocation leads to is in the universe, if its target is. -/
theorem mem_methods_of_invokedOn? {target m : MethodId} {type : JavaType}
    (htarget : target ∈ U.methods) (h : invokedOn? U.program target type = some m) :
    m ∈ U.methods := by
  rcases Program.lists_of_invokedOn? h with rfl | h
  · exact htarget
  · exact Universe.mem_methods_of_lists h

/-! ### Allocation and invocation -/

section Calls

variable {r : Request}

/-- Reflective allocation stays in the universe. -/
theorem Instantiating.confined {table : MockTable} {type : JavaType}
    {constructor? : Option MethodId} {call : ReflectiveCall}
    (hr : Instantiating U.program (Request.Assures U) table site type constructor? call r)
    (htable : table.Confined U) (hsite : site.item ∈ U.sites) (htype : type ∈ U.types)
    (hconstructor : ∀ m ∈ constructor?, m ∈ U.methods) (hargs : ∀ v ∈ call.args, v ∈ U.args) :
    r.Confined U := by
  cases hr with
  | make => exact MockTable.wanted_mem_mocks hsite htype
  | heapContext => trivial
  | result _ _ hw => exact Universe.mem_vars_of_result hw
  | @run _ _ m _ hi _ _ hm hr =>
      exact hr.confined hsite (htable.hands hi) (hconstructor m hm) hargs

/-- Reflective invocation stays in the universe. -/
theorem Invoking.confined {target : MethodId} {O : QObj → Prop} {args : Option VarId}
    (hr : Invoking U.program (Request.Assures U) site target O args r)
    (hsite : site.item ∈ U.sites) (htarget : target ∈ U.methods)
    (hreceivers : ∀ o, O o → o.item.index < U.limit) (hargs : ∀ v ∈ args, v ∈ U.args) :
    r.Confined U := by
  cases hr with
  | static _ _ hr => exact hr.confined hsite (by simp) htarget hargs
  | look => trivial
  | @run o _ _ _ _ _ ho _ hm hr =>
      exact hr.confined hsite (hreceivers o ho) (mem_methods_of_invokedOn? htarget hm) hargs

/-- What is read has a number below the limit, as what is new does. -/
theorem Reads.confined {w : VarId} {o : QObj} (h : Reads (Request.Assures U) v delta w o)
    (hdelta : ∀ o ∈ delta, o.item.index < U.limit) : o.item.index < U.limit := by
  obtain ⟨_, ho⟩ | ⟨_, hos, ho⟩ := h
  · exact hdelta o ho
  · exact hos o ho

/-- What is seen when methods are invoked are objects of the universe. -/
theorem ActionModel.Meets.confined {base w : VarId} {receiver : Option VarId} {o : QObj}
    (h : ActionModel.Meets (Request.Assures U) v delta base receiver w o)
    (hdelta : ∀ o ∈ delta, o.item.index < U.limit) : o.item.index < U.limit := by
  obtain ⟨_, _, hos, ho⟩ | ⟨_, h⟩ := h
  · exact hos o ho
  · exact h.confined hdelta

/-- A meta object of the universe may be handed on. -/
theorem Presenting.confined {A : (r : Request) → r.Answer → Prop} {c : ContextId} {result : VarId}
    {x : MockObj} (hr : Presenting A c result x r) (hx : x ∈ U.mocks) (hresult : result ∈ U.vars) :
    r.Confined U := by
  cases hr with
  | make => exact hx
  | result => exact hresult

end Calls

/-- The first argument and the second one of a call are of the universe. -/
theorem mem_args_of_head? {i : InvokeId} {w : VarId}
    (h : w ∈ (U.program.invoke i).args.head?) : w ∈ U.args := ⟨i, List.mem_of_mem_head? h⟩

/-- The arguments of call sites are in the universe. -/
theorem mem_args_of_getElem? {i : InvokeId} {j : Nat} {w : VarId}
    (h : w ∈ (U.program.invoke i).args[j]?) : w ∈ U.args := ⟨i, List.mem_of_getElem? h⟩

/-! ### Models -/

/-- What the model of classes yields are meta objects of the universe. -/
theorem confined_yields {api : Api} {receiver : Obj} (h : receiver ∈ U.objects) :
    ∀ x ∈ ClassModel.yields U.program api receiver, x ∈ U.mocks := by
  intro x hx
  rcases ClassModel.of_mem_yields hx with rfl | ⟨_, m, hm, rfl⟩
  · exact classMeta_mem_mocks (Universe.type_mem_types h)
  · exact constructorMeta_mem_mocks
      (Universe.mem_methods_of_lists (Program.lists_of_constructors hm))

/-- So are all of its requests. -/
theorem ClassModel.Asked.confined {m : ClassModel} {r : Request}
    (hr : m.Asked U.program (Request.Assures U) v delta r) : r.Confined U := by
  cases hr with
  | look => trivial
  | yield _ hresult _ hx hmade hr =>
      exact hr.confined (confined_yields hx _ hmade) (Universe.mem_vars_of_result hresult)

/-- The model of strings finds classes and methods of the universe only. -/
theorem StringModel.Asked.confined {m : StringModel} {r : Request}
    (hr : m.Asked U.program (Request.Assures U) v delta r) : r.Confined U := by
  cases hr with
  | lookNew | read | look => trivial
  | cls _ hresult _ _ hc hr =>
      have htype := Universe.mem_types_of_hasClass (Option.filter_eq_some_iff.1 hc).2
      exact hr.confined (classMeta_mem_mocks htype) (Universe.mem_vars_of_result hresult)
  | method _ hresult hn hr =>
      obtain ⟨_, _, hn⟩ := hn
      have hmethod := Universe.mem_methods_of_lists (Program.lists_of_methodsNamed hn)
      exact hr.confined (methodMeta_mem_mocks hmethod) (Universe.mem_vars_of_result hresult)

/-! ### Actions -/

/-- What the model of actions remembers is of the universe. -/
structure ActionModel.Confined (U : Universe) (m : ActionModel) : Prop where
  relevant : ∀ {v x}, (v, x) ∈ m.relevant.pairs → x.1 ∈ U.sites
  made : m.made.Confined U

/-- What a call makes of an object is of a type of the universe, and its constructor is a method
of the universe. -/
theorem ActionModel.confined_product? {i : InvokeId} {api : Api} {x : Obj} {type : JavaType}
    {constructor? : Option MethodId} {call : ReflectiveCall}
    (hproduct : product? U.program i api x = some (type, constructor?, call))
    (hx : x ∈ U.objects) :
    type ∈ U.types ∧ (∀ m ∈ constructor?, m ∈ U.methods) ∧ ∀ v ∈ call.args, v ∈ U.args := by
  cases produces_of_product? hproduct with
  | ofClass _ hclass =>
      exact ⟨Universe.mem_types_of_hasClass hclass,
        fun m hm => mem_methods_of_defaultConstructor? hm, by simp⟩
  | byConstructor hm =>
      refine ⟨U.declaringType_mem_types _, ?_, fun w hw => mem_args_of_head? hw⟩
      rintro _ ⟨⟩
      exact mem_methods_of_denotedConstructor? hx hm

/-- The model of actions makes and invokes within the universe. -/
theorem ActionModel.Asked.confined {m : ActionModel} {r : Request}
    (hr : m.Asked U.program (Request.Assures U) v delta r) (hm : m.Confined U)
    (hdelta : ∀ o ∈ delta, o.item.index < U.limit) : r.Confined U := by
  cases hr with
  | lookNew | readAll | read | look => trivial
  | make hmem _ hx hproduct hr =>
      obtain ⟨htype, hconstructor, hargs⟩ := confined_product? hproduct hx
      exact hr.confined hm.made (hm.relevant hmem) htype hconstructor hargs
  | invoke _ _ _ _ hx htarget hr =>
      refine hr.confined (U.id_mem_sites _) (mem_methods_of_denotedMethod? hx htarget) ?_
        fun w hw => mem_args_of_getElem? hw
      rintro o ⟨_, _, ho⟩
      exact ho.confined hdelta

/-! ### Logs -/

/-- What an entry of a log is about is of the universe. -/
def LogTarget.Confined (U : Universe) : LogTarget → Prop
  | .cls name => .cls name ∈ U.types
  | .method m => m ∈ U.methods

/-- What a log says and remembers is of the universe. -/
structure LogModel.Confined (U : Universe) (m : LogModel) : Prop where
  entries : ∀ e ∈ m.entries, e.target.Confined U
  claims : ∀ c ∈ m.claims, c.site ∈ U.sites ∧ c.target.Confined U
  receivers : ∀ {v x}, (v, x) ∈ m.receivers.pairs → x.1 ∈ U.sites ∧ x.2 ∈ U.methods
  made : m.made.Confined U

/-- What the log says of a call is about the universe. -/
theorem LogModel.Acting.confined {table : MockTable} {c : ContextId} {claim : Claim} {r : Request}
    (hr : LogModel.Acting U.program (Request.Assures U) table c claim r)
    (htable : table.Confined U) (hsite : claim.site ∈ U.sites)
    (htarget : claim.target.Confined U) : r.Confined U := by
  cases hr with
  | present _ heq hresult hr =>
      rw [heq] at htarget
      exact hr.confined (classMeta_mem_mocks htarget) (Universe.mem_vars_of_result hresult)
  | ofClass _ heq hr =>
      rw [heq] at htarget
      exact hr.confined htable hsite htarget (fun m hm => mem_methods_of_defaultConstructor? hm)
        (by simp)
  | byConstructor _ heq hr =>
      rw [heq] at htarget
      refine hr.confined htable hsite (U.declaringType_mem_types _) ?_
        fun w hw => mem_args_of_head? hw
      rintro _ ⟨⟩
      exact htarget
  | receivers => trivial
  | invoke _ heq hr =>
      rw [heq] at htarget
      refine hr.confined hsite htarget ?_ fun w hw => mem_args_of_getElem? hw
      rintro o ⟨_, _, _, hos, ho⟩
      exact hos o ho

/-- What the log asks for when a receiver refers to more stays in the universe. -/
theorem LogModel.Asked.confined {m : LogModel} {r : Request}
    (hr : m.Asked U.program (Request.Assures U) v delta r) (hm : m.Confined U)
    (hdelta : ∀ o ∈ delta, o.item.index < U.limit) : r.Confined U := by
  obtain ⟨i, target, hmem, hr⟩ := hr
  obtain ⟨hsite, htarget⟩ := hm.receivers hmem
  exact hr.confined hsite htarget hdelta fun w hw => mem_args_of_getElem? hw

/-- What a log remembers after calls have acted is of the universe. -/
theorem LogModel.Confined.of_becomes {m m' : LogModel} {q : QMethod} (hm : m.Confined U)
    (hm' : m.Becomes U.program (Request.Assures U) (m.Covers q) m') : m'.Confined U where
  entries := by
    rw [hm'.entries]
    exact hm.entries
  claims := by
    rw [hm'.claims]
    exact hm.claims
  receivers := by
    rintro v ⟨i, target⟩ hmem
    rcases hm'.receivers v i target hmem with hmem | ⟨claim, hclaim, rfl, _, htarget, _⟩
    · exact hm.receivers hmem
    · obtain ⟨hsite, hconfined⟩ := hm.claims claim hclaim.1
      rw [htarget] at hconfined
      exact ⟨hsite, hconfined⟩
  made := hm.made.of_fills hm'.made

/-! ### The plugin -/

/-- What the plugin remembers is of the universe. -/
structure State.Confined (U : Universe) (st : State) : Prop where
  log : ∀ m ∈ st.log, m.Confined U
  actions : st.actions.Confined U

section Offer

variable {call : Invoke}

/-- Offering a call of the universe keeps what is remembered within it. -/
theorem State.Confined.offer {st : State} (h : st.Confined U) (hcall : call.id ∈ U.sites) :
    (st.offer call).Confined U where
  log := by
    intro m' hm'
    obtain ⟨m, hm, rfl⟩ := (st.offered call).of_log hm'
    have hlog := h.log m hm
    refine { hlog with claims := fun c hc => ?_ }
    rcases List.mem_append.1 hc with hc | hc
    · exact hlog.claims c hc
    · obtain ⟨e, he, _, rfl⟩ := LogModel.mem_asked.1 hc
      exact ⟨hcall, hlog.entries e he⟩
  actions := by
    refine ⟨fun hmem => ?_, ?_⟩
    · exact ((st.offered call).actions _ hmem).elim h.actions.relevant
        fun hnew => hnew.2.1.site ▸ hcall
    · rw [(st.offered call).made]
      exact h.actions.made

/-- So does offering the calls of a method. -/
theorem State.Confined.offerAll {st : State} (h : st.Confined U) (m : MethodId) :
    ((U.program.invokesIn m).foldl State.offer st).Confined U := by
  refine List.foldlRecOn (U.program.invokesIn m) State.offer h ?_
  intro st hst call hcall
  obtain ⟨i, _, rfl⟩ := Program.mem_invokesIn.1 hcall
  exact hst.offer (U.id_mem_sites i)

end Offer

/-- Arrays may be forwarded to the parameters of a method. -/
theorem Forwarding.confined {A : (r : Request) → r.Answer → Prop} {callee : QMethod} {r : Request}
    (hr : Forwarding U.program A v callee r) : r.Confined U := by
  cases hr with
  | arrays | look => trivial
  | pass _ _ _ _ hf =>
      obtain ⟨_, _, hmem, _, rfl⟩ := mem_arrayEdges.1 hf
      exact Universe.mem_vars_of_param (List.of_mem_zip hmem).1

/-- A reaction of the plugin for reflection stays in the universe. -/
theorem confined_react {e : Event} {st : State} (he : e.Confined U) (hst : st.Confined U) :
    (react U.env e st).Confined U (State.Confined U) := by
  refine (asks_react e).imp (fun r hr => ?_) fun st' hst' => ?_
  · cases hr with
    | act hm hclaim hr =>
        have hlog := hst.log _ hm
        obtain ⟨hsite, htarget⟩ := hlog.claims _ hclaim.1
        exact hr.confined hlog.made hsite htarget
    | pass _ _ hr => exact hr.confined
    | result _ hf =>
        have hf := (mem_resultEdges.1 hf).2
        exact (CallEdge.feeds_of_returnEdges hf fun _ hv => .result hv).confined he
    | wake _ hr => exact hr.confined
    | grown hr =>
        cases hr with
        | log hm hr => exact hr.confined (hst.log _ hm) he
        | classes hr => exact hr.confined
        | strings _ hr => exact hr.confined
        | actions hr => exact hr.confined hst.actions he
  · cases hst' with
    | same => exact hst
    | offered => exact hst.offerAll _
    | acted hm hm' =>
        refine ⟨?_, hst.actions⟩
        rintro _ ⟨⟩
        exact (hst.log _ hm).of_becomes hm'
    | passed => exact ⟨hst.log, hst.actions⟩
    | grown _ htable => exact ⟨hst.log, hst.actions.relevant, hst.actions.made.of_fills htable⟩

end Reflection

/-! ## Members -/

namespace Member

/-- A member that comes with the library, and remembers only what is of the universe. -/
def Confined (U : Universe) : Member → Prop
  | lambda st => st.Confined U
  | reflection st => st.Confined U
  | script _ => False

/-- A reaction asks only for what is of the universe. -/
theorem confined_react {e : Event} {m : Member} (he : e.Confined U) (hm : m.Confined U) :
    (plugin.react U.env e m).Confined U (Member.Confined U) := by
  cases m with
  | lambda st => exact Asks.bind (Lambda.confined_react he hm) fun _ h => h
  | reflection st => exact Asks.bind (Reflection.confined_react he hm) fun _ h => h
  | script s => exact hm.elim

end Member

/-! ## Analyses -/

/-- The targets of a log are classes and methods of the program. -/
theorem Reflection.LogModel.confined_ofLog {content : String} {m : Reflection.LogModel}
    (h : Reflection.LogModel.ofLog U.program content = .ok m) : m.Confined U := by
  obtain ⟨_, _, rfl⟩ := Reflection.LogModel.eq_of_ofLog h
  refine ⟨?_, fun _ hc => absurd hc List.not_mem_nil,
    fun hmem => absurd hmem (OrderedSet.not_mem_empty _), MockTable.confined_new _⟩
  intro e he
  obtain ⟨entry, _, hentry⟩ := List.mem_filterMap.1 he
  obtain ⟨_, htarget, _⟩ := Reflection.LogModel.resolved?_eq_some hentry
  unfold Reflection.LogModel.target? at htarget
  split at htarget
  all_goals
    obtain ⟨x, hx, htarget⟩ := Option.map_eq_some_iff.1 htarget
    rw [← htarget]
  · exact Universe.mem_types_of_class? hx
  · exact Universe.mem_types_of_class? hx
  · exact Universe.mem_methods_of_methodBySignature? hx

/-- The plugin for reflection remembers nothing at first but the log. -/
theorem Reflection.State.confined_of_new {o : Options} {files : Reflection.Files}
    {st : Reflection.State} (h : Reflection.State.new o U.program files = .ok st) :
    st.Confined U := by
  obtain ⟨hread, hst⟩ := Reflection.State.eq_of_new h
  have hlog : ∀ m ∈ st.log, m.Confined U := by
    intro m hm
    obtain ⟨_, hm⟩ := Reflection.ofLog_of_readLog hread m hm
    exact Reflection.LogModel.confined_ofLog hm
  have hactions : Reflection.ActionModel.Confined U {} :=
    ⟨fun hmem => absurd hmem (OrderedSet.not_mem_empty _), MockTable.confined_new _⟩
  rcases hst with hst | hst <;> rw [hst] <;> exact ⟨hlog, hactions⟩

/-- The plugins of an analysis to which none was added begin within the universe. -/
theorem Analysis.confined_members {a : Analysis} {files : Reflection.Files}
    {members : List Member} (h : a.members U.program files = .ok members)
    (hextra : a.extra = []) : ∀ m ∈ members, m.Confined U := by
  intro m hm
  rcases Analysis.members_cases h hm with rfl | ⟨st, hst, rfl⟩ | hm
  · exact Lambda.State.confined_new
  · exact Reflection.State.confined_of_new hst
  · rw [hextra] at hm
    exact absurd hm List.not_mem_nil

end PointsTo
