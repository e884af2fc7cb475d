import PointsTo.Proofs.LambdaBounds
import PointsTo.Proofs.ReflectionMemory
import PointsTo.Proofs.ReflectionRequests

/-!
# The plugin for reflection keeps to ids within their tables

The methods that the plugin learns of are those that meta objects stand for, that a log names, or
that a class lists; and its call sites are those of the methods that are reachable.

Main results:

- {lit}`Reflection.State.Within`: all ids that the plugin remembers are in their tables.
- Theorem {lit}`Reflection.State.within_of_new`: they are to begin with, also those from a log.
- Theorem {lit}`Reflection.within_react`: a reaction mentions only ids that are in their tables.
-/

namespace PointsTo

open Service

variable {env : Setting} {p : Program} {T : Sizes}

namespace Reflection

variable {site : QSite} {v : QVar} {delta : ObjSet}

/-! ### Meta objects -/

/-- The meta object of a class stands for no method and no call site. -/
theorem within_classMeta (t : JavaType) : (classMeta t).obj.Within p T :=
  ⟨trivial, by simp [classMeta, MockObj.obj]⟩

/-- The meta object of a method is within the tables if the method is. -/
theorem within_methodMeta {m : MethodId} (h : m.Within p T) : (methodMeta m).obj.Within p T :=
  ⟨h, by simp [methodMeta, MockObj.obj]⟩

/-- So is that of a constructor. -/
theorem within_constructorMeta {m : MethodId} (h : m.Within p T) :
    (constructorMeta m).obj.Within p T :=
  ⟨h, by simp [constructorMeta, MockObj.obj]⟩

/-- A method that is denoted by an object within the tables is in its table. -/
theorem within_of_denotedMethod? {x : Obj} {m : MethodId} (hx : x.Within p T)
    (h : denotedMethod? x = some m) : m.Within p T :=
  hx.site (denotedMethod?_eq_some.1 h)

/-- So is a constructor. -/
theorem within_of_denotedConstructor? {x : Obj} {m : MethodId} (hx : x.Within p T)
    (h : denotedConstructor? x = some m) : m.Within p T :=
  hx.site (denotedConstructor?_eq_some.1 h)

/-! ### Allocation and invocation -/

section Calls

variable {r : Request} (hp : p.Coherent)

include hp

/-- An object may be made at a call site of the program, and a constructor run on it. -/
theorem Instantiating.within {table : MockTable} {type : JavaType}
    {constructor? : Option MethodId} {call : ReflectiveCall}
    (hr : Instantiating p (Request.Yields p T) table site type constructor? call r)
    (htable : table.Within p T) (hsite : site.Within p T)
    (hconstructor : ∀ m ∈ constructor?, m.Within p T) (hargs : ∀ v ∈ call.args, v.Within p T) :
    r.Within p T := by
  have hcall := hp.call hsite.2
  cases hr with
  | make => exact MockTable.within_wanted hp hsite.2
  | heapContext => exact ⟨hsite.1, hcall.container⟩
  | result hi hh hw =>
      exact Request.within_varPointer hsite.1 (hcall.result _ hw) ⟨hh, htable.hands hi⟩
  | run hi hh _ hm hr =>
      exact hr.within hp hsite ⟨hh, htable.hands hi⟩ (hconstructor _ hm) hargs

/-- A method of the program may be invoked on objects on the heap. -/
theorem Invoking.within {target : MethodId} {O : QObj → Prop} {args : Option VarId}
    (hr : Invoking p (Request.Yields p T) site target O args r) (hsite : site.Within p T)
    (htarget : target.Within p T) (hO : ∀ o, O o → o.Within p T)
    (hargs : ∀ v ∈ args, v.Within p T) : r.Within p T := by
  cases hr with
  | static _ _ hr => exact hr.within hsite (by simp) htarget hargs
  | look ho => exact (hO _ ho).2
  | @run o x m _ _ _ ho _ hm hr =>
      have hmethod : m.Within p T := by
        rcases Program.lists_of_invokedOn? hm with rfl | hm
        · exact htarget
        · exact hp.method hm
      exact hr.within hp hsite (hO o ho) hmethod hargs

end Calls

/-! ### What is remembered -/

/-- The variables that are watched for calls are in their tables, and so are the call sites. -/
structure RelevantVars.Within (p : Program) (T : Sizes) {τ : Type} (w : RelevantVars τ) :
    Prop where
  pairs : ∀ {v x}, (v, x) ∈ w.pairs → v.Within p T ∧ x.1.Within p T

section RelevantVars

variable {τ : Type}

/-- Where nothing is watched, everything is within the tables. -/
theorem RelevantVars.within_empty : RelevantVars.Within p T (.empty : RelevantVars τ) :=
  ⟨fun h => absurd h (OrderedSet.not_mem_empty _)⟩

end RelevantVars

/-- What an entry of a log is about is in its table. -/
def LogTarget.Within (p : Program) (T : Sizes) : LogTarget → Prop
  | .cls _ => True
  | .method m => m.Within p T

/-- What a covered call is about is in the tables. -/
structure Claim.Within (p : Program) (T : Sizes) (c : Claim) : Prop where
  caller : c.caller.Within p T
  site : c.site.Within p T
  target : c.target.Within p T

/-- What a log says and remembers is in the tables. -/
structure LogModel.Within (p : Program) (T : Sizes) (m : LogModel) : Prop where
  entries : ∀ e ∈ m.entries, e.caller.Within p T ∧ e.target.Within p T
  claims : ∀ c ∈ m.claims, c.Within p T
  receivers : RelevantVars.Within p T m.receivers
  targets : ∀ {v x}, (v, x) ∈ m.receivers.pairs → x.2.Within p T
  made : m.made.Within p T

/-- What the model of actions watches and has made is in the tables. -/
structure ActionModel.Within (p : Program) (T : Sizes) (m : ActionModel) : Prop where
  relevant : RelevantVars.Within p T m.relevant
  made : m.made.Within p T

/-- All ids that the plugin remembers are in their tables. -/
structure State.Within (p : Program) (T : Sizes) (st : State) : Prop where
  log : ∀ m ∈ st.log, m.Within p T
  classes : RelevantVars.Within p T st.classes.relevant
  strings : ∀ m ∈ st.strings, RelevantVars.Within p T m.relevant
  actions : st.actions.Within p T
  argArrays : ∀ {v m}, (v, m) ∈ st.argArrays.pairs → v.Within p T ∧ m.Within p T
  forwarded : ∀ x ∈ st.forwarded, x.1.Within p T ∧ x.2.Within p T

section Offer

variable {call : Invoke} (hcall : call.Within p T)

include hcall

/-- A call is looked at under its id, and at variables of it. -/
theorem Watch.within {x : VarId × InvokeId × Api} (h : Watch call x) :
    x.1.Within p T ∧ x.2.1.Within p T := by
  refine ⟨?_, h.site ▸ hcall.id⟩
  rcases h.place with hv | hv
  · exact hcall.base _ hv
  · exact hcall.args _ (List.mem_of_mem_head? hv)

/-- Offering a call leaves all that is remembered within the tables. -/
theorem State.within_offer {st : State} (h : st.Within p T) : (st.offer call).Within p T where
  log := by
    intro m' hm'
    obtain ⟨m, hm, rfl⟩ := (st.offered call).of_log hm'
    have hlog := h.log m hm
    refine { hlog with claims := fun c hc => ?_ }
    rcases List.mem_append.1 hc with hc | hc
    · exact hlog.claims c hc
    · obtain ⟨e, he, _, rfl⟩ := LogModel.mem_asked.1 hc
      exact ⟨hcall.container, hcall.id, (hlog.entries e he).2⟩
  classes := ⟨fun hmem => ((st.offered call).classes _ hmem).elim h.classes.pairs
    fun hnew => hnew.2.within hcall⟩
  strings := by
    intro m' hm'
    obtain ⟨m, hm, hstrings⟩ := (st.offered call).strings m' hm'
    exact ⟨fun hmem => (hstrings _ hmem).elim (h.strings m hm).pairs
      fun hnew => hnew.2.within hcall⟩
  actions := by
    refine ⟨⟨fun hmem => ?_⟩, ?_⟩
    · exact ((st.offered call).actions _ hmem).elim h.actions.relevant.pairs
        fun hnew => hnew.2.1.within hcall
    · rw [(st.offered call).made]
      exact h.actions.made
  argArrays := by
    rw [(st.offered call).argArrays]
    exact h.argArrays
  forwarded := by
    rw [(st.offered call).forwarded]
    exact h.forwarded

end Offer

/-! ### What is asked for -/

section Requests

variable {r : Request} (hp : p.Coherent)

/-- A meta object belongs to no context. -/
theorem Presenting.within {x : MockObj} {c : ContextId} {result : VarId}
    (hr : Presenting (Request.Yields p T) c result x r) (hempty : emptyContext.Within p T)
    (hx : x.obj.Within p T) (hc : c.Within p T) (hresult : result.Within p T) : r.Within p T := by
  cases hr with
  | make => exact hx
  | result hi => exact Request.within_varPointer hc hresult ⟨hempty, hi⟩

/-- What is seen of a variable is on the heap. -/
theorem Reads.within {w : VarId} {o : QObj} (h : Reads (Request.Yields p T) v delta w o)
    (hdelta : ∀ o ∈ delta, o.Within p T) : o.Within p T := by
  rcases h with ⟨_, ho⟩ | ⟨os, hos, ho⟩
  · exact hdelta o ho
  · exact hos o ho

/-- What is seen when methods are invoked is on the heap. -/
theorem ActionModel.Meets.within {base w : VarId} {receiver : Option VarId} {o : QObj}
    (h : Meets (Request.Yields p T) v delta base receiver w o)
    (hdelta : ∀ o ∈ delta, o.Within p T) : o.Within p T := by
  rcases h with ⟨_, os, hos, ho⟩ | ⟨_, hreads⟩
  · exact hos o ho
  · exact hreads.within hdelta

include hp

/-- The variables that a call depends on are variables of the program. -/
theorem Concerns.within {i : InvokeId} {w : VarId} (h : Concerns p i w) (hi : i.Within p T) :
    w.Within p T := by
  rcases h with hw | hw
  · exact (hp.call hi).base w hw
  · exact (hp.call hi).args w (List.mem_of_mem_head? hw)

/-- The model of classes yields meta objects of constructors that the program lists. -/
theorem ClassModel.within_of_yields {api : Api} {receiver : Obj} {x : MockObj}
    (hx : x ∈ yields p api receiver) : x.obj.Within p T := by
  rcases of_mem_yields hx with rfl | ⟨_, m, hm, rfl⟩
  · exact within_classMeta _
  · exact within_constructorMeta (hp.method (Program.lists_of_constructors hm))

/-- A constructor that is run on a new object is a method of the program, and gets arguments of
the call. -/
theorem ActionModel.within_of_product? {i : InvokeId} {api : Api} {x : Obj} {type : JavaType}
    {constructor? : Option MethodId} {call : ReflectiveCall}
    (hproduct : product? p i api x = some (type, constructor?, call)) (hi : i.Within p T)
    (hx : x.Within p T) :
    (∀ m ∈ constructor?, m.Within p T) ∧ ∀ w ∈ call.args, w.Within p T := by
  cases produces_of_product? hproduct with
  | ofClass => exact ⟨fun m hm => hp.method (Program.lists_of_defaultConstructor? hm), by simp⟩
  | byConstructor hm =>
      refine ⟨?_, fun w hw => (hp.call hi).args w (List.mem_of_mem_head? hw)⟩
      rintro _ ⟨⟩
      exact within_of_denotedConstructor? hx hm

/-- A covered call does what the log says of it. -/
theorem LogModel.Acting.within {table : MockTable} {c : ContextId} {claim : Claim}
    (hr : LogModel.Acting p (Request.Yields p T) table c claim r)
    (hempty : emptyContext.Within p T) (htable : table.Within p T) (hc : c.Within p T)
    (hclaim : claim.Within p T) : r.Within p T := by
  have hcall := hp.call hclaim.site
  have htarget := hclaim.target
  have hsite : Qualified.Within p T ⟨c, claim.site⟩ := ⟨hc, hclaim.site⟩
  cases hr with
  | present _ _ hresult hr =>
      exact hr.within hempty (within_classMeta _) hc (hcall.result _ hresult)
  | ofClass _ _ hr =>
      exact hr.within hp htable hsite
        (fun m hm => hp.method (Program.lists_of_defaultConstructor? hm)) (by simp)
  | byConstructor _ heq hr =>
      rw [heq] at htarget
      refine hr.within hp htable hsite ?_ fun w hw => hcall.args w (List.mem_of_mem_head? hw)
      rintro _ ⟨⟩
      exact htarget
  | receivers hreceiver => exact ⟨hc, hcall.args _ (List.mem_of_mem_head? hreceiver)⟩
  | invoke _ heq hr =>
      rw [heq] at htarget
      refine hr.within hp hsite htarget ?_ fun w hw => hcall.args w (List.mem_of_getElem? hw)
      rintro o ⟨_, _, os, hos, ho⟩
      exact hos o ho

/-- The elements of an array flow to parameters of the method. -/
theorem within_of_arrayEdges {array : QObj} {m : QMethod} {f : FlowEdge}
    (hf : f ∈ arrayEdges (p.method m.item) array m.context) (harray : array.Within p T)
    (hm : m.Within p T) : f.Within p T := by
  obtain ⟨param, type, hmem, _, rfl⟩ := mem_arrayEdges.1 hf
  exact ⟨harray, hm.1, hp.param (List.of_mem_zip hmem).1⟩

/-- Arrays may be forwarded to a method of the program. -/
theorem Forwarding.within {callee : QMethod} (hr : Forwarding p (Request.Yields p T) v callee r)
    (hv : v.Within p T) (hcallee : callee.Within p T) : r.Within p T := by
  cases hr with
  | arrays => exact hv
  | look hos ho => exact (hos _ ho).2
  | pass hos ho _ _ hf => exact within_of_arrayEdges hp hf (hos _ ho) hcallee

/-! #### Variables that refer to more -/

section Grown

variable (hv : v.Within p T) (hdelta : ∀ o ∈ delta, o.Within p T)

include hv hdelta

/-- The log invokes its methods within the tables. -/
theorem LogModel.Asked.within {m : LogModel} (hr : m.Asked p (Request.Yields p T) v delta r)
    (hm : m.Within p T) : r.Within p T := by
  obtain ⟨i, target, hmem, hr⟩ := hr
  have hi := (hm.receivers.pairs hmem).2
  exact hr.within hp ⟨hv.1, hi⟩ (hm.targets hmem) hdelta fun w hw =>
    (hp.call hi).args w (List.mem_of_getElem? hw)

/-- The model of classes yields within the tables. -/
theorem ClassModel.Asked.within {m : ClassModel} (hr : m.Asked p (Request.Yields p T) v delta r)
    (hempty : emptyContext.Within p T) (hm : m.relevant.Within p T) : r.Within p T := by
  cases hr with
  | look ho => exact (hdelta _ ho).2
  | yield hmem hresult _ _ hmade hr =>
      exact hr.within hempty (within_of_yields hp hmade) hv.1
        ((hp.call (hm.pairs hmem).2).result _ hresult)

/-- The model of strings finds methods of the program. -/
theorem StringModel.Asked.within {m : StringModel} (hr : m.Asked p (Request.Yields p T) v delta r)
    (hempty : emptyContext.Within p T) (hm : m.relevant.Within p T) : r.Within p T := by
  cases hr with
  | lookNew ho => exact (hdelta _ ho).2
  | read hmem hw => exact ⟨hv.1, hw.within hp (hm.pairs hmem).2⟩
  | look _ _ ho => exact (ho.within hdelta).2
  | cls hmem hresult _ _ _ hr =>
      exact hr.within hempty (within_classMeta _) hv.1
        ((hp.call (hm.pairs hmem).2).result _ hresult)
  | method hmem hresult hn hr =>
      obtain ⟨_, _, hn⟩ := hn
      exact hr.within hempty (within_methodMeta (hp.method (Program.lists_of_methodsNamed hn))) hv.1
        ((hp.call (hm.pairs hmem).2).result _ hresult)

/-- The model of actions makes and invokes within the tables. -/
theorem ActionModel.Asked.within {m : ActionModel} (hr : m.Asked p (Request.Yields p T) v delta r)
    (hm : m.Within p T) : r.Within p T := by
  cases hr with
  | lookNew ho => exact (hdelta _ ho).2
  | make hmem _ hx hproduct hr =>
      have hi := (hm.relevant.pairs hmem).2
      obtain ⟨hconstructor, hargs⟩ := within_of_product? hp hproduct hi hx
      exact hr.within hp hm.made ⟨hv.1, hi⟩ hconstructor hargs
  | readAll => exact hv
  | read hmem hw => exact ⟨hv.1, hw.within hp (hm.relevant.pairs hmem).2⟩
  | look _ _ ho => exact (ho.within hdelta).2
  | invoke hmem _ _ _ hx htarget hr =>
      have hcall := hp.call (hm.relevant.pairs hmem).2
      refine hr.within hp ⟨hv.1, hcall.id⟩ (within_of_denotedMethod? hx htarget) ?_ fun w hw =>
        hcall.args w (List.mem_of_getElem? hw)
      rintro o ⟨_, _, hmeets⟩
      exact hmeets.within hdelta

/-- So do all models together. -/
theorem State.Asked.within {st : State} (hr : st.Asked p (Request.Yields p T) v delta r)
    (hempty : emptyContext.Within p T) (hst : st.Within p T) : r.Within p T := by
  cases hr with
  | log hm hr => exact hr.within hp hv hdelta (hst.log _ hm)
  | classes hr => exact hr.within hp hv hdelta hempty hst.classes
  | strings hm hr => exact hr.within hp hv hdelta hempty (hst.strings _ hm)
  | actions hr => exact hr.within hp hv hdelta hst.actions

end Grown

end Requests

/-! ### What is remembered afterwards -/

/-- What a log remembers of calls that have acted is in the tables. -/
theorem LogModel.Within.of_becomes {C : Claim → Prop} {m m' : LogModel} (hm : m.Within p T)
    (hp : p.Coherent) (hm' : m.Becomes p (Request.Yields p T) C m')
    (hC : ∀ claim, C claim → claim.Within p T) : m'.Within p T where
  entries := hm'.entries ▸ hm.entries
  claims := hm'.claims ▸ hm.claims
  receivers := by
    refine ⟨fun {v x} hmem => ?_⟩
    rcases hm'.receivers v x.1 x.2 hmem with hmem | ⟨claim, hclaim, hsite, _, _, hhead⟩
    · exact hm.receivers.pairs hmem
    · have hi : x.1.Within p T := hsite ▸ (hC claim hclaim).site
      exact ⟨(hp.call hi).args v (List.mem_of_mem_head? hhead), hi⟩
  targets := by
    intro v x hmem
    rcases hm'.receivers v x.1 x.2 hmem with hmem | ⟨claim, hclaim, _, _, heq, _⟩
    · exact hm.targets hmem
    · have htarget := (hC claim hclaim).target
      rwa [heq] at htarget
  made := by
    refine hm.made.of_fills hm'.made ?_
    rintro i ⟨claim, hclaim, rfl⟩
    exact (hC claim hclaim).site

/-- Arrays that a variable refers to are forwarded to methods of the program. -/
theorem within_of_forwarded {st : State} {forwarded : OrderedSet (QObj × QMethod)}
    {callee : QMethod → Prop} (hst : st.Within p T)
    (hforwarded : ∀ x ∈ forwarded, x ∈ st.forwarded ∨
      Forwarded (Request.Yields p T) v callee x)
    (hcallee : ∀ m, callee m → m.Within p T) :
    ∀ x ∈ forwarded, x.1.Within p T ∧ x.2.Within p T := by
  intro x hx
  rcases hforwarded x hx with hx | ⟨hm, os, hos, ho⟩
  · exact hst.forwarded x hx
  · exact ⟨hos _ ho, hcallee _ hm⟩

/-! ### Reactions -/

section Reactions

variable {st : State} {e : Event} (hp : env.program.Coherent) (he : e.Within env.program T)
  (hst : st.Within env.program T)

include hp he hst

/-- A reaction asks only for ids that are in their tables. -/
theorem Asked.within {r : Request}
    (hr : Asked env.program (Request.Yields env.program T) st e r)
    (hempty : emptyContext.Within env.program T) : r.Within env.program T := by
  cases hr with
  | act hm hclaim hr =>
      have hlog := hst.log _ hm
      exact hr.within hp hempty hlog.made he.1 (hlog.claims _ hclaim.1)
  | pass hk hargs hr =>
      have hkind := he.kind
      rw [hk] at hkind
      exact hr.within hp ⟨he.site.1, hkind _ hargs⟩ he.callee
  | result _ hf =>
      exact within_of_returnEdges hp (mem_resultEdges.1 hf).2 he.site.1
        (hp.call he.site.2).result he.callee
  | wake hmem hr => exact hr.within hp he.1 (hst.argArrays hmem).2
  | grown hr => exact hr.within hp he.1 he.2 hempty hst

/-- What is remembered after a reaction is in the tables, too. -/
theorem State.Within.of_became {st' : State}
    (hst' : Became env.program (Request.Yields env.program T) st e st') :
    st'.Within env.program T := by
  cases hst' with
  | same => exact hst
  | @offered m =>
      have hoffer : ∀ q : State, q.Within env.program T → ∀ call ∈ env.program.invokesIn m,
          (q.offer call).Within env.program T := fun q hq call hcall =>
        State.within_offer (Lambda.call_of_mem_invokesIn hp hcall) hq
      exact List.foldlRecOn (motive := fun q : State => q.Within env.program T) _ _ hst hoffer
  | acted hm hbecomes =>
      have hlog := hst.log _ hm
      refine { hst with log := ?_ }
      rintro _ ⟨⟩
      exact hlog.of_becomes hp hbecomes fun claim hclaim => hlog.claims claim hclaim.1
  | passed hk hargs hforwarded =>
      have hkind := he.kind
      rw [hk] at hkind
      refine { hst with argArrays := fun hmem => ?_, forwarded := ?_ }
      · rcases Waitlist.mem_register.1 hmem with heq | hmem
        · cases heq
          exact ⟨⟨he.site.1, hkind _ hargs⟩, he.callee⟩
        · exact hst.argArrays hmem
      · refine within_of_forwarded hst hforwarded ?_
        rintro _ rfl
        exact he.callee
  | grown hforwarded htable =>
      refine { hst with
        forwarded := within_of_forwarded hst hforwarded fun _ hmem => (hst.argArrays hmem).2
        actions := ⟨hst.actions.relevant, hst.actions.made.of_fills htable ?_⟩ }
      rintro i ⟨_, hmem⟩
      exact (hst.actions.relevant.pairs hmem).2

/-- A reaction mentions only ids that are in their tables, and leaves the plugin with such. -/
theorem within_react (hempty : emptyContext.Within env.program T) :
    (react env e st).Within env.program T (State.Within env.program T) :=
  (asks_react e).imp (fun _ hr => hr.within hp he hst hempty) fun _ hst' => hst.of_became hp he hst'

end Reactions

/-! ### The beginning of a run -/

/-- The program has the methods that a log is about. -/
theorem LogModel.within_of_ofLog {content : String} {m : LogModel} (hp : p.Numbered)
    (h : ofLog p content = .ok m) : m.Within p T := by
  obtain ⟨_, _, rfl⟩ := eq_of_ofLog h
  refine ⟨fun e he => ?_, fun _ hc => absurd hc List.not_mem_nil, RelevantVars.within_empty,
    fun hmem => absurd hmem (OrderedSet.not_mem_empty _), MockTable.within_new _⟩
  obtain ⟨entry, _, hentry⟩ := List.mem_filterMap.1 he
  obtain ⟨hcaller, htarget, _⟩ := resolved?_eq_some hentry
  refine ⟨hp.index_lt_of_methodBySignature? hcaller, ?_⟩
  unfold target? at htarget
  split at htarget
  all_goals
    obtain ⟨x, hx, htarget⟩ := Option.map_eq_some_iff.1 htarget
    rw [← htarget]
  · trivial
  · trivial
  · exact hp.index_lt_of_methodBySignature? hx

/-- The plugin begins with ids within their tables. -/
theorem State.within_of_new {o : Options} {files : Files} {st : State} (hp : p.Numbered)
    (h : State.new o p files = .ok st) : st.Within p T := by
  obtain ⟨hread, hst⟩ := State.eq_of_new h
  have hlog : ∀ m ∈ st.log, m.Within p T := by
    intro m hm
    obtain ⟨_, hm⟩ := ofLog_of_readLog hread m hm
    exact LogModel.within_of_ofLog hp hm
  have hfirst : ∀ {strings : Option StringModel}, (∀ m ∈ strings, m.relevant.Within p T) →
      State.Within p T { log := st.log, strings } := fun hstrings =>
    ⟨hlog, RelevantVars.within_empty, hstrings, ⟨RelevantVars.within_empty, MockTable.within_new _⟩,
      fun hmem => absurd hmem (OrderedSet.not_mem_empty _),
      fun _ hx => absurd hx (OrderedSet.not_mem_empty _)⟩
  rcases hst with hst | hst <;> rw [hst]
  · exact hfirst (by simp)
  · refine hfirst ?_
    rintro _ ⟨⟩
    exact RelevantVars.within_empty

end Reflection

end PointsTo
