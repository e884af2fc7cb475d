import PointsTo.Proofs.Closure
import PointsTo.Proofs.ReflectionMemory

/-!
# When reflective actions are taken

A call that makes objects asks about its base only.  A call that invokes a method pairs what its
base refers to with what the receiver refers to; whichever of the two comes last, the pair is
looked at, since the model pairs what is new to one of the variables with all that the other
refers to.  What the base refers to is looked at from the start because a base that is not the
receiver of its method refers to nothing before the method is reachable.

Main results:

- {lit}`ActionModel.Performed`: a call has done all that it is for.
- Theorem {lit}`ActionModel.mem_paired`: a pair is looked at when the later one of its objects is
  new.
- Theorem {lit}`Analysis.performed_of_runFrom`: in the end every call that acts has done all that
  it is for, unless the log covers it.
-/

namespace PointsTo

namespace Reflection

variable {env : Setting} {st : State} {call : Invoke} {p : Program}

/-! ## Calls that act -/

namespace ActionModel

/-- The calls that the model of actions takes. -/
def actions : List Api := [.classNewInstance, .constructorNewInstance, .methodInvoke]

/-- The model looks at a call that acts whenever the base refers to more. -/
theorem base_offered {base : VarId} {api : Api} (hapi : Api.classify call.target = some api)
    (hacts : api ∈ actions) (hbase : call.base = some base) :
    (base, (call.id, api)) ∈ (({} : ActionModel).offer call).2.relevant.pairs := by
  simp only [actions, List.mem_cons, List.not_mem_nil, or_false] at hacts
  unfold offer
  rcases hacts with rfl | rfl | rfl
  · simp [hapi, hbase, Waitlist.mem_register]
  · simp [hapi, hbase, Waitlist.mem_register]
  · simp only [hapi, hbase]
    split <;> simp [Waitlist.mem_register]

/-- The model looks at a call that invokes a method whenever the receiver refers to more. -/
theorem receiver_offered {base a : VarId}
    (hapi : Api.classify call.target = some .methodInvoke) (hbase : call.base = some base)
    (ha : call.args.head? = some a) :
    (a, (call.id, .methodInvoke)) ∈ (({} : ActionModel).offer call).2.relevant.pairs := by
  obtain ⟨rest, hargs⟩ := List.head?_eq_some_iff.1 ha
  unfold offer
  simp [hapi, hbase, hargs, Waitlist.mem_register]

/-! ## Pairs -/

/-- A meta object that the base refers to, and maybe an object that the receiver refers to, are
looked at when one of them is new. -/
theorem mem_paired {points : PointsToMap} {v : QVar} {delta : ObjSet} {base : VarId}
    {receiver : Option VarId} {o : QObj} {r? : Option QObj}
    (ho : o ∈ points.get (varPointer v.context base))
    (hr : ∀ r ∈ r?, ∃ a ∈ receiver, r ∈ points.get (varPointer v.context a))
    (hnew : v.item = base ∧ o ∈ delta ∨ ∃ r ∈ r?, v.item ∈ receiver ∧ r ∈ delta) :
    o ∈ (paired points v delta base receiver).1 ∧
      ∀ r ∈ r?, r ∈ (paired points v delta base receiver).2 := by
  cases receiver with
  | none =>
      obtain ⟨hv, hod⟩ := hnew.resolve_right (by simp)
      refine ⟨by rwa [paired, seen, if_pos hv.symm], ?_⟩
      intro r hmem
      obtain ⟨a, ha, _⟩ := hr r hmem
      exact absurd ha (by simp)
  | some a =>
      -- what the receiver refers to
      have hra : ∀ r ∈ r?, r ∈ points.get (varPointer v.context a) := by
        intro r hmem
        obtain ⟨a', ha, hpoints⟩ := hr r hmem
        rwa [Option.some.inj ha]
      unfold paired
      dsimp only
      split
      · rename_i hsame
        -- one variable is both
        have hv : v = ⟨v.context, base⟩ := by
          rcases hnew with ⟨hv, _⟩ | ⟨_, _, hv, _⟩
          · rw [← hv]
          · rw [← hsame, Option.some.inj hv]
        rw [show (Pointer.var v) = varPointer v.context base from congrArg _ hv]
        exact ⟨ho, fun r hmem => hsame ▸ hra r hmem⟩
      · rename_i hne
        rcases hnew with ⟨rfl, hod⟩ | ⟨r, hmem, hv, hrd⟩
        · rw [seen, if_pos rfl, seen, if_neg hne]
          exact ⟨hod, hra⟩
        · obtain rfl := Option.some.inj hv
          rw [seen, if_neg (Ne.symm hne), seen, if_pos rfl]
          refine ⟨ho, fun r' hmem' => ?_⟩
          rwa [← Option.some.inj (hmem.symm.trans hmem')]

/-! ## What is to be done -/

/-- A call has done all that it is for: it has made an object of each class or by each
constructor that its base refers to, or has invoked each method that its base refers to on all
that its receiver refers to. -/
def Performed (env : Setting) (k : View) (points : PointsToMap) (site : QSite) (api : Api)
    (base : VarId) : Prop :=
  ∀ o ∈ points.get (varPointer site.context base),
    match api with
    | .classNewInstance => ∀ c, denotedClass? (k.heap.get o.item) = some c →
        env.program.hasClass c = true →
          Instantiated env k site (.cls c) (env.program.defaultConstructor? c)
            { api := .classNewInstance, args := none }
    | .constructorNewInstance => ∀ m, denotedConstructor? (k.heap.get o.item) = some m →
        Instantiated env k site (env.program.method m).declaringType (some m)
          { api := .constructorNewInstance
            args := (env.program.invoke site.item).args.head? }
    | .methodInvoke => ∀ m, denotedMethod? (k.heap.get o.item) = some m →
        InvokedStatic env k site m (env.program.invoke site.item).args[1]? ∧
          ∀ a ∈ (env.program.invoke site.item).args.head?,
            ∀ r ∈ points.get (varPointer site.context a),
              InvokedOn env k site m (env.program.invoke site.item).args[1]? r
    | _ => True

/-- A call under a context with a base that is not the receiver of its method; it acts, and the
log does not cover it. -/
structure Site (env : Setting) (st : State) (site : QSite) (m : MethodId) (api : Api)
    (base : VarId) : Prop where
  stmt : .invoke site.item ∈ (env.program.method m).stmts
  classified : Api.classify (env.program.invoke site.item).target = some api
  acts : api ∈ actions
  based : (env.program.invoke site.item).base = some base
  uncovered : st.covers (env.program.invoke site.item) = false
  ordinary : ¬ env.program.IsReceiver base

/-- A call makes an object, or invokes a method on an object or on none. -/
def Wants (env : Setting) (site : QSite) (api : Api) (base : VarId) (points : PointsToMap)
    (x : QObj × Option QObj) : Prop :=
  x.1 ∈ points.get (varPointer site.context base) ∧ ∀ r ∈ x.2, api = .methodInvoke ∧
    ∃ a ∈ (env.program.invoke site.item).args.head?, r ∈ points.get (varPointer site.context a)

/-- It has made the object, or has invoked the method. -/
def Done (env : Setting) (k : View) (site : QSite) (api : Api) (x : QObj × Option QObj) : Prop :=
  Made env k site api x.1 ∧
    (api = .methodInvoke → ∀ m, denotedMethod? (k.heap.get x.1.item) = some m →
      InvokedStatic env k site m (env.program.invoke site.item).args[1]? ∧
        ∀ r ∈ x.2, InvokedOn env k site m (env.program.invoke site.item).args[1]? r)

variable {s t : Solver} {k l : View} {site : QSite} {m : MethodId} {api : Api} {base : VarId}
  {x : QObj × Option QObj} {points points' : PointsToMap}

theorem Wants.of_vars (h : Wants env site api base points x)
    (hvars : ∀ v, points.get (.var v) = points'.get (.var v)) :
    Wants env site api base points' x := by
  refine ⟨hvars ⟨site.context, base⟩ ▸ h.1, fun r hr => ?_⟩
  obtain ⟨hapi, a, ha, hra⟩ := h.2 r hr
  exact ⟨hapi, a, ha, hvars ⟨site.context, a⟩ ▸ hra⟩

theorem Done.mono (h : Done env k site api x) (hg : s.Grounded)
    (hx : Wants env site api base s.pointsTo x) (hsk : s.settled.Le k) (hle : k.Le l) :
    Done env l site api x := by
  have hsite := (hg.var _ _ hx.1).of_grows hsk.contexts
  have ho := (hg.points _ _ hx.1).mono hsk
  refine ⟨h.1.mono ho (hg.empty.of_grows hsk.contexts) hsite hle, ?_⟩
  intro hapi m hm
  rw [Heap.get_of_grows ho.2 hle.heap] at hm
  obtain ⟨hstatic, hall⟩ := h.2 hapi m hm
  refine ⟨hstatic.mono hle hsite, fun r hr => (hall r hr).mono hle hsite ?_⟩
  obtain ⟨_, a, _, hra⟩ := hx.2 r hr
  exact (hg.points _ _ hra).mono hsk

/-- When a variable refers to more, the call was wanted already or is done now. -/
theorem done_of_attends {q : State} {v : QVar} {delta : ObjSet} {before : PointsToMap}
    (h : Site env st site m api base) (hkind : q.actions.made.kind = .reflective)
    (hid : (env.program.invoke site.item).id = site.item)
    (hwatches : q.Watches (env.program.invoke site.item))
    (hcovers : q.covers (env.program.invoke site.item) = false)
    (hattends : q.Attends env k points v delta)
    (hgains : before.Gains points v delta) (hx : Wants env site api base points x) :
    Wants env site api base before x ∨ Done env k site api x := by
  have hacted : ∀ {u}, v = ⟨site.context, u⟩ → (u, ((env.program.invoke site.item).id, api)) ∈
      (({} : ActionModel).offer (env.program.invoke site.item)).2.relevant.pairs →
        Acted env k points ⟨site.context, u⟩ delta site.item api := by
    rintro u rfl hmem
    rw [← hid]
    exact hattends.actions hkind _ _ (hwatches.actions hcovers _ hmem)
  -- the invocation is done when one of the two variables has changed
  have hinvoked : ∀ {u}, Acted env k points ⟨site.context, u⟩ delta site.item api →
      (u = base ∧ x.1 ∈ delta ∨ ∃ r ∈ x.2, u ∈ (env.program.invoke site.item).args.head? ∧
        r ∈ delta) →
      api = .methodInvoke → ∀ m, denotedMethod? (k.heap.get x.1.item) = some m →
        InvokedStatic env k site m (env.program.invoke site.item).args[1]? ∧
          ∀ r ∈ x.2, InvokedOn env k site m (env.program.invoke site.item).args[1]? r := by
    intro u hacted hnew hapi m hm
    obtain ⟨ho, hr⟩ := mem_paired (v := ⟨site.context, u⟩) hx.1
      (fun r hr => (hx.2 r hr).2) hnew
    obtain ⟨hstatic, hall⟩ := hacted.2 hapi base h.based x.1 ho m hm
    exact ⟨hstatic, fun r hmem => hall r (hr r hmem)⟩
  rcases hgains.mem.1 hx.1 with hold | ⟨hv, hnew⟩
  · by_cases hr : ∀ r ∈ x.2, ∃ a ∈ (env.program.invoke site.item).args.head?,
        r ∈ before.get (varPointer site.context a)
    · exact .inl ⟨hold, fun r hmem => ⟨(hx.2 r hmem).1, hr r hmem⟩⟩
    · -- the receiver is new
      obtain ⟨r, hmem, hnone⟩ : ∃ r ∈ x.2, ¬ ∃ a ∈ (env.program.invoke site.item).args.head?,
          r ∈ before.get (varPointer site.context a) := by
        simpa using hr
      obtain ⟨rfl, a, ha, hra⟩ := hx.2 r hmem
      obtain ⟨hv, hrd⟩ := (hgains.mem.1 hra).resolve_left fun hold => hnone ⟨a, ha, hold⟩
      have hdone := hacted hv.symm (receiver_offered h.classified h.based ha)
      refine .inr ⟨fun _ _ _ hproduct => absurd hproduct (by simp [product?]), ?_⟩
      exact hinvoked hdone (.inr ⟨r, hmem, ha, hrd⟩)
  · have hdone := hacted hv.symm (base_offered h.classified h.acts h.based)
    exact .inr ⟨hdone.1 x.1 hnew, hinvoked hdone (.inl ⟨rfl, hnew⟩)⟩

/-- What the plugin has to do at a call that acts. -/
def duty (hp : env.program.Numbered) (hkind : st.actions.made.kind = .reflective)
    (h : Site env st site m api base) :
    Plugin.Duty (memory env st) (fun k x => x.Sound env.program k) (QObj × Option QObj) where
  since := none
  Given := fun calls points => ∀ o ∈ points.get (varPointer site.context base),
    ⟨site.context, m⟩ ∈ calls.reachableIn
  Wants := Wants env site api base
  Done := fun k x => Done env k site api x
  start := fun _ x hx => absurd hx.1 (OrderedSet.not_mem_empty _)
  vars := fun hvars hx => hx.of_vars hvars
  mono := fun hg hx hdone hle => hdone.mono hg hx (Solver.settled_le_expected _) hle
  grown := by
    intro s t y y' v delta before x hg hsound hcovers hgiven _ hholds hgains hx hr
    obtain ⟨q, hretains, hknows, hattends⟩ := attends_of_covers hcovers hp hg hsound hholds hr
    have hcall : env.program.invoke site.item ∈ env.program.invokesIn m :=
      Program.mem_invokesIn.2 ⟨_, h.stmt, rfl⟩
    have hid : (env.program.invoke site.item).id = site.item :=
      hp.invoke_id (v := base) (by simp [Program.mentioned, h.based])
    refine done_of_attends h (hretains.kind.trans hkind) hid
      ((hknows (hgiven x.1 hx.1)).1 _ hcall) ?_ hattends hgains hx
    rw [hretains.covers_eq]
    exact h.uncovered
  entered := fun hsince => by cases hsince

/-- Where every object and every pair is done, the call has done all that it is for. -/
theorem performed_of_done (hacts : api ∈ actions)
    (h : ∀ x, Wants env site api base points x → Done env k site api x) :
    Performed env k points site api base := by
  intro o ho
  obtain ⟨hmade, hstatic⟩ := h (o, none) ⟨ho, by simp⟩
  simp only [actions, List.mem_cons, List.not_mem_nil, or_false] at hacts
  rcases hacts with rfl | rfl | rfl
  · intro c hc hclass
    refine hmade _ _ _ ?_
    simp only [product?, hc, Option.filter_some, hclass, if_true, Option.map_some]
  · intro m hm
    exact hmade _ _ _ (by simp [product?, hm])
  · intro m hm
    refine ⟨(hstatic rfl m hm).1, fun a ha r hr => ?_⟩
    have hpair : Wants env site .methodInvoke base points (o, some r) := by
      refine ⟨ho, fun r' hr' => ⟨rfl, a, ha, ?_⟩⟩
      rwa [← Option.some.inj hr']
    exact ((h _ hpair).2 rfl m hm).2 r rfl

end ActionModel

/-- The objects of the plugin begin as none. -/
theorem kind_of_new {o : Options} {files : Files} (h : State.new o p files = .ok st) :
    st.actions.made.kind = .reflective := by
  rcases (State.eq_of_new h).2 with hst | hst
  all_goals
    rw [hst]
    rfl

end Reflection

/-- In a fixpoint of an analysis of reflection for a tidy program every call that acts has done
all that it is for, in whatever order the objects arrived, if the log does not cover it and its
base is not the receiver of its method. -/
theorem Analysis.performed_of_runFrom {a : Analysis} (ds : List Declaration) {p : Program}
    (hbuild : (Builder.ofList ds).build = .ok p) (htidy : p.Tidy)
    (hextra : ∀ m ∈ a.extra, m.Sound p ({} : Solver).settled)
    (hon : a.options.reflection = true) {files : Reflection.Files} {st : Reflection.State}
    (hnew : Reflection.State.new a.options p files = .ok st) {steps : Nat}
    {entries : List MethodId} {result : Result}
    (hrun : a.runFrom steps p files entries = .finished result) {site : QSite} {m : MethodId}
    {api : Reflection.Api} {base : VarId}
    (hsite : Reflection.ActionModel.Site (a.setting p) st site m api base) :
    Reflection.ActionModel.Performed (a.setting p) result.solver.settled result.solver.pointsTo
      site api base := by
  have hb : (a.setting p).program.Built :=
    Program.built_of_build (Builder.numbered_ofList ds) hbuild
  refine Reflection.ActionModel.performed_of_done hsite.acts fun x hx => ?_
  refine Reflection.fulfilled_of_runFrom ds hbuild htidy hextra hon hnew hrun
    (Reflection.ActionModel.duty hb.numbered (Reflection.kind_of_new hnew) hsite) ?_
    (fun _ hsince => by cases hsince) hx
  intro calls points hreached o ho
  have hhome : p.home ⟨site.context, base⟩ = ⟨site.context, m⟩ :=
    htidy.home_eq (m := ⟨site.context, m⟩) hsite.stmt (by
      have hbase : (p.invoke site.item).base = some base := hsite.based
      simp [Program.mentioned, hbase])
  exact hhome ▸ hreached ho hsite.ordinary

/-- A method that looks a method up by name and invokes it on an object that it makes. -/
def Reflection.invokingProgram : List Declaration :=
  [.cls (.plain "A"), .method ⟨"A", "m", [], .void, false, false, true⟩,
    .method ⟨"A", "main", [], .void, true, false, true⟩, .var ⟨1⟩ "c" .classClass,
    .var ⟨1⟩ "n" .string, .var ⟨1⟩ "f" Reflection.Api.methodClass, .var ⟨1⟩ "a" (.cls "A"),
    .stmt ⟨1⟩ (.literal ⟨1⟩ (.cls (.cls "A"))), .stmt ⟨1⟩ (.literal ⟨2⟩ (.str "m")),
    .call ⟨1⟩ ⟨.virtual, Reflection.Api.ofClass "getDeclaredMethod"
      [.string, .array .classClass] Reflection.Api.methodClass, some ⟨1⟩, [⟨2⟩], some ⟨3⟩⟩,
    .stmt ⟨1⟩ (.new ⟨4⟩ (.cls "A")),
    .call ⟨1⟩ ⟨.virtual, ⟨"java.lang.reflect.Method", "invoke",
      [Reflection.Api.object, .array Reflection.Api.object], Reflection.Api.object⟩, some ⟨3⟩,
      [⟨4⟩], none⟩]

/-- Options by which classes and methods are found by string constants. -/
def Reflection.byName : Options :=
  { oneCallSite false true with reflectionInference := some Inference.stringConstant.text }

/-- The method that was looked up is run on the object that was made. -/
theorem Analysis.performed_of_runFrom_invoking :
    let a : Analysis := { options := Reflection.byName }
    let p := (settingOf Reflection.invokingProgram a.options).program
    ∃ result, a.runFrom 20 p (fun _ => none) [⟨1⟩] = .finished result ∧
      result.solver.settled.RunsOn (a.setting p) ⟨emptyContext, ⟨1⟩⟩ ⟨emptyContext, ⟨2⟩⟩ ⟨0⟩
        (.reflective { api := .methodInvoke, args := none }) := by
  intro a p
  have hfacts : (match a.runFrom 20 p (fun _ => none) [⟨1⟩] with
      | .finished result =>
          decide (⟨emptyContext, ⟨3⟩⟩ ∈ result.solver.pointsTo.get (varPointer emptyContext ⟨3⟩) ∧
            ⟨emptyContext, ⟨2⟩⟩ ∈ result.solver.pointsTo.get (varPointer emptyContext ⟨4⟩) ∧
            Reflection.denotedMethod? (result.solver.heap.get ⟨3⟩) = some ⟨0⟩ ∧
            Reflection.invokedOn? p ⟨0⟩ (result.solver.heap.get ⟨2⟩).type = some ⟨0⟩)
      | _ => false) = true := by decide +kernel
  cases hrun : a.runFrom 20 p (fun _ => none) [⟨1⟩] with
  | failed | unfinished =>
      rw [hrun] at hfacts
      cases hfacts
  | finished result =>
      rw [hrun] at hfacts
      obtain ⟨hmeta, hobject, hdenotes, hfound⟩ := of_decide_eq_true hfacts
      have hsite : Reflection.ActionModel.Site (a.setting p) { strings := some {} }
          ⟨emptyContext, ⟨1⟩⟩ ⟨1⟩ .methodInvoke ⟨3⟩ :=
        ⟨by decide +kernel, by decide +kernel, by decide, by decide +kernel, rfl,
          by decide +kernel⟩
      have hperformed := Analysis.performed_of_runFrom Reflection.invokingProgram
        (Program.build_of_checks (by decide +kernel) (by decide +kernel))
        (Program.tidy_of_checks (by decide +kernel) (by decide +kernel) (by decide +kernel))
        (by simp [a]) rfl rfl hrun hsite
      have hinvoked := (hperformed _ hmeta ⟨0⟩ hdenotes).2 ⟨4⟩ (by decide +kernel) _ hobject
      exact ⟨result, rfl, hinvoked (by decide +kernel) (by decide +kernel) ⟨0⟩ hfound⟩

end PointsTo
