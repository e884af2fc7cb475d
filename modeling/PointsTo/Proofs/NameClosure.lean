import PointsTo.Proofs.ActionClosure

/-!
# When classes and methods are found by name

A call that looks a method up pairs the classes that its base refers to with the names that its
argument refers to.  Whichever of the two comes last, the pair is looked at, as long as base and
argument are different variables.  A variable that is both pairs what is new to it as a name with
all that it refers to as a class; so a class is not paired with a name that was there before.

Main results:

- {lit}`StringModel.Answered`: a call has found all that it looks for.
- Theorem {lit}`StringModel.mem_lookedUp`: which pairs are looked at.
- Theorem {lit}`Analysis.answered_of_runFrom`: in the end every call by name has found all that it
  looks for, but for names that came before a class in the one variable for both.
- Theorem {lit}`Analysis.not_named_of_name_first`: such a name is not found in the class.
-/

namespace PointsTo

namespace Reflection

variable {env : Setting} {st : State} {call : Invoke} {p : Program}

/-- Classes and methods are looked up by name, and there is no log. -/
structure State.Infers (st : State) : Prop where
  log : st.log = none
  strings : st.strings.isSome = true

theorem State.Infers.of_retains {q : State} (h : st.Infers) (hq : st.Retains q) : q.Infers := by
  obtain ⟨hlog, _, hstrings, _, _⟩ := hq
  obtain ⟨hnone, hsome⟩ := h
  constructor
  · rw [hnone] at hlog
    generalize q.log = b at hlog ⊢
    cases hlog
    rfl
  · obtain ⟨m, hm⟩ := Option.isSome_iff_exists.1 hsome
    rw [hm] at hstrings
    generalize q.strings = b at hstrings ⊢
    cases hstrings
    rfl

theorem State.Infers.covers_eq (h : st.Infers) (call : Invoke) : st.covers call = false := by
  simp [covers, h.log]

/-- Where options ask for names to be inferred, the plugin has the model for it and no log. -/
theorem State.infers_of_new {o : Options} {files : Files} (h : State.new o p files = .ok st)
    (hmode : o.inference = .ok .stringConstant) : st.Infers := by
  obtain ⟨_, hvalid, h⟩ := except_bind_eq_ok.1 h
  obtain ⟨log, hlog, h⟩ := except_bind_eq_ok.1 h
  obtain ⟨mode, hm, h⟩ := except_bind_eq_ok.1 h
  rw [hmode] at hm
  cases hm
  cases h
  refine ⟨?_, rfl⟩
  cases hcheck : o.validate with
  | error e =>
      rw [hcheck] at hvalid
      cases hvalid
  | ok x =>
      -- valid options do not ask for both
      obtain ⟨_, _, hcheck⟩ := except_bind_eq_ok.1 hcheck
      obtain ⟨_, _, hcheck⟩ := except_bind_eq_ok.1 hcheck
      obtain ⟨_, hinference, hcheck⟩ := except_bind_eq_ok.1 hcheck
      rw [hmode] at hinference
      cases hinference
      cases hpath : o.reflectionLog with
      | none =>
          rw [readLog, hpath] at hlog
          exact (Except.ok.inj hlog).symm
      | some path =>
          rw [hpath] at hcheck
          cases hcheck

namespace StringModel

/-! ## Calls by name -/

/-- The calls that look methods up by name. -/
def methodCalls : List Api := [.getMethod, .getDeclaredMethod]

/-- The calls that look classes up by name. -/
def classCalls : List Api := [.forName, .loadClass]

/-- The model looks at a call by name whenever the name refers to more. -/
theorem name_offered {n : VarId} {api : Api} (hapi : Api.classify call.target = some api)
    (hn : call.args.head? = some n)
    (hcalls : api ∈ classCalls ∨ api ∈ methodCalls ∧ call.base.isSome = true) :
    (n, (call.id, api)) ∈ (({} : StringModel).offer call).2.relevant.pairs := by
  obtain ⟨rest, hargs⟩ := List.head?_eq_some_iff.1 hn
  unfold offer
  simp only [classCalls, methodCalls, List.mem_cons, List.not_mem_nil, or_false] at hcalls
  rcases hcalls with (rfl | rfl) | ⟨rfl | rfl, hbase⟩
  · simp [hapi, hargs, Waitlist.mem_register]
  · simp [hapi, hargs, Waitlist.mem_register]
  · obtain ⟨base, hbase⟩ := Option.isSome_iff_exists.1 hbase
    simp [hapi, hargs, hbase, Waitlist.mem_register]
  · obtain ⟨base, hbase⟩ := Option.isSome_iff_exists.1 hbase
    simp [hapi, hargs, hbase, Waitlist.mem_register]

/-- The model looks at a call for methods whenever the base refers to more. -/
theorem base_offered {base n : VarId} {api : Api} (hapi : Api.classify call.target = some api)
    (hcalls : api ∈ methodCalls) (hbase : call.base = some base)
    (hn : call.args.head? = some n) :
    (base, (call.id, api)) ∈ (({} : StringModel).offer call).2.relevant.pairs := by
  obtain ⟨rest, hargs⟩ := List.head?_eq_some_iff.1 hn
  unfold offer
  simp only [methodCalls, List.mem_cons, List.not_mem_nil, or_false] at hcalls
  rcases hcalls with rfl | rfl <;> simp [hapi, hargs, hbase, Waitlist.mem_register]

/-! ## Pairs -/

/-- A class that the base refers to and a name are looked at when the name is new, or when the
class is and the name is in another variable. -/
theorem mem_lookedUp {points : PointsToMap} {v : QVar} {delta : ObjSet} {base n : VarId}
    {c o : QObj} (hc : c ∈ points.get (varPointer v.context base))
    (ho : o ∈ points.get (varPointer v.context n))
    (hnew : v.item = n ∧ o ∈ delta ∨ v.item = base ∧ base ≠ n ∧ c ∈ delta) :
    c ∈ (lookedUp points v delta base n).1 ∧ o ∈ (lookedUp points v delta base n).2 := by
  unfold lookedUp
  dsimp only
  rcases hnew with ⟨hv, hod⟩ | ⟨hv, hne, hcd⟩
  · refine ⟨?_, by rwa [seen, if_pos hv.symm]⟩
    split
    · rename_i hsame
      rwa [show Pointer.var v = varPointer v.context base by rw [hsame.1]; rfl]
    · rename_i hsame
      have hbase : base ≠ v.item := fun heq => hsame ⟨heq, hv.symm⟩
      rwa [seen, if_neg hbase]
  · have hn : n ≠ v.item := fun heq => hne (hv.symm.trans heq.symm)
    rw [if_neg fun hsame => hn hsame.2, seen, if_pos hv.symm, seen, if_neg hn]
    exact ⟨hcd, ho⟩

/-- A class and a name that a call refers to.  Where one variable is both, the class was there
first. -/
structure Pairs (points : PointsToMap) (context : ContextId) (base n : VarId)
    (x : QObj × QObj) : Prop where
  cls : x.1 ∈ points.get (varPointer context base)
  name : x.2 ∈ points.get (varPointer context n)
  ordered : base = n → [x.1, x.2].Sublist (points.get (varPointer context n)).toList

/-- Of two entries in the order of a list, the later one is in the last part, or both are before
it. -/
theorem sublist_or_mem {c o : QObj} {l d : List QObj} (h : [c, o].Sublist (l ++ d)) :
    [c, o].Sublist l ∨ o ∈ d := by
  obtain ⟨l₁, l₂, heq, h₁, h₂⟩ := List.sublist_append_iff.1 h
  rcases List.eq_nil_or_concat l₂ with rfl | ⟨l₃, x, rfl⟩
  · rw [List.append_nil] at heq
    exact .inl (heq ▸ h₁)
  · have hlast : o = x := by simpa using congrArg List.getLast? heq
    exact .inr (h₂.subset (by simp [hlast]))

/-- When a variable refers to more, a pair was there already or is looked at now. -/
theorem Pairs.of_gains {before points : PointsToMap} {context : ContextId} {base n : VarId}
    {x : QObj × QObj} {v : QVar} {delta : ObjSet} (h : Pairs points context base n x)
    (hgains : before.Gains points v delta) :
    Pairs before context base n x ∨ ∃ u, v = ⟨context, u⟩ ∧ (u = n ∨ u = base) ∧
      x.1 ∈ (lookedUp points v delta base n).1 ∧ x.2 ∈ (lookedUp points v delta base n).2 := by
  by_cases hname : ⟨context, n⟩ = v ∧ x.2 ∈ delta
  · obtain ⟨rfl, hname⟩ := hname
    exact .inr ⟨n, rfl, .inl rfl, mem_lookedUp h.cls h.name (.inl ⟨rfl, hname⟩)⟩
  · have hname' : x.2 ∈ before.get (varPointer context n) :=
      (hgains.mem.1 h.name).resolve_right hname
    by_cases hsame : base = n
    · subst hsame
      refine .inl ?_
      have hordered : [x.1, x.2].Sublist (before.get (varPointer context base)).toList := by
        have hpoints := h.ordered rfl
        by_cases hv : ⟨context, base⟩ = v
        · subst hv
          rw [varPointer, hgains.grown] at hpoints
          exact (sublist_or_mem hpoints).resolve_right fun hmem => hname ⟨rfl, hmem⟩
        · have hother : varPointer context base ≠ .var v := fun heq => hv (Pointer.var.inj heq)
          rwa [hgains.same hother] at hpoints
      exact ⟨hordered.subset (by simp), hname', fun _ => hordered⟩
    · rcases hgains.mem.1 h.cls with hclass | ⟨rfl, hclass⟩
      · exact .inl ⟨hclass, hname', fun heq => absurd heq hsame⟩
      · exact .inr ⟨base, rfl, .inr rfl,
          mem_lookedUp h.cls h.name (.inr ⟨rfl, hsame, hclass⟩)⟩

/-! ## What is to be done -/

/-- A call has found all that it looks for: each class that its argument names, or each method
that its argument names in a class that its base refers to. -/
structure Answered (env : Setting) (k : View) (points : PointsToMap) (site : QSite) (api : Api)
    (n : VarId) : Prop where
  classes : api ∈ classCalls → ∀ o ∈ points.get (varPointer site.context n),
    ClassNamed env k site o
  methods : api ∈ methodCalls → ∀ base ∈ (env.program.invoke site.item).base,
    ∀ x, Pairs points site.context base n x → MethodsNamed env k site api x.1 x.2

/-- A call under a context whose first argument is a name, in a variable that is not the receiver
of its method. -/
structure Site (env : Setting) (site : QSite) (m : MethodId) (api : Api) (n : VarId) : Prop where
  stmt : .invoke site.item ∈ (env.program.method m).stmts
  classified : Api.classify (env.program.invoke site.item).target = some api
  named : (env.program.invoke site.item).args.head? = some n
  ordinary : ¬ env.program.IsReceiver n

theorem Site.id_eq {site : QSite} {m : MethodId} {api : Api} {n : VarId}
    (h : Site env site m api n) (hp : env.program.Numbered) :
    (env.program.invoke site.item).id = site.item := by
  obtain ⟨rest, hargs⟩ := List.head?_eq_some_iff.1 h.named
  exact hp.invoke_id (v := n) (by simp [Program.mentioned, hargs])

/-- The models look at the call when they know of its method. -/
theorem Site.watches {site : QSite} {m : MethodId} {api : Api} {n : VarId} {q : State}
    (h : Site env site m api n) (hq : q.Knows env.program (.methodIn ⟨site.context, m⟩)) :
    q.Watches (env.program.invoke site.item) :=
  hq.1 _ (Program.mem_invokesIn.2 ⟨_, h.stmt, rfl⟩)

section

variable {s t : Solver} {k l : View} {site : QSite} {m : MethodId} {api : Api} {base n : VarId}
  {points points' : PointsToMap}

/-- When a variable refers to more, a call that the model looks at it for finds what it looks
for. -/
theorem found_of_attends {q : State} {v : QVar} {u : VarId} {delta : ObjSet}
    (hst : State.Infers st) (hretains : st.Retains q)
    (hwatches : q.Watches (env.program.invoke site.item))
    (hid : (env.program.invoke site.item).id = site.item)
    (hattends : q.Attends env k points v delta) (hv : v = ⟨site.context, u⟩)
    (hmem : (u, ((env.program.invoke site.item).id, api)) ∈
      (({} : StringModel).offer (env.program.invoke site.item)).2.relevant.pairs) :
    Found env k points ⟨site.context, u⟩ delta site.item api := by
  have hinfers := hst.of_retains hretains
  obtain ⟨model, hmodel⟩ := Option.isSome_iff_exists.1 hinfers.strings
  subst hv
  rw [← hid]
  exact hattends.strings model hmodel _ _
    (hwatches.strings (hinfers.covers_eq _) model hmodel _ hmem)

/-- What the plugin has to do at a call that looks classes up. -/
def classDuty (hp : env.program.Numbered) (hst : st.Infers) (h : Site env site m api n)
    (hcalls : api ∈ classCalls) :
    Plugin.Duty (memory env st) (fun k x => x.Sound env.program k) QObj where
  since := none
  Given := fun calls points => ∀ o ∈ points.get (varPointer site.context n),
    ⟨site.context, m⟩ ∈ calls.reachableIn
  Wants := fun points o => o ∈ points.get (varPointer site.context n)
  Done := fun k o => ClassNamed env k site o
  start := fun _ o ho => absurd ho (OrderedSet.not_mem_empty _)
  vars := fun hvars ho => hvars ⟨site.context, n⟩ ▸ ho
  mono := fun hg ho hdone hle =>
    hdone.mono ((hg.points _ _ ho).mono (Solver.settled_le_expected _)) hle
  grown := by
    intro s t y y' v delta before o hg hsound hcovers hgiven _ hholds hgains ho hr
    obtain ⟨q, hretains, hknows, hattends⟩ := attends_of_covers hcovers hp hg hsound hholds hr
    rcases hgains.mem.1 ho with hold | ⟨hv, hnew⟩
    · exact .inl hold
    · refine .inr ?_
      have hfound := found_of_attends hst hretains (h.watches (hknows (hgiven o ho)))
        (h.id_eq hp) hattends hv.symm (name_offered h.classified h.named (.inl hcalls))
      simp only [classCalls, List.mem_cons, List.not_mem_nil, or_false] at hcalls
      rcases hcalls with rfl | rfl <;> exact hfound o hnew
  entered := fun hsince => by cases hsince

/-- What the plugin has to do at a call that looks methods up. -/
def methodDuty (hp : env.program.Numbered) (hst : st.Infers) (h : Site env site m api n)
    (hcalls : api ∈ methodCalls) (hbase : (env.program.invoke site.item).base = some base) :
    Plugin.Duty (memory env st) (fun k x => x.Sound env.program k) (QObj × QObj) where
  since := none
  Given := fun calls points => ∀ o ∈ points.get (varPointer site.context n),
    ⟨site.context, m⟩ ∈ calls.reachableIn
  Wants := fun points x => Pairs points site.context base n x
  Done := fun k x => MethodsNamed env k site api x.1 x.2
  start := fun _ x hx => absurd hx.name (OrderedSet.not_mem_empty _)
  vars := fun hvars hx => ⟨hvars ⟨site.context, base⟩ ▸ hx.cls, hvars ⟨site.context, n⟩ ▸ hx.name,
    fun hsame => hvars ⟨site.context, n⟩ ▸ hx.ordered hsame⟩
  mono := fun hg hx hdone hle =>
    hdone.mono ((hg.points _ _ hx.cls).mono (Solver.settled_le_expected _))
      ((hg.points _ _ hx.name).mono (Solver.settled_le_expected _)) hle
  grown := by
    intro s t y y' v delta before x hg hsound hcovers hgiven _ hholds hgains hx hr
    obtain ⟨q, hretains, hknows, hattends⟩ := attends_of_covers hcovers hp hg hsound hholds hr
    rcases hx.of_gains hgains with hold | ⟨u, hv, hu, hclass, hname⟩
    · exact .inl hold
    · refine .inr ?_
      have hoffered : (u, ((env.program.invoke site.item).id, api)) ∈
          (({} : StringModel).offer (env.program.invoke site.item)).2.relevant.pairs := by
        rcases hu with rfl | rfl
        · exact name_offered h.classified h.named (.inr ⟨hcalls, by simp [hbase]⟩)
        · exact base_offered h.classified hcalls hbase h.named
      have hfound := found_of_attends hst hretains (h.watches (hknows (hgiven x.2 hx.name)))
        (h.id_eq hp) hattends hv hoffered
      rw [hv] at hclass hname
      simp only [methodCalls, List.mem_cons, List.not_mem_nil, or_false] at hcalls
      rcases hcalls with rfl | rfl <;>
        exact hfound base n hbase h.named x.1 hclass x.2 hname
  entered := fun hsince => by cases hsince

end

end StringModel

end Reflection

/-- In a fixpoint of an analysis that infers names in a tidy program, every call by name has
found all that it looks for, in whatever order classes and names arrived in different variables;
the name is not in the receiver of its method. -/
theorem Analysis.answered_of_runFrom {a : Analysis} (ds : List Declaration) {p : Program}
    (hbuild : (Builder.ofList ds).build = .ok p) (htidy : p.Tidy)
    (hextra : ∀ m ∈ a.extra, m.Sound p ({} : Solver).settled)
    (hon : a.options.reflection = true) (hmode : a.options.inference = .ok .stringConstant)
    {files : Reflection.Files} {steps : Nat} {entries : List MethodId} {result : Result}
    (hrun : a.runFrom steps p files entries = .finished result) {site : QSite} {m : MethodId}
    {api : Reflection.Api} {n : VarId}
    (hsite : Reflection.StringModel.Site (a.setting p) site m api n) :
    Reflection.StringModel.Answered (a.setting p) result.solver.settled result.solver.pointsTo
      site api n := by
  obtain ⟨st, hnew⟩ := Reflection.exists_of_runFrom hon hrun
  have hinfers := Reflection.State.infers_of_new hnew hmode
  have hb : (a.setting p).program.Built :=
    Program.built_of_build (Builder.numbered_ofList ds) hbuild
  -- the name refers to nothing before its method is reachable
  have hgiven : ∀ {calls : CallGraph} {points : PointsToMap},
      (∀ {v o}, o ∈ points.get (.var v) → ¬ p.IsReceiver v.item → p.home v ∈ calls.reachableIn) →
        ∀ o ∈ points.get (varPointer site.context n), ⟨site.context, m⟩ ∈ calls.reachableIn := by
    intro calls points hreached o ho
    have hhome : p.home ⟨site.context, n⟩ = ⟨site.context, m⟩ :=
      htidy.home_eq (m := ⟨site.context, m⟩) hsite.stmt (by
        obtain ⟨rest, hargs⟩ := List.head?_eq_some_iff.1 hsite.named
        have hargs' : (p.invoke site.item).args = n :: rest := hargs
        simp [Program.mentioned, hargs'])
    exact hhome ▸ hreached ho hsite.ordinary
  refine ⟨fun hcalls o ho => ?_, fun hcalls base hbase x hx => ?_⟩
  · exact Reflection.fulfilled_of_runFrom ds hbuild htidy hextra hon hnew hrun
      (Reflection.StringModel.classDuty hb.numbered hinfers hsite hcalls) hgiven
      (fun _ hsince => by cases hsince) ho
  · exact Reflection.fulfilled_of_runFrom ds hbuild htidy hextra hon hnew hrun
      (Reflection.StringModel.methodDuty hb.numbered hinfers hsite hcalls hbase) hgiven
      (fun _ hsince => by cases hsince) hx

/-- A method whose one variable refers to two literals and that looks a method up by it in
itself. -/
def Reflection.namingProgram (first second : Literal) : List Declaration :=
  [.cls (.plain "A"), .method ⟨"A", "m", [], .void, true, false, true⟩,
    .method ⟨"A", "main", [], .void, true, false, true⟩, .var ⟨1⟩ "x" Reflection.Api.object,
    .var ⟨1⟩ "r" Reflection.Api.methodClass, .stmt ⟨1⟩ (.literal ⟨0⟩ first),
    .stmt ⟨1⟩ (.literal ⟨0⟩ second),
    .call ⟨1⟩ ⟨.virtual, Reflection.Api.ofClass "getDeclaredMethod"
      [.string, .array .classClass] Reflection.Api.methodClass, some ⟨0⟩, [⟨0⟩], some ⟨1⟩⟩]

/-- If the class comes first, its method is found. -/
theorem Analysis.answered_of_runFrom_naming :
    let a : Analysis := { options := Reflection.byName }
    let p := (settingOf (Reflection.namingProgram (.cls (.cls "A")) (.str "m")) a.options).program
    ∃ result, a.runFrom 10 p (fun _ => none) [⟨1⟩] = .finished result ∧
      Reflection.Presented (a.setting p) result.solver.settled ⟨emptyContext, ⟨0⟩⟩
        (Reflection.methodMeta ⟨0⟩) := by
  intro a p
  have hfacts : (match a.runFrom 10 p (fun _ => none) [⟨1⟩] with
      | .finished result =>
          decide ((result.solver.pointsTo.get (varPointer emptyContext ⟨0⟩)).toList =
              [⟨emptyContext, ⟨0⟩⟩, ⟨emptyContext, ⟨1⟩⟩] ∧
            Reflection.denotedClass? (result.solver.heap.get ⟨0⟩) = some "A" ∧
            (result.solver.heap.get ⟨1⟩).string? = some "m")
      | _ => false) = true := by decide +kernel
  cases hrun : a.runFrom 10 p (fun _ => none) [⟨1⟩] with
  | failed | unfinished =>
      rw [hrun] at hfacts
      cases hfacts
  | finished result =>
      rw [hrun] at hfacts
      obtain ⟨hpoints, hclass, hname⟩ := of_decide_eq_true hfacts
      have hsite : Reflection.StringModel.Site (a.setting p) ⟨emptyContext, ⟨0⟩⟩ ⟨1⟩
          .getDeclaredMethod ⟨0⟩ :=
        ⟨by decide +kernel, by decide +kernel, by decide +kernel, by decide +kernel⟩
      have hanswered := Analysis.answered_of_runFrom
        (Reflection.namingProgram (.cls (.cls "A")) (.str "m"))
        (Program.build_of_checks (by decide +kernel) (by decide +kernel))
        (Program.tidy_of_checks (by decide +kernel) (by decide +kernel) (by decide +kernel))
        (by simp [a]) rfl rfl hrun hsite
      have hpairs : Reflection.StringModel.Pairs result.solver.pointsTo emptyContext ⟨0⟩ ⟨0⟩
          (⟨emptyContext, ⟨0⟩⟩, ⟨emptyContext, ⟨1⟩⟩) :=
        ⟨by simp [OrderedSet.mem_def, hpoints], by simp [OrderedSet.mem_def, hpoints],
          fun _ => by simp [hpoints]⟩
      exact ⟨result, rfl, hanswered.methods (by decide) ⟨0⟩ (by decide +kernel) _ hpairs "A" hclass
        "m" hname ⟨0⟩ (by decide +kernel)⟩

/-- If the name comes first, the method is not found, although the variable refers to the class
and to the name of the method in the end. -/
theorem Analysis.not_named_of_name_first :
    let a : Analysis := { options := Reflection.byName }
    let p := (settingOf (Reflection.namingProgram (.str "m") (.cls (.cls "A"))) a.options).program
    p.Tidy ∧ ∃ result, a.runFrom 10 p (fun _ => none) [⟨1⟩] = .finished result ∧
      ⟨emptyContext, ⟨1⟩⟩ ∈ result.solver.calls.reachableIn ∧
      Reflection.StringModel.Site (a.setting p) ⟨emptyContext, ⟨0⟩⟩ ⟨1⟩ .getDeclaredMethod ⟨0⟩ ∧
      (p.invoke ⟨0⟩).base = some ⟨0⟩ ∧
      ⟨emptyContext, ⟨1⟩⟩ ∈ result.solver.pointsTo.get (varPointer emptyContext ⟨0⟩) ∧
      ⟨emptyContext, ⟨0⟩⟩ ∈ result.solver.pointsTo.get (varPointer emptyContext ⟨0⟩) ∧
      ¬ Reflection.StringModel.MethodsNamed (a.setting p) result.solver.settled
        ⟨emptyContext, ⟨0⟩⟩ .getDeclaredMethod ⟨emptyContext, ⟨1⟩⟩ ⟨emptyContext, ⟨0⟩⟩ := by
  intro a p
  refine ⟨Program.tidy_of_checks (by decide +kernel) (by decide +kernel) (by decide +kernel), ?_⟩
  have hfacts : (match a.runFrom 10 p (fun _ => none) [⟨1⟩] with
      | .finished result =>
          decide (⟨emptyContext, ⟨1⟩⟩ ∈ result.solver.calls.reachableIn ∧
            (result.solver.pointsTo.get (varPointer emptyContext ⟨0⟩)).toList =
              [⟨emptyContext, ⟨0⟩⟩, ⟨emptyContext, ⟨1⟩⟩] ∧
            (result.solver.pointsTo.get (varPointer emptyContext ⟨1⟩)).toList = [] ∧
            Reflection.denotedClass? (result.solver.heap.get ⟨1⟩) = some "A" ∧
            (result.solver.heap.get ⟨0⟩).string? = some "m")
      | _ => false) = true := by decide +kernel
  cases hrun : a.runFrom 10 p (fun _ => none) [⟨1⟩] with
  | failed | unfinished =>
      rw [hrun] at hfacts
      cases hfacts
  | finished result =>
      rw [hrun] at hfacts
      obtain ⟨hreached, hpoints, hnone, hclass, hname⟩ := of_decide_eq_true hfacts
      refine ⟨result, rfl, hreached,
        ⟨by decide +kernel, by decide +kernel, by decide +kernel, by decide +kernel⟩,
        by decide +kernel, by simp [OrderedSet.mem_def, hpoints],
        by simp [OrderedSet.mem_def, hpoints], ?_⟩
      intro hnamed
      obtain ⟨i, _, hi⟩ := hnamed "A" hclass "m" hname ⟨0⟩ (by decide +kernel) ⟨1⟩
        (by decide +kernel)
      have hmem : (⟨emptyContext, i⟩ : QObj) ∈
          (result.solver.pointsTo.get (varPointer emptyContext ⟨1⟩)).toList := hi
      rw [hnone] at hmem
      exact absurd hmem List.not_mem_nil

end PointsTo
