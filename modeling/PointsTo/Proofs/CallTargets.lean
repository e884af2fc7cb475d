import PointsTo.Proofs.Dispatch
import PointsTo.Proofs.PluginLicences

/-!
# Where call edges lead

An edge is to lead to a method that has a body, and a reflective edge is to lead to a constructor
exactly where an object is made.  Static calls, dispatch and calls that wait on their receiver look
for a body; what a handle or a reflective construction names is run as it is.  Methods that are
invoked by reflection are no constructors; but what a log names for the construction of an object
need not be one.

Main results:

- {lit}`CallEdge.Unchecked`: the edges whose methods are run as they are; theorem
  {lit}`Analysis.concrete_of_arises`: all others lead to methods with a body.
- {lit}`CallEdge.Consistent`, and theorem {lit}`Analysis.consistent_of_arises`: reflective edges
  fit the calls that they leave, as far as the log names constructors for constructions.
-/

namespace PointsTo

open Reflection

variable {p : Program} {m : MethodId}

/-! ## Methods that are found by their keys -/

/-- A method with the key of another one is a constructor only if that is one; for names of
methods have no parentheses. -/
theorem Method.isConstructor_of_dispatchKey {x y : Method} (h : x.dispatchKey = y.dispatchKey)
    (hname : '(' ∉ y.name.toList) (hx : x.isConstructor = true) : y.isConstructor = true := by
  have hx' : x.name = constructorName := by simpa [isConstructor] using hx
  have hkeys : x.name.toList ++ '(' :: ((JavaType.listText x.paramTypes).toList ++ [')']) =
      y.name.toList ++ '(' :: ((JavaType.listText y.paramTypes).toList ++ [')']) := by
    have hlist := congrArg String.toList h
    simpa [dispatchKey, dispatchKeyOf, String.toList_append] using hlist
  have hno : '(' ∉ x.name.toList := by
    rw [hx']
    decide
  -- both names end at the first parenthesis
  have htake : ∀ (l r : List Char), '(' ∉ l → (l ++ '(' :: r).takeWhile (· ≠ '(') = l := by
    intro l r hl
    have hl' : ∀ c ∈ l, decide (c ≠ '(') = true := by
      intro c hc
      simp only [ne_eq, decide_eq_true_eq]
      rintro rfl
      exact hl hc
    rw [List.takeWhile_append_of_pos hl']
    simp
  have hsame := congrArg (List.takeWhile (· ≠ '(')) hkeys
  rw [htake _ _ hno, htake _ _ hname] at hsame
  have hyx : y.name = x.name := String.toList_injective hsame.symm
  simp [isConstructor, hyx, hx']

theorem Method.dispatchKey_ref (x : Method) : x.ref.dispatchKey = x.dispatchKey := rfl

/-- A method that is invoked on a receiver has a body, and the key of the method that was named. -/
theorem Reflection.invokedOn?_eq_some {target : MethodId} {type : JavaType}
    (h : invokedOn? p target type = some m) : (p.method m).isAbstract = false ∧
      (p.method m).dispatchKey = (p.method target).dispatchKey := by
  unfold invokedOn? at h
  dsimp only at h
  split at h
  · obtain ⟨hm, hconcrete⟩ := Program.concrete?_eq_some h
    refine ⟨hconcrete, ?_⟩
    rw [Option.some.injEq] at hm
    subst hm
    cases hd : p.dispatch? type (p.method target).ref with
    | none => rw [Option.getD_none]
    | some n => rw [Option.getD_some, Program.dispatchKey_of_dispatch? hd, Method.dispatchKey_ref]
  · cases h

/-! ## Methods with a body -/

/-- The method that an edge leads to is run as it is, whether it has a body or not: a static method
or a constructor that a handle names, a constructor that makes an object by reflection, a static
method that is invoked by reflection. -/
inductive CallEdge.Unchecked (p : Program) (e : CallEdge) : Prop
  | handle {call} (hk : e.kind = .lambda call) (h : Lambda.Names p e.callee.item)
  | construction {call} (hk : e.kind = .reflective call) (h : call.api ≠ .methodInvoke)
  | static {call} (hk : e.kind = .reflective call) (hapi : call.api = .methodInvoke)
      (h : (p.method e.callee.item).isStatic = true)

theorem CallEdge.Licensed.concrete_or_unchecked {log : Option LogModel} {T : Solver} {e : CallEdge}
    (h : e.Licensed p log T) : (p.method e.callee.item).isAbstract = false ∨ e.Unchecked p := by
  cases h with
  | ordinary _ h => exact .inl h
  | pending _ h => exact .inl h
  | handle hk h => exact .inr (.handle hk h)
  | @reflective call hk h =>
      generalize hapi : call.api = api at h
      cases h with
      | ofClass => exact .inr (.construction hk (by simp [hapi]))
      | byConstructor => exact .inr (.construction hk (by simp [hapi]))
      | static _ _ hstatic => exact .inr (.static hk hapi hstatic)
      | onReceiver _ _ hcallee => exact .inl (invokedOn?_eq_some hcallee).1

/-- In every state of a run, an edge leads to a method with a body unless it is one of those that
are not checked for that. -/
theorem Analysis.concrete_of_arises {a : Analysis} (ds : List Declaration)
    (hbuild : (Builder.ofList ds).build = .ok p) (hextra : a.extra = []) {files : Files}
    {entries : List MethodId} {m : Machine Member} (h : a.Arises p files entries m) {e : CallEdge}
    (he : e ∈ m.solver.calls.edges) :
    (p.method e.callee.item).isAbstract = false ∨ e.Unchecked p := by
  have hb := Program.built_of_build (Builder.numbered_ofList ds) hbuild
  obtain ⟨_, _, hlicensed⟩ := Analysis.licensed_of_arises hb.numbered hextra h
  exact (hlicensed.edges (.inl he)).concrete_or_unchecked

/-- The call on an object leads to a method with a body. -/
theorem Analysis.concrete_of_arises_calling :
    let a : Analysis := { options := oneCallSite true false }
    let p := (settingOf callingProgram a.options).program
    ∃ m, a.Arises p (fun _ => none) [⟨1⟩] m ∧
      ⟨⟨emptyContext, ⟨0⟩⟩, ⟨⟨1⟩, ⟨0⟩⟩, .virtual⟩ ∈ m.solver.calls.edges ∧
      (p.method ⟨0⟩).isAbstract = false := by
  intro a p
  have hbuild : (Builder.ofList callingProgram).build = .ok p :=
    Program.build_of_checks (by decide +kernel) (by decide +kernel)
  have hb := Program.built_of_build (Builder.numbered_ofList _) hbuild
  have hfacts : (match a.runFrom 10 p (fun _ => none) [⟨1⟩] with
      | .finished result =>
          decide ((⟨⟨emptyContext, ⟨0⟩⟩, ⟨⟨1⟩, ⟨0⟩⟩, .virtual⟩ : CallEdge) ∈
            result.solver.calls.edges)
      | _ => false) = true := by decide +kernel
  cases hrun : a.runFrom 10 p (fun _ => none) [⟨1⟩] with
  | failed | unfinished =>
      rw [hrun] at hfacts
      cases hfacts
  | finished result =>
      rw [hrun] at hfacts
      obtain ⟨m, hm, hsolver⟩ := Analysis.arises_of_runFrom hb (by simp [a]) hrun
      have hedge := of_decide_eq_true hfacts
      rw [← hsolver] at hedge
      refine ⟨m, hm, hedge, ?_⟩
      rcases Analysis.concrete_of_arises callingProgram hbuild rfl hm hedge with h | h
      · exact h
      · cases h with
        | handle hk => cases hk
        | construction hk => cases hk
        | static hk => cases hk

/-- A method that makes a lambda of what a handle names as a static method, and calls it. -/
def handlingProgram : List Declaration :=
  [.cls (.plain "A"), .method ⟨"A", "m", [], .void, false, true, true⟩,
    .method ⟨"A", "main", [], .void, true, false, true⟩, .var ⟨1⟩ "f" (.cls "F"),
    .dynamicCall ⟨1⟩
      { dynamic :=
          { bootstrap := Lambda.metafactory, methodName := "run", methodType := ⟨[], .cls "F"⟩
            bootstrapArgs :=
              [.methodType ⟨[], .void⟩, .handle ⟨.invokeStatic, ⟨"A", "m", [], .void⟩⟩] }
        captured := [], result := some ⟨0⟩ },
    .call ⟨1⟩ ⟨.interface, ⟨"F", "run", [], .void⟩, some ⟨0⟩, [], none⟩]

/-- A handle may lead a call to a method without a body. -/
theorem Analysis.abstract_of_handle :
    let a : Analysis := { options := oneCallSite true false }
    let p := (settingOf handlingProgram a.options).program
    (Builder.ofList handlingProgram).build = .ok p ∧
      ∃ result, a.runFrom 10 p (fun _ => none) [⟨1⟩] = .finished result ∧
        ∃ e ∈ result.solver.calls.edges, (p.method e.callee.item).isAbstract = true := by
  intro a p
  refine ⟨Program.build_of_checks (by decide +kernel) (by decide +kernel), ?_⟩
  have hfacts : (match a.runFrom 10 p (fun _ => none) [⟨1⟩] with
      | .finished result =>
          result.solver.calls.edges.toList.any fun e => (p.method e.callee.item).isAbstract
      | _ => false) = true := by decide +kernel
  cases hrun : a.runFrom 10 p (fun _ => none) [⟨1⟩] with
  | failed | unfinished =>
      rw [hrun] at hfacts
      cases hfacts
  | finished result =>
      rw [hrun] at hfacts
      obtain ⟨e, he, habstract⟩ := List.any_eq_true.1 hfacts
      exact ⟨result, rfl, e, he, habstract⟩

/-! ## Reflective calls -/

/-- The method of the platform that an edge of a reflective call stands for. -/
def ReflectiveApi.api : ReflectiveApi → Api
  | classNewInstance => .classNewInstance
  | constructorNewInstance => .constructorNewInstance
  | methodInvoke => .methodInvoke

/-- A reflective edge fits the call that it leaves.  The state is that in which the edge is
found. -/
structure CallEdge.Consistent (p : Program) (log : Option LogModel) (s : Solver) (e : CallEdge)
    (call : ReflectiveCall) : Prop where
  /-- The call is one to the method that the edge stands for. -/
  site : Api.classify (p.invoke e.site.item).target = some call.api.api
  /-- An object is made of a class by a constructor of the class; an object that is made by a
  constructor may also be made by a method that the log names for that. -/
  constructor : call.api ≠ .methodInvoke →
    (p.method e.callee.item).isConstructor = true ∨
      call.api = .constructorNewInstance ∧
        Reported p log e.site.item .constructorNewInstance e.callee.item
  /-- The object that is made, and reaches the result, is of the class of the method. -/
  made : call.api ≠ .methodInvoke → s.MadeAt p e.site (p.method e.callee.item).declaringType
  /-- What is invoked is no constructor. -/
  method : call.api = .methodInvoke → (∀ i, '(' ∉ (p.method i).name.toList) →
    (p.method e.callee.item).isConstructor = false

theorem Reflection.Licence.consistent {log : Option LogModel} {s : Solver} {e : CallEdge}
    {call : ReflectiveCall} (hlisted : p.Listed)
    (h : Licence p log s e.site e.callee.item call.api) : e.Consistent p log s call := by
  generalize hapi : call.api = api at h
  cases h with
  | @ofClass c hsite hcallee hmade =>
      have hmem : e.callee.item ∈ p.constructors c := List.mem_of_find?_eq_some hcallee
      obtain ⟨_, _, _, hconstructor⟩ := Program.mem_constructors.1 hmem
      refine ⟨by rw [hapi]; exact hsite, fun _ => .inl hconstructor, fun _ => ?_, by simp [hapi]⟩
      rw [Method.declaringType, hlisted.className_of_constructors hmem]
      exact hmade
  | byConstructor hsite hcallee hmade =>
      exact ⟨by rw [hapi]; exact hsite, fun _ => hcallee.imp_right fun h => ⟨hapi, h⟩,
        fun _ => hmade, by simp [hapi]⟩
  | static hsite hno hstatic =>
      exact ⟨by rw [hapi]; exact hsite, by simp [hapi], by simp [hapi], fun _ _ => hno⟩
  | @onReceiver target _ hsite hno hcallee =>
      refine ⟨by rw [hapi]; exact hsite, by simp [hapi], by simp [hapi], fun _ hnames => ?_⟩
      refine Bool.eq_false_iff.2 fun hconstructor => ?_
      have htarget := Method.isConstructor_of_dispatchKey (invokedOn?_eq_some hcallee).2
        (hnames target) hconstructor
      exact absurd (hno.symm.trans htarget) Bool.false_ne_true

/-- In every state of a run, a reflective edge leaves a call to the method that it stands for.
Where it makes an object, that is of the class of the method that is run, and the method is a
constructor unless the log names it; where it invokes a method, that is no constructor. -/
theorem Analysis.consistent_of_arises {a : Analysis} (ds : List Declaration)
    (hbuild : (Builder.ofList ds).build = .ok p) (hextra : a.extra = []) {files : Files}
    {entries : List MethodId} {m : Machine Member} (h : a.Arises p files entries m) :
    ∃ log, (∀ l ∈ log, readLog a.options p files = .ok (some l)) ∧
      ∀ e ∈ m.solver.calls.edges, ∀ call, e.kind = .reflective call →
        e.Consistent p log m.solver call := by
  have hb := Program.built_of_build (Builder.numbered_ofList ds) hbuild
  have hlisted := Program.listed_of_build (Builder.listed_ofList ds) hbuild
  obtain ⟨log, hread, hlicensed⟩ := Analysis.licensed_of_arises hb.numbered hextra h
  refine ⟨log, hread, fun e he call hk => ?_⟩
  cases hlicensed.edges (.inl he) with
  | ordinary hk' => rw [hk] at hk'; cases hk'
  | pending hk' => rw [hk] at hk'; cases hk'
  | handle hk' => rw [hk] at hk'; cases hk'
  | reflective hk' h =>
      obtain rfl : call = _ := CallKind.reflective.inj (hk.symm.trans hk')
      exact h.consistent hlisted

/-- A method that makes an object by a constructor that it has not looked up. -/
def Reflection.constructingProgram : List Declaration :=
  [.cls (.plain "A"), .method ⟨"A", "m", [], .void, false, false, true⟩,
    .method ⟨"A", "main", [], .void, true, false, true⟩,
    .var ⟨1⟩ "c" Api.constructorClass, .var ⟨1⟩ "o" Api.object,
    .call ⟨1⟩ ⟨.virtual, ⟨"java.lang.reflect.Constructor", "newInstance",
      [.array Api.object], Api.object⟩, some ⟨1⟩, [], some ⟨2⟩⟩]

/-- A log of one line, which names a method for a construction. -/
def Reflection.logOfConstruction : String :=
  "Constructor.newInstance;<A: void m()>;<A: void main()>;"

theorem Reflection.ofLog_logOfConstruction :
    LogModel.ofLog (settingOf constructingProgram byLog).program logOfConstruction =
      .ok { entries := [⟨⟨1⟩, .constructorNewInstance, .method ⟨0⟩, none⟩] } := by
  have hparse : Log.parse logOfConstruction =
      .ok [⟨.constructorNewInstance, "<A: void m()>", "<A: void main()>", none⟩] := by
    simp [logOfConstruction, Log.parse, Log.parseFrom, Log.parseNumbered, LogEntry.parse, Text.trim,
      Text.pieces, Text.splitAt, Text.trimChars, Text.isBlank, LogEntry.ofFields, Api.ofLogName?,
      Api.logged, Api.logName, LogEntry.parseLine]
    rfl
  let entry : LogEntry := ⟨.constructorNewInstance, "<A: void m()>", "<A: void main()>", none⟩
  have hresolve : [entry].filterMap
      (LogModel.resolved? (settingOf constructingProgram byLog).program) =
        [⟨⟨1⟩, .constructorNewInstance, .method ⟨0⟩, none⟩] := by decide +kernel
  unfold LogModel.ofLog
  rw [hparse]
  exact congrArg (fun entries => Except.ok { entries : LogModel }) hresolve

/-- The run ends with an edge by which the method makes an object. -/
theorem Reflection.finished_logOfConstruction :
    let a : Analysis := { options := byLog }
    let p := (settingOf constructingProgram a.options).program
    ∃ result, a.runFrom 20 p (fun _ => some logOfConstruction) [⟨1⟩] = .finished result ∧
      ⟨⟨emptyContext, ⟨0⟩⟩, ⟨⟨1⟩, ⟨0⟩⟩, .reflective ⟨.constructorNewInstance, none⟩⟩ ∈
        result.solver.calls.edges := by
  intro a p
  have hmembers : a.members p (fun _ => some logOfConstruction) = .ok
        [.reflection
          { log := some { entries := [⟨⟨1⟩, .constructorNewInstance, .method ⟨0⟩, none⟩] } }] := by
    unfold Analysis.members State.new readLog
    have hpath : byLog.reflectionLog = some "log" := rfl
    have hlog : LogModel.ofLog p logOfConstruction = _ := ofLog_logOfConstruction
    simp only [a, hpath, hlog]
    rfl
  have hfacts :
      let run := Machine.solve Member.plugin (a.setting p) 20 [⟨1⟩] (.new
        [.reflection
          { log := some { entries := [⟨⟨1⟩, .constructorNewInstance, .method ⟨0⟩, none⟩] } }])
      run.1 = .finished ∧
        ⟨⟨emptyContext, ⟨0⟩⟩, ⟨⟨1⟩, ⟨0⟩⟩, .reflective ⟨.constructorNewInstance, none⟩⟩ ∈
          run.2.solver.calls.edges := by decide +kernel
  generalize hsolve : Machine.solve Member.plugin (a.setting p) 20 [⟨1⟩] _ = run at hfacts
  obtain ⟨_, m⟩ := run
  obtain ⟨rfl, hedge⟩ := hfacts
  refine ⟨{ solver := m.solver, strategy := byLog.context }, ?_, hedge⟩
  unfold Analysis.runFrom
  rw [hmembers]
  dsimp only
  rw [hsolve]

/-- The edge fits its call: the object that is made is of the class of the method. -/
theorem Analysis.consistent_of_arises_constructing :
    let a : Analysis := { options := byLog }
    let p := (settingOf constructingProgram a.options).program
    let e : CallEdge :=
      ⟨⟨emptyContext, ⟨0⟩⟩, ⟨⟨1⟩, ⟨0⟩⟩, .reflective ⟨.constructorNewInstance, none⟩⟩
    ∃ m, a.Arises p (fun _ => some logOfConstruction) [⟨1⟩] m ∧ e ∈ m.solver.calls.edges ∧
      m.solver.MadeAt p e.site (.cls "A") := by
  intro a p e
  have hbuild : (Builder.ofList constructingProgram).build = .ok p :=
    Program.build_of_checks (by decide +kernel) (by decide +kernel)
  have hb := Program.built_of_build (Builder.numbered_ofList _) hbuild
  obtain ⟨result, hrun, hedge⟩ := finished_logOfConstruction
  obtain ⟨m, hm, hsolver⟩ := Analysis.arises_of_runFrom hb (by simp) hrun
  rw [← hsolver] at hedge
  obtain ⟨_, _, hconsistent⟩ :=
    Analysis.consistent_of_arises constructingProgram hbuild rfl hm
  have htype : (p.method e.callee.item).declaringType = .cls "A" := by decide +kernel
  have hmade := (hconsistent e hedge _ rfl).made (by simp)
  rw [htype] at hmade
  exact ⟨m, hm, hedge, hmade⟩

/-- A log may have a method make an object that is no constructor. -/
theorem Analysis.method_of_construction :
    let a : Analysis := { options := byLog }
    let p := (settingOf constructingProgram a.options).program
    (Builder.ofList constructingProgram).build = .ok p ∧
      ∃ result, a.runFrom 20 p (fun _ => some logOfConstruction) [⟨1⟩] = .finished result ∧
        ∃ e ∈ result.solver.calls.edges, ∃ call, e.kind = .reflective call ∧
          call.api = .constructorNewInstance ∧
            (p.method e.callee.item).isConstructor = false := by
  intro a p
  refine ⟨Program.build_of_checks (by decide +kernel) (by decide +kernel), ?_⟩
  obtain ⟨result, hrun, hedge⟩ := finished_logOfConstruction
  exact ⟨result, hrun, _, hedge, _, rfl, rfl, by decide +kernel⟩

end PointsTo
