import PointsTo.Proofs.Closure
import PointsTo.Proofs.Interruptions
import PointsTo.Proofs.LambdaBounds
import PointsTo.Proofs.ReflectionBounds

/-!
# Runs never leave their tables

The plugins that come with the library keep to ids within their tables, and so do the rules of the
analysis.  Hence in every state of a run, whatever is mentioned by its number can be looked up.

Main results:

- {lit}`Member.Within`: all ids that a plugin remembers are in their tables.
- {lit}`Machine.Within`, {lit}`Machine.Moment.Within`: all ids that a run mentions are in the tables
  that it has got by then.
- Theorem {lit}`Analysis.within_of_members`: this is so at all moments of a run, and however it
  ends.
-/

namespace PointsTo

open Service

variable {env : Setting} {p : Program} {T : Sizes}

/-! ## Members -/

namespace Member

/-- All ids that a plugin remembers are in their tables.  It is one that comes with the library. -/
def Within (p : Program) (T : Sizes) : Member → Prop
  | lambda st => st.Within p T
  | reflection st => st.Within p T
  | script _ => False

theorem within_react {m : Member} (hp : env.program.Coherent) {e : Event}
    (hempty : emptyContext.Within env.program T) (he : e.Within env.program T)
    (hm : m.Within env.program T) :
    (plugin.react env e m).Within env.program T (Within env.program T) := by
  cases m with
  | lambda st => exact Asks.bind (Lambda.within_react hp he hm) fun _ h => h
  | reflection st => exact Asks.bind (Reflection.within_react hp he hm hempty) fun _ h => h
  | script s => exact hm.elim

end Member

/-- Plugins that come with the library begin with ids within their tables. -/
theorem Analysis.within_of_mem {a : Analysis} (hp : p.Numbered) (hextra : a.extra = [])
    {files : Reflection.Files} {members : List Member} (h : a.members p files = .ok members) :
    ∀ m ∈ members, m.Within p T := by
  intro m hm
  rcases Analysis.members_cases h hm with rfl | ⟨st, hst, rfl⟩ | hm
  · exact Lambda.State.within_new
  · exact Reflection.State.within_of_new hp hst
  · rw [hextra] at hm
    exact absurd hm List.not_mem_nil

/-! ## Runs -/

namespace Machine

/-- All ids that a machine mentions are in the tables of the program and in its own, and along
lambda edges values are passed only to parameters that there are. -/
structure Within (m : Machine Member) (p : Program) : Prop where
  solver : m.solver.Within p m.solver.sizes
  plugins : ∀ x ∈ m.plugins, x.Within p m.solver.sizes
  passed : ∀ e ∈ m.solver.calls.edges, ∀ call, e.kind = .lambda call →
    ∀ f ∈ Lambda.wiring p e call, f.kind = .parameterPassing →
      f.LeadsToParam (p.method e.callee.item) e.callee.context

/-- So are all ids that a plugin in the middle of a conversation asks for. -/
structure Moment.Within (x : Moment Member) (p : Program) : Prop where
  machine : x.machine.Within p
  requests : ∀ talk ∈ x.talk, ∀ r next, talk.rest = .ask r next →
    r.Within p x.machine.solver.sizes

variable {m : Machine Member} {members : List Member} {entries : List MethodId}

theorem Within.of_solver (hs : m.solver.Within p m.solver.sizes)
    (hplugins : ∀ x ∈ m.plugins, x.Within p m.solver.sizes) : m.Within p :=
  ⟨hs, hplugins, fun _ _ _ _ _ hf hkind => Lambda.leadsToParam_of_wiring hf hkind⟩

/-- A fact may be taken from the queue. -/
theorem Within.counted (h : m.Within p) {w : WorkItem} {rest : List WorkItem}
    (hq : m.solver.queue = w :: rest) : (m.counted rest).Within p :=
  .of_solver (h.solver.counted hq) h.plugins

/-- At every moment of a run all ids are in the tables. -/
theorem Occurs.within (hp : env.program.Coherent)
    (hentries : ∀ i ∈ entries, i.index < env.program.methods.size)
    (hmembers : ∀ T, ∀ m ∈ members, m.Within env.program T) {x : Moment Member}
    (h : Occurs Member.plugin env entries (.new members) x) : x.Within env.program := by
  have hempty : emptyContext.Within env.program x.machine.solver.sizes :=
    Id.within_of_has_context (s := {}) has_emptyContext h.extends
  have hupholds := upholds_of_within (u := x.machine.solver) (P := Member.plugin) hp hentries
    fun hempty he hm => Member.within_react hp hempty he hm
  obtain ⟨hs, hplugins, htalk⟩ := h.upholds hupholds (.new hempty) (hmembers _) (.refl _)
  refine ⟨.of_solver hs hplugins, fun talk htalking r next hask => ?_⟩
  have hasks := htalk talk htalking
  rw [hask] at hasks
  exact hasks.1

end Machine

/-- No id is out of range in a run of an analysis of a program that was built, from entry methods
that exist: neither at any moment of the run nor in the state that it leaves, however it ends and
after however many steps it is stopped.  Statements name existing call sites; and since a call is
added to the body of a method, the method that contains it exists. -/
theorem Analysis.within_of_members {a : Analysis} (ds : List Declaration)
    (hbuild : (Builder.ofList ds).build = .ok p)
    (hsites : ∀ i, p.HasStmt (.invoke i) → i.index < p.invokes.size)
    (hcontained : ∀ call ∈ p.invokes, call.container.index < p.methods.size)
    (hextra : a.extra = []) {entries : List MethodId}
    (hentries : ∀ i ∈ entries, i.index < p.methods.size) {files : Reflection.Files}
    {members : List Member} (hmembers : a.members p files = .ok members) :
    (∀ x, Machine.Occurs Member.plugin (a.setting p) entries (.new members) x → x.Within p) ∧
      ∀ steps outcome m,
        Machine.solve Member.plugin (a.setting p) steps entries (.new members) = (outcome, m) →
          m.Within p := by
  have hp : (a.setting p).program.Coherent := Program.coherent_of_build hbuild hsites hcontained
  have hwithin : ∀ T, ∀ m ∈ members, m.Within (a.setting p).program T := fun T =>
    Analysis.within_of_mem hp.built.numbered hextra hmembers
  have hgrounded : Machine.Grounded Member.plugin (a.setting p) entries (.new members) :=
    Analysis.grounded hp.built hmembers (by simp [hextra])
  refine ⟨fun x hx => hx.within hp hentries hwithin, fun steps outcome m hsolve => ?_⟩
  rcases Machine.arises_of_solve hgrounded Machine.has_emptyContext hsolve with
    ⟨talk, h⟩ | ⟨_, n, w, rest, h, hq, rfl⟩
  · exact (h.within hp hentries hwithin).machine
  · -- the fact that exceeds the budget was only taken from the queue
    exact (h.within hp hentries hwithin).machine.counted hq

/-- A method that captures an object in a reference to a method with a parameter, and calls that. -/
def passingProgram : List Declaration :=
  [.cls (.plain "A"), .method ⟨"A", "m", [.cls "A"], .void, true, false, true⟩,
    .method ⟨"A", "main", [], .void, true, false, true⟩,
    .var ⟨1⟩ "a" (.cls "A"), .var ⟨1⟩ "f" (.cls "F"), .stmt ⟨1⟩ (.new ⟨1⟩ (.cls "A")),
    .dynamicCall ⟨1⟩
      { dynamic :=
          { bootstrap := Lambda.metafactory, methodName := "run"
            methodType := ⟨[.cls "A"], .cls "F"⟩
            bootstrapArgs :=
              [.methodType ⟨[], .void⟩, .handle ⟨.invokeStatic, ⟨"A", "m", [.cls "A"], .void⟩⟩] }
        captured := [⟨1⟩], result := some ⟨2⟩ },
    .call ⟨1⟩ ⟨.interface, ⟨"F", "run", [], .void⟩, some ⟨2⟩, [], none⟩]

/-- The captured object is passed to the parameter that the method has. -/
theorem Analysis.within_of_members_passing :
    let a : Analysis := { options := oneCallSite true true }
    let p := (settingOf passingProgram a.options).program
    let start : Machine Member := .new [.newLambda, .reflection {}]
    let run := Machine.solve Member.plugin (a.setting p) 10 [⟨1⟩] start
    let call : LambdaCall := ⟨[⟨1⟩], emptyContext, none⟩
    let e : CallEdge := ⟨⟨emptyContext, ⟨1⟩⟩, ⟨⟨1⟩, ⟨0⟩⟩, .lambda call⟩
    a.members p (fun _ => none) = .ok [.newLambda, .reflection {}] ∧ run.1 = .finished ∧
      e ∈ run.2.solver.calls.edges ∧ run.2.Within p ∧
      ∃ f ∈ Lambda.wiring p e call, f.LeadsToParam (p.method ⟨0⟩) ⟨1⟩ := by
  intro a p start run call e
  have hbuild : (Builder.ofList passingProgram).build = .ok p :=
    Program.build_of_checks (by decide +kernel) (by decide +kernel)
  have hmembers : a.members p (fun _ => none) = .ok [.newLambda, .reflection {}] := rfl
  have hstmts : p.allStmts = [.new ⟨1⟩ (.cls "A"), .invoke ⟨0⟩, .invoke ⟨1⟩] := by decide +kernel
  have hsites : ∀ i, p.HasStmt (.invoke i) → i.index < p.invokes.size := by
    intro i hi
    have hmem := Program.mem_allStmts.2 hi
    simp only [hstmts, List.mem_cons, Stmt.invoke.injEq, List.not_mem_nil, or_false, reduceCtorEq,
      false_or] at hmem
    rcases hmem with rfl | rfl <;> decide +kernel
  have hcontained : ∀ call ∈ p.invokes, call.container.index < p.methods.size := by
    decide +kernel
  have hfinished : run.1 = .finished := by decide +kernel
  have hedge : e ∈ run.2.solver.calls.edges := by decide +kernel
  have hwithin : run.2.Within p := (Analysis.within_of_members passingProgram hbuild hsites
    hcontained rfl (by decide +kernel) hmembers).2 10 run.1 run.2 rfl
  have hpassed : (⟨varPointer emptyContext ⟨1⟩, varPointer ⟨1⟩ ⟨0⟩, .parameterPassing, none⟩ :
      FlowEdge) ∈ Lambda.wiring p e call := by decide +kernel
  exact ⟨hmembers, hfinished, hedge, hwithin, _, hpassed,
    hwithin.passed e hedge call rfl _ hpassed rfl⟩

end PointsTo
