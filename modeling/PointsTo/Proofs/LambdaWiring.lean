import Mathlib.Data.List.Nodup
import PointsTo.Proofs.EdgeKinds
import PointsTo.Proofs.Frames
import PointsTo.Proofs.LambdaFixpoint
import PointsTo.Proofs.PluginWarrants

/-!
# Lambda edges are wired

The plugin for lambdas reacts to a lambda edge with the flow along it, and adds no other flow.  So
in a run each value of each lambda edge goes where it belongs, and no parameter gets the value of
another one.

Main results:

- {lit}`Lambda.Routed`: all values along a lambda edge go where they belong.
- Theorem {lit}`Lambda.mem_flow_of_react`: the plugin adds the flow along the edge that it is told
  of, and no other.
- Theorem {lit}`Analysis.routed_of_visits`: in a run the plugin adds these edges for every lambda
  edge, and no others.
-/

namespace PointsTo

namespace Lambda

variable {p : Program} {e : CallEdge} {call : LambdaCall} {f : FlowEdge}

/-! ## Parameters -/

/-- Where parameters are different variables, each has one source. -/
theorem Wires.source_of_param (h : Wires p e call f)
    (hparams : (p.method e.callee.item).params.Nodup) {i : Nat} {param : VarId}
    (hparam : (p.method e.callee.item).params[i]? = some param)
    (hkind : f.kind = .parameterPassing) (htarget : f.target = varPointer e.callee.context param) :
    (sources p e call)[receivers (p.method e.callee.item) + i]? = some f.source := by
  cases h with
  | receiver | result => cases hkind
  | @param j source param' hsource hparam' =>
      obtain rfl : param' = param := by
        simpa [varPointer] using htarget
      obtain ⟨hi, hget⟩ := List.getElem?_eq_some_iff.1 hparam
      obtain rfl : i = j := (List.Nodup.getElem_inj_iff hparams).1
        (hget.trans (List.getElem?_eq_some_iff.1 hparam').2.symm)
      exact hsource

/-! ## Reactions -/

section React

variable {env : Setting} {s t : Solver} {st q : State}

/-- Of all events only a lambda edge makes the plugin add flow, and it adds just the flow along
that edge. -/
theorem mem_flow_of_react {event : Event} (h : (react env event st).run env s = .ok q t) :
    f ∈ t.flow.edges ↔ f ∈ s.flow.edges ∨
      ∃ e call, event = .edge e ∧ e.kind = .lambda call ∧ Wires env.program e call f := by
  by_cases hedge : ∃ e call, event = .edge e ∧ e.kind = .lambda call
  · obtain ⟨e, call, rfl, hk⟩ := hedge
    simp only [react, hk, Service.bind_eq, Service.run_bind, bind_eq_ok, Service.pure_eq,
      Service.run_done, pure_eq_ok] at h
    obtain ⟨_, _, hflows, rfl, rfl⟩ := h
    rw [Service.mem_flow_of_addFlows hflows, mem_wiring]
    constructor
    · exact Or.imp_right fun hf => ⟨e, call, rfl, hk, hf⟩
    · rintro (hf | ⟨e', call', he, hk', hf⟩)
      · exact .inl hf
      · cases he
        cases hk.symm.trans hk'
        exact .inr hf
  · have hnone : ∀ e call, event = .edge e → e.kind ≠ .lambda call :=
      fun e call he hk => hedge ⟨e, call, he, hk⟩
    rw [(flowless_react hnone).flow_eq h]
    refine (or_iff_left ?_).symm
    rintro ⟨e, call, he, hk, _⟩
    exact hnone e call he hk

end React

/-! ## Runs -/

/-- Where lambdas are analysed, one of the members is the plugin for them. -/
theorem mem_members {a : Analysis} {files : Reflection.Files} {members : List Member}
    (hon : a.options.lambda = true) (h : a.members p files = .ok members) :
    .newLambda ∈ members :=
  (Analysis.mem_members h).2 (.inl ⟨hon, rfl⟩)

/-- A lambda edge leads to a method of the program. -/
theorem callee_lt {env : Setting} {k : View} (h : env.program.Listed) (he : e.Warranted env k)
    (hk : e.kind = .lambda call) : e.callee.item.index < env.program.methods.size := by
  obtain ⟨_, horigin, _⟩ := he.selected
  cases horigin with
  | static hk' => cases hk.symm.trans hk'
  | dispatched _ _ hk' =>
      have hordinary := CallKind.isOrdinary_of_ofInvoke? hk'
      rw [hk] at hordinary
      cases hordinary
  | handle _ _ _ ht | construction _ _ _ ht => exact h.index_lt (Program.lists_of_resolve? ht)
  | pending _ _ _ _ _ ht => exact h.index_lt (Program.lists_of_pendingTarget? ht)
  | made hk' | invokedStatic hk' | invoked hk' => cases hk.symm.trans hk'

/-- All values that are passed along a lambda edge go where they belong. -/
structure Routed (p : Program) (e : CallEdge) (call : LambdaCall) (T : Solver) : Prop where
  /-- Values flow as they are to. -/
  flow : ∀ f, Wires p e call f → f ∈ T.flow.edges
  /-- Where one of the values is a receiver, there is a variable for it. -/
  receiver : receivers (p.method e.callee.item) = 1 →
    ∃ this, (p.method e.callee.item).receiver = some this
  /-- A parameter takes one of the values, and no other. -/
  source : ∀ f, Wires p e call f → f.kind = .parameterPassing →
    ∀ i param, (p.method e.callee.item).params[i]? = some param →
      f.target = varPointer e.callee.context param →
        (sources p e call)[receivers (p.method e.callee.item) + i]? = some f.source

end Lambda

/-- At every stage of a run, on any program and from any entry methods, values flow along every
lambda edge as they are to; and the plugin for lambdas adds no flow but that along the edges that it
is told of. -/
theorem Analysis.routed_of_visits {a : Analysis} (hextra : a.extra = []) (ds : List Declaration)
    {p : Program} (hbuild : (Builder.ofList ds).build = .ok p) {files : Reflection.Files}
    {members : List Member} (hmembers : a.members p files = .ok members)
    {entries : List MethodId} {stage : Machine.Stage Member}
    (hvisit : Machine.Visits Member.plugin (a.setting p) entries (.new members) stage) :
    (∀ e ∈ stage.machine.solver.calls.edges, ∀ call, e.kind = .lambda call →
      Lambda.Routed p e call stage.machine.solver) ∧
    ∀ event st s q t, (Lambda.react (a.setting p) event st).run (a.setting p) s = .ok q t →
      ∀ f, f ∈ t.flow.edges ↔ f ∈ s.flow.edges ∨
        ∃ e call, event = .edge e ∧ e.kind = .lambda call ∧ Lambda.Wires p e call f := by
  refine ⟨fun e he call hk => ?_, fun _ _ _ _ _ h _ => Lambda.mem_flow_of_react h⟩
  have hb := Program.built_of_build (Builder.numbered_ofList ds) hbuild
  have hlisted := Program.listed_of_build (Builder.listed_ofList ds) hbuild
  have hframed := Program.framed_of_build (Builder.framed_ofList ds) hbuild
  have hsound : ∀ m ∈ a.extra, m.Sound p ({} : Solver).settled := by simp [hextra]
  have harises := arises_of_visits hb hmembers hsound hvisit
  have hattains : a.Attains p files entries stage.machine := by
    obtain ⟨members, hmembers, h⟩ := harises
    exact ⟨members, hmembers, .inl h⟩
  have hon := lambda_of_attains hextra hattains (.inl he) ⟨call, hk⟩
  obtain ⟨k, hnewLambda⟩ := List.mem_iff_getElem?.1 (Lambda.mem_members hon hmembers)
  have hconnected := Lambda.connected_of_visits hnewLambda hvisit
    (Analysis.grounded hb hmembers hsound)
  have hwarranted := (warranted_of_attains hb hextra hattains).solver.calls (.inl he)
  refine ⟨fun f hf => ?_, fun hreceivers => ?_, fun f hf hkind i param hparam htarget => ?_⟩
  · exact hconnected.wiring e he call hk f (Lambda.mem_wiring.2 hf)
  · have hmethod := hframed.method (Lambda.callee_lt hlisted hwarranted hk)
    refine Option.isSome_iff_exists.1 (hmethod.receiver.trans ?_)
    unfold Lambda.receivers at hreceivers
    split at hreceivers
    · cases hreceivers
    · rename_i hno
      simp only [Bool.or_eq_true, not_or] at hno
      simpa using hno.1
  · exact hf.source_of_param (hframed.params _) hparam hkind htarget

/-- A captured object flows to the receiver of the method that a reference to it runs. -/
theorem Analysis.routed_of_visits_capturing :
    let a : Analysis := { options := oneCallSite true false }
    let p := (settingOf Lambda.capturingProgram a.options).program
    let run := Machine.solve Member.plugin (a.setting p) 10 [⟨2⟩] (.new [.newLambda])
    run.1 = .finished ∧ ⟨varPointer emptyContext ⟨2⟩, varPointer ⟨1⟩ ⟨1⟩, .localAssign, none⟩ ∈
      run.2.solver.flow.edges := by
  intro a p run
  have hfinished : run.1 = .finished := by decide +kernel
  have hsolve : Machine.solve Member.plugin (a.setting p) 10 [⟨2⟩] (.new [.newLambda]) =
      (.finished, run.2) := Prod.ext hfinished rfl
  let call : LambdaCall := { captured := [⟨2⟩], lambdaContext := emptyContext, result := none }
  have he : (⟨⟨emptyContext, ⟨1⟩⟩, ⟨⟨1⟩, ⟨1⟩⟩, .lambda call⟩ : CallEdge) ∈
      run.2.solver.calls.edges := by decide +kernel
  have hmembers : a.members p (fun _ => none) = .ok [.newLambda] := rfl
  have hrouted := (Analysis.routed_of_visits rfl Lambda.capturingProgram
    (Program.build_of_checks (by decide +kernel) (by decide +kernel)) hmembers
    (Machine.visits_of_solve hsolve).1).1 _ he call rfl
  exact ⟨hfinished, hrouted.flow _ (.receiver (by decide +kernel) (by decide +kernel)
    (by decide +kernel))⟩

end PointsTo
