import PointsTo.Analysis
import PointsTo.Proofs.LambdaCalls
import PointsTo.Proofs.ReflectionReactions

/-!
# Runs with the provided plugins

The plugins that the library provides keep to their rules, and so do scripts that only ask
and report.  Runs with such plugins are therefore grounded.

Main results:

- {lit}`Script.Quiet`: the script adds no facts of its own.
- {lit}`Member.Sound`, and theorem {lit}`Member.honest`: members that keep to the rules.
- Theorems {lit}`Member.grounded`, {lit}`Analysis.grounded`: runs with such members are
  grounded.
-/

namespace PointsTo

/-! ## Scripts that only ask -/

namespace Script

/-- The action adds no fact about pointers, flow or calls. -/
def Action.Quiet : Action → Prop
  | .addPointsTo .. | .addVarObj .. | .addFlow _ | .addCall _ => False
  | .mock _ | .callContext .. | .heapContext _ | .read _ | .obj _ | .options | .fail _ => True

/-- The script adds no fact about pointers, flow or calls. -/
def Quiet (s : Script) : Prop := ∀ r ∈ s.rules, ∀ a ∈ r.actions, a.Quiet

variable {env : Setting} {s t : Solver} {script q : Script}

/-- A report adds no facts. -/
theorem neutral_report (script : Script) (line : String) : (script.report line).Neutral :=
  ⟨rfl, fun _ _ => trivial⟩

/-- A quiet action asserts nothing. -/
theorem neutral_act {a : Action} (ha : a.Quiet) : (act env script a).Neutral := by
  cases a with
  | addPointsTo | addVarObj | addFlow | addCall => exact ha.elim
  | mock | callContext | heapContext | read | obj =>
      exact ⟨rfl, fun _ _ => neutral_report script _⟩
  | options => exact neutral_report script _
  | fail reason => trivial

/-- A quiet script asserts nothing. -/
theorem neutral_react {e : Event} (hquiet : script.Quiet) : (react env e script).Neutral := by
  refine Service.Asks.bind (neutral_report script _) fun _ _ => ?_
  refine Service.Asks.bind (Service.asks_forM fun r hr => ?_) fun _ _ => trivial
  exact Service.asks_forM fun a ha => neutral_act (hquiet r (List.mem_filter.1 hr).1 a ha)

/-- A quiet script keeps to the rules, and stays the script that it is. -/
theorem react_ok {e : Event} (h : (react env e script).run env s = .ok q t)
    (hquiet : script.Quiet) : s.Evolves env.program (PluginRule env) t ∧ q = script := by
  refine ⟨((neutral_react hquiet).evolves h).mono fun _ _ => .of_neutral, ?_⟩
  simp only [react, Service.bind_eq, Service.run_bind, bind_eq_ok] at h
  obtain ⟨_, u, _, _, v, _, h⟩ := h
  exact (pure_eq_ok.1 h).1.symm

end Script

/-! ## Members -/

namespace Member

/-- The ids in the memory of a plugin exist, and denote what they are kept for; a script
is quiet. -/
def Sound (p : Program) (k : View) : Member → Prop
  | lambda st => st.Sound p k
  | reflection st => st.Sound p k
  | script s => s.Quiet

/-- A member stays sound while a view grows. -/
theorem Sound.mono {p : Program} {k l : View} {m : Member} (h : m.Sound p k) (hle : k.Le l) :
    m.Sound p l := by
  cases m with
  | lambda st => exact Lambda.State.Sound.mono h hle
  | reflection st => exact Reflection.State.Sound.mono h hle
  | script s => exact h

section React

variable {env : Setting} {e : Event} {s t : Solver} {m : Member}

/-- A lambda plugin reacts as it does on its own. -/
theorem react_lambda {st : Lambda.State} :
    (Member.plugin.react env e (.lambda st)).run env s = .ok m t ↔
      ∃ q, m = .lambda q ∧ (Lambda.react env e st).run env s = .ok q t :=
  Service.run_map (x := Lambda.react env e st)

/-- So does a plugin for reflection. -/
theorem react_reflection {st : Reflection.State} :
    (Member.plugin.react env e (.reflection st)).run env s = .ok m t ↔
      ∃ q, m = .reflection q ∧ (Reflection.react env e st).run env s = .ok q t :=
  Service.run_map (x := Reflection.react env e st)

/-- So does a script. -/
theorem react_script {script : Script} :
    (Member.plugin.react env e (.script script)).run env s = .ok m t ↔
      ∃ q, m = .script q ∧ (Script.react env e script).run env s = .ok q t :=
  Service.run_map (x := Script.react env e script)

end React

/-- Members that begin with sound memories keep to the rules. -/
theorem honest {env : Setting} (hb : env.program.Built) :
    Member.plugin.Honest env (PluginRule env) fun k m => m.Sound env.program k where
  rule_exists := fun _ h => h.exists
  mono := fun h hle => h.mono hle
  react := by
    intro s t e m m' hs hm he h
    cases m with
    | lambda st =>
        obtain ⟨q, rfl, hr⟩ := react_lambda.1 h
        exact (Lambda.honest hb).react hs hm he hr
    | reflection st =>
        obtain ⟨q, rfl, hr⟩ := react_reflection.1 h
        exact (Reflection.honest hb.numbered).react hs hm he hr
    | script script =>
        obtain ⟨q, rfl, hr⟩ := react_script.1 h
        obtain ⟨hevolves, rfl⟩ := Script.react_ok hr hm
        exact ⟨hevolves, hm⟩

/-- A run whose members begin with sound memories is grounded. -/
theorem grounded {env : Setting} (hb : env.program.Built) {entries : List MethodId}
    {members : List Member} (h : ∀ m ∈ members, m.Sound env.program ({} : Solver).settled) :
    Machine.Grounded Member.plugin env entries (.new members) :=
  Machine.grounded_of_honest (honest hb) h

/-- A new plugin for lambdas is sound. -/
theorem sound_newLambda {p : Program} {k : View} : newLambda.Sound p k := Lambda.State.sound_new

end Member

/-! ## Analyses -/

namespace Reflection

variable {o : Options} {p : Program} {files : Files}

/-- A log that was read has covered and made nothing yet. -/
theorem LogModel.eq_of_ofLog {content : String} {m : LogModel} (h : ofLog p content = .ok m) :
    ∃ entries, Log.parse content = .ok entries ∧
      m = { entries := entries.filterMap (resolved? p) } := by
  obtain ⟨entries, hparse, h⟩ := except_bind_eq_ok.1 h
  exact ⟨entries, hparse, (Except.ok.inj h).symm⟩

/-- The program has what an entry speaks of. -/
theorem LogModel.resolved?_eq_some {e : LogEntry} {r : ResolvedEntry}
    (h : resolved? p e = some r) :
    p.methodBySignature? e.caller = some r.caller ∧ target? p e = some r.target ∧
      r.api = e.api := by
  unfold resolved? at h
  obtain ⟨caller, hcaller, h⟩ := Option.bind_eq_some_iff.1 h
  obtain ⟨target, htarget, h⟩ := Option.bind_eq_some_iff.1 h
  cases h
  exact ⟨hcaller, htarget, rfl⟩

/-- The log that was read comes from the content of a file. -/
theorem ofLog_of_readLog {log : Option LogModel} (h : readLog o p files = .ok log) :
    ∀ m ∈ log, ∃ content, LogModel.ofLog p content = .ok m := by
  rintro m ⟨⟩
  unfold readLog at h
  split at h
  · cases h
  · split at h
    · cases h
    · rename_i content _
      cases hlog : LogModel.ofLog p content with
      | error e =>
          rw [hlog] at h
          cases h
      | ok m' =>
          rw [hlog] at h
          cases h
          exact ⟨content, hlog⟩

/-- The plugin begins with nothing but a log, and a model of names if one is asked for. -/
theorem State.eq_of_new {st : State} (h : State.new o p files = .ok st) :
    readLog o p files = .ok st.log ∧
      (st = { log := st.log } ∨ st = { log := st.log, strings := some {} }) := by
  obtain ⟨_, _, h⟩ := except_bind_eq_ok.1 h
  obtain ⟨log, hread, h⟩ := except_bind_eq_ok.1 h
  obtain ⟨mode, _, h⟩ := except_bind_eq_ok.1 h
  cases mode with
  | disabled =>
      cases h
      exact ⟨hread, .inl rfl⟩
  | stringConstant =>
      cases h
      exact ⟨hread, .inr rfl⟩

variable {k : View}

/-- A log that was read is sound. -/
theorem LogModel.sound_of_ofLog {content : String} {m : LogModel} (h : ofLog p content = .ok m) :
    m.Sound p k := by
  obtain ⟨_, _, rfl⟩ := eq_of_ofLog h
  exact ⟨fun _ hc => absurd hc List.not_mem_nil, mentioned_empty, MockTable.denotes_new _⟩

/-- The plugin for reflection begins with a sound memory. -/
theorem State.sound_of_new {st : State} (h : State.new o p files = .ok st) : st.Sound p k := by
  obtain ⟨hread, hst⟩ := State.eq_of_new h
  have hlog : ∀ m ∈ st.log, m.Sound p k := by
    intro m hm
    obtain ⟨_, hm⟩ := ofLog_of_readLog hread m hm
    exact LogModel.sound_of_ofLog hm
  have hsound : ∀ {strings : Option StringModel}, (∀ m ∈ strings, Mentioned p m.relevant) →
      State.Sound p k { log := st.log, strings } := fun hstrings =>
    ⟨hlog, mentioned_empty, hstrings, ⟨MockTable.denotes_new _, mentioned_empty⟩,
      fun _ _ h => absurd h (OrderedSet.not_mem_empty _)⟩
  rcases hst with hst | hst
  · rw [hst]
    exact hsound (by simp)
  · rw [hst]
    refine hsound ?_
    rintro _ ⟨⟩
    exact mentioned_empty

end Reflection

/-- The members of an analysis are the plugins that its options ask for, and those that were
added. -/
theorem Analysis.mem_members {a : Analysis} {p : Program} {files : Reflection.Files}
    {members : List Member} {m : Member} (h : a.members p files = .ok members) :
    m ∈ members ↔ a.options.lambda = true ∧ m = .newLambda ∨
      (a.options.reflection = true ∧
        ∃ st, Reflection.State.new a.options p files = .ok st ∧ m = .reflection st) ∨
      m ∈ a.extra := by
  have hlambda : m ∈ (if a.options.lambda then [Member.newLambda] else []) ↔
      a.options.lambda = true ∧ m = .newLambda := by
    split <;> simp [*]
  unfold Analysis.members at h
  dsimp only at h
  split at h
  · rename_i hon
    cases hst : Reflection.State.new a.options p files with
    | error e =>
        rw [hst] at h
        cases h
    | ok st =>
        rw [hst] at h
        cases h
        simp [hlambda, hon]
  · rename_i hoff
    cases h
    simp [hlambda, hoff]

/-- A member is one of the provided plugins, or an added one. -/
theorem Analysis.members_cases {a : Analysis} {p : Program} {files : Reflection.Files}
    {members : List Member} {m : Member} (h : a.members p files = .ok members)
    (hm : m ∈ members) : m = .newLambda ∨
      (∃ st, Reflection.State.new a.options p files = .ok st ∧ m = .reflection st) ∨
        m ∈ a.extra :=
  ((mem_members h).1 hm).imp And.right (Or.imp_left And.right)

/-- The members of an analysis begin with sound memories if the added ones do. -/
theorem Analysis.sound_members {a : Analysis} {p : Program} {files : Reflection.Files}
    {members : List Member} {k : View} (h : a.members p files = .ok members)
    (hextra : ∀ m ∈ a.extra, m.Sound p k) : ∀ m ∈ members, m.Sound p k := by
  intro m hm
  rcases Analysis.members_cases h hm with rfl | ⟨st, hst, rfl⟩ | hm
  · exact Member.sound_newLambda
  · exact Reflection.State.sound_of_new hst
  · exact hextra m hm

/-- The runs of an analysis are grounded if all added plugins begin with sound memories. -/
theorem Analysis.grounded {a : Analysis} {p : Program} (hb : p.Built) {files : Reflection.Files}
    {members : List Member} {entries : List MethodId} (h : a.members p files = .ok members)
    (hextra : ∀ m ∈ a.extra, m.Sound p ({} : Solver).settled) :
    Machine.Grounded Member.plugin (a.setting p) entries (.new members) := by
  have hbuilt : (a.setting p).program.Built := hb
  exact Member.grounded hbuilt (Analysis.sound_members h hextra)

/-- An analysis that finishes has carried a run of its members to the end. -/
theorem Analysis.solve_of_runFrom {a : Analysis} {steps : Nat} {p : Program}
    {files : Reflection.Files} {entries : List MethodId} {result : Result}
    (h : a.runFrom steps p files entries = .finished result) :
    ∃ members m, a.members p files = .ok members ∧
      Machine.solve Member.plugin (a.setting p) steps entries (.new members) = (.finished, m) ∧
      result = { solver := m.solver, strategy := a.options.context } := by
  unfold Analysis.runFrom at h
  split at h
  · cases h
  · rename_i members hmembers
    split at h
    · rename_i m hsolve
      cases h
      exact ⟨members, m, hmembers, hsolve, rfl⟩
    · cases h
    · cases h

end PointsTo
