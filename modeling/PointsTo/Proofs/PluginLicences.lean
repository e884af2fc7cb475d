import PointsTo.Proofs.Interruptions
import PointsTo.Proofs.Licences
import PointsTo.Proofs.LogClosure

/-!
# The provided plugins ask for what is licensed

The plugin for lambdas finds methods by dispatch, and by the handles that lambdas are made of; the
plugin for reflection finds them by meta objects and in the log.  What they ask for is licensed as
long as they remember only calls that were offered to them, and only objects that they have made.

Main results:

- {lit}`Reflection.State.Licensed`: what the plugin for reflection remembers has a reason; theorem
  {lit}`Reflection.State.Licensed.offer`: offered calls do not change that.
- Theorem {lit}`Member.licensed_react`: a reaction asks only for what is licensed.
- Theorem {lit}`Analysis.licensed_of_arises`: in every state of a run all edges are licensed.
-/

namespace PointsTo

open Service Reflection

variable {env : Setting} {p : Program} {log : Option LogModel} {T s : Solver}

/-! ## Lambdas -/

namespace Lambda

variable {A : (r : Request) → r.Answer → Prop} {r : Request} {st : Lambda.State}

/-- A call that waits on its receiver runs a method with a body. -/
theorem Resolving.licensed {v : QVar} {waiting : PendingCall} (hr : Resolving p A v waiting r) :
    r.Licensed p log T := by
  cases hr with
  | receivers | look => trivial
  | run _ _ _ hm hr =>
      exact hr.licensed fun c => .pending rfl (Program.concrete?_eq_some hm).2

/-- The handle of a lambda runs methods with a body, or the method that it names. -/
theorem Handling.licensed {maker : InvokeId} {site : QSite} {handle : MethodHandle}
    {call : LambdaCall} {d : DynamicCall} (hr : Handling env A st maker site handle call r)
    (hst : st.Heeds) (hmaker : (env.program.invoke maker).dynamic = some d)
    (hhandle : d.handle? implIndex = some handle) : r.Licensed env.program log T := by
  cases hr with
  | construct hkind hr =>
      cases hr with
      | make =>
          refine proper_of_kind ?_
          rw [MockTable.wanted, show st.constructed.kind = _ from hst]
          simp
      | result => trivial
      | run _ hm hr =>
          exact hr.licensed fun c =>
            .handle rfl ⟨maker, d, handle, hmaker, hhandle, .inr hkind, hm⟩
  | static hkind hm hr =>
      exact hr.licensed fun c => .handle rfl ⟨maker, d, handle, hmaker, hhandle, .inl hkind, hm⟩
  | resolve _ _ hr => exact hr.licensed

/-- A reaction asks only for what is licensed, and keeps the handles right. -/
theorem licensed_react (hst : st.Heeds) (e : Event) :
    (react env e st).Licensed env.program log T State.Heeds := by
  refine (asks_react e).imp (fun r hr => ?_) fun st' hst' => hst.of_became hst'
  cases hr with
  | create => exact proper_of_kind (by simp [made])
  | assign | look | wire => trivial
  | handle hcalls hr =>
      obtain ⟨_, _, _, d, hmaker, _, hhandle⟩ := hcalls.fits
      exact hr.licensed hst hmaker hhandle
  | wake _ hr => exact hr.licensed

end Lambda

/-! ## Reflection -/

namespace Reflection

variable {st : State} {call : Invoke} {site : QSite} {v : QVar} {delta : ObjSet}

/-! ### What is remembered -/

/-- The calls that the model of actions looks at are calls for actions, and what it has made are
reflective objects. -/
structure ActionModel.Licensed (p : Program) (T : Solver) (m : ActionModel) : Prop where
  relevant : ∀ {v site api}, (v, (site, api)) ∈ m.relevant.pairs →
    Api.classify (p.invoke site).target = some api ∧
      (api = .classNewInstance ∨ api = .constructorNewInstance ∨ api = .methodInvoke)
  made : m.made.Reflects T

/-- What the plugin remembers has a reason: the log, or the calls that were offered. -/
structure State.Licensed (p : Program) (log : Option LogModel) (T : Solver) (st : State) :
    Prop where
  log : ∀ m ∈ st.log, (∃ l ∈ log, l.Heeds p m) ∧ m.made.Reflects T
  actions : st.actions.Licensed p T

/-- Offering a call leaves all that is remembered licensed. -/
theorem State.Licensed.offer (h : st.Licensed p log T) (hcall : p.invoke call.id = call) :
    (st.offer call).Licensed p log T where
  log := by
    intro m' hm'
    obtain ⟨m, hm, rfl⟩ := (st.offered call).of_log hm'
    obtain ⟨⟨l, hl, hheeds⟩, hmade⟩ := h.log m hm
    exact ⟨⟨l, hl, hheeds.offer hcall⟩, hmade⟩
  actions := by
    refine ⟨fun {v site api} hmem => ?_, ?_⟩
    · rcases (st.offered call).actions _ hmem with hmem | ⟨_, hwatch, hacts⟩
      · exact h.actions.relevant hmem
      · obtain rfl : site = call.id := hwatch.site
        rw [hcall]
        exact ⟨hwatch.classified, hacts⟩
    · rw [(st.offered call).made]
      exact h.actions.made

/-! ### What is asked for -/

section Requests

variable {A : (r : Request) → r.Answer → Prop} {r : Request} {l m : LogModel} {claim : Claim}

/-- A meta object that is no constructor's may be a result. -/
theorem Presenting.licensed {x : MockObj} {c : ContextId} {result : VarId}
    (hr : Presenting A c result x r) (hx : Proper p x.obj) : r.Licensed p log T := by
  cases hr with
  | make => exact hx
  | result => trivial

/-- The constructors of a class are made meta objects of. -/
theorem ClassModel.proper_of_yields {api : Api} {receiver : Obj} {x : MockObj}
    (hx : x ∈ yields p api receiver) : Proper p x.obj := by
  rcases of_mem_yields hx with rfl | ⟨_, _, hm, rfl⟩
  · exact proper_of_kind (by simp [classMeta])
  · rintro _ ⟨⟩
    obtain ⟨_, _, _, hconstructor⟩ := Program.mem_constructors.1 hm
    exact hconstructor

/-- The objects that a call makes are of the class of the constructor that is run. -/
theorem ActionModel.licence_of_product? {i : InvokeId} {api : Api} {x : Obj} {type : JavaType}
    {constructor? : Option MethodId} {call : ReflectiveCall}
    (hproduct : product? p i api x = some (type, constructor?, call)) (hx : Proper p x)
    (hsite : Api.classify (p.invoke site.item).target = some api) :
    ∀ m ∈ constructor?, T.MadeAt p site type → Licence p log T site m call.api := by
  cases produces_of_product? hproduct with
  | ofClass => exact fun m hm hmade => .ofClass hsite hm hmade
  | byConstructor hm =>
      rintro _ ⟨⟩ hmade
      exact .byConstructor hsite (.inl (hx _ hm)) hmade

/-- The model of actions asks for what the classified call may do. -/
theorem ActionModel.Asked.licensed {m : ActionModel}
    (hr : m.Asked p (Request.Lasts p T) v delta r) (hp : p.Numbered) (hm : m.Licensed p T) :
    r.Licensed p log T := by
  cases hr with
  | lookNew | readAll | read | look => trivial
  | make hmem _ hx hproduct hr =>
      exact hr.licensed hm.made (licence_of_product? hproduct hx (hm.relevant hmem).1)
  | @invoke i api base _ _ _ _ hmem hapi hbase _ _ _ hr =>
      have hid : (p.invoke i).id = i :=
        hp.invoke_id (v := base) (by simp [Program.mentioned, hbase])
      rw [hid] at hr
      obtain ⟨hsite, rfl | rfl | rfl⟩ := hm.relevant hmem
      · exact absurd rfl hapi.1
      · exact absurd rfl hapi.2
      · exact hr.licensed hsite

/-- What is asked of a call is what the call is for. -/
theorem LogModel.classified_of_asked {i : InvokeId} (h : claim ∈ l.asked (p.invoke i)) :
    Api.classify (p.invoke i).target = some claim.api := by
  obtain ⟨e, _, hspeaks, rfl⟩ := mem_asked.1 h
  exact hspeaks.classified

/-- A call that the log speaks of does what it is for. -/
theorem LogModel.Acting.licensed {table : MockTable} {c : ContextId}
    (hr : LogModel.Acting p (Request.Lasts p T) table c claim r) (hl : l ∈ log)
    (htable : table.Reflects T) (hclaim : claim ∈ l.asked (p.invoke claim.site)) :
    r.Licensed p log T := by
  have hsite := classified_of_asked hclaim
  cases hr with
  | present _ _ _ hr => exact hr.licensed (proper_of_kind (by simp [classMeta]))
  | ofClass hapi _ hr =>
      exact hr.licensed htable fun m hm hmade => .ofClass (hapi ▸ hsite) hm hmade
  | byConstructor hapi htarget hr =>
      refine hr.licensed htable ?_
      rintro _ ⟨⟩ hmade
      exact .byConstructor (hapi ▸ hsite) (.inr ⟨l, hl, claim, hclaim, hapi, htarget⟩) hmade
  | receivers => trivial
  | invoke hapi _ hr => exact hr.licensed (hapi ▸ hsite)

/-- The log asks for what it says of a call. -/
theorem LogModel.Asked.licensed (hr : m.Asked p A v delta r) (hm : l.Heeds p m) :
    r.Licensed p log T := by
  obtain ⟨i, target, hmem, hr⟩ := hr
  obtain ⟨_, claim, hclaim, hapi, _⟩ := hm.receivers hmem
  exact hr.licensed (hapi ▸ classified_of_asked hclaim)

/-- Forwarding asks for no objects and no edges. -/
theorem Forwarding.licensed {callee : QMethod} (hr : Forwarding p A v callee r) :
    r.Licensed p log T := by
  cases hr <;> trivial

/-- A request of a reaction is licensed. -/
theorem Asked.licensed {e : Event} (hr : Asked p (Request.Lasts p T) st e r) (hp : p.Numbered)
    (hst : st.Licensed p log T) : r.Licensed p log T := by
  cases hr with
  | act hm hclaim hr =>
      obtain ⟨⟨l, hl, hheeds⟩, hmade⟩ := hst.log _ hm
      exact hr.licensed hl hmade (hheeds.claims _ hclaim.1)
  | pass _ _ hr => exact hr.licensed
  | result => trivial
  | wake _ hr => exact hr.licensed
  | grown hr =>
      cases hr with
      | log hm hr =>
          obtain ⟨⟨l, _, hheeds⟩, _⟩ := hst.log _ hm
          exact hr.licensed hheeds
      | classes hr =>
          cases hr with
          | look => trivial
          | yield _ _ _ _ hmade hr => exact hr.licensed (ClassModel.proper_of_yields hmade)
      | strings _ hr =>
          cases hr with
          | lookNew | read | look => trivial
          | cls _ _ _ _ _ hr => exact hr.licensed (proper_of_kind (by simp [classMeta]))
          | method _ _ _ hr => exact hr.licensed (proper_of_kind (by simp [methodMeta]))
      | actions hr => exact hr.licensed hp hst.actions

/-- What is remembered after a reaction has a reason, too. -/
theorem State.Licensed.of_became {e : Event} {st' : State} (hst : st.Licensed p log T)
    (hp : p.Numbered) (hst' : Became p (Request.Lasts p T) st e st') : st'.Licensed p log T := by
  cases hst' with
  | same => exact hst
  | offered => exact State.offerAll_rec hp hst (fun _ _ hcall hst => hst.offer hcall) _
  | acted hm hbecomes =>
      obtain ⟨⟨l, hl, hheeds⟩, hmade⟩ := hst.log _ hm
      refine ⟨?_, hst.actions⟩
      rintro _ ⟨⟩
      exact ⟨⟨l, hl, hheeds.of_becomes hbecomes⟩, hmade.of_fills hbecomes.made⟩
  | passed => exact ⟨hst.log, hst.actions⟩
  | grown _ htable =>
      exact ⟨hst.log, hst.actions.relevant, hst.actions.made.of_fills htable⟩

/-- A reaction asks only for what is licensed, and remembers only that. -/
theorem licensed_react (hp : env.program.Numbered) (hst : st.Licensed env.program log T)
    (e : Event) :
    (react env e st).Licensed env.program log T (State.Licensed env.program log T) :=
  (asks_react e).imp (fun _ hr => hr.licensed hp hst) fun _ hst' => hst.of_became hp hst'

end Requests

end Reflection

/-! ## Members -/

namespace Member

/-- A member that comes with the library, and remembers only what it has a reason for. -/
def Licensed (p : Program) (log : Option LogModel) (T : Solver) : Member → Prop
  | lambda st => st.Heeds
  | reflection st => st.Licensed p log T
  | script _ => False

/-- A reaction asks only for what is licensed. -/
theorem licensed_react {m : Member} (hp : env.program.Numbered)
    (hm : m.Licensed env.program log T) (e : Event) :
    (plugin.react env e m).Licensed env.program log T (Licensed env.program log T) := by
  cases m with
  | lambda st => exact Asks.bind (Lambda.licensed_react hm e) fun _ h => h
  | reflection st => exact Asks.bind (Reflection.licensed_react hp hm e) fun _ h => h
  | script s => exact hm.elim

end Member

/-! ## Analyses -/

/-- The plugin for reflection begins with nothing but the log. -/
theorem Reflection.State.licensed_of_new {o : Options} {files : Files} {st : State}
    (h : State.new o p files = .ok st) : st.Licensed p st.log T := by
  obtain ⟨hread, hst⟩ := State.eq_of_new h
  have hlog : ∀ l ∈ st.log, (∃ l' ∈ st.log, l'.Heeds p l) ∧ l.made.Reflects T := by
    intro l hl
    obtain ⟨_, hofLog⟩ := ofLog_of_readLog hread l hl
    refine ⟨⟨l, hl, LogModel.heeds_of_ofLog hofLog⟩, ?_⟩
    obtain ⟨_, _, rfl⟩ := LogModel.eq_of_ofLog hofLog
    exact MockTable.reflects_new
  have hactions : ActionModel.Licensed p T {} :=
    ⟨fun hmem => absurd hmem (OrderedSet.not_mem_empty _), MockTable.reflects_new⟩
  rcases hst with hst | hst <;> rw [hst] <;> exact ⟨hlog, hactions⟩

/-- In every state of a run all edges are licensed, by the log that was read. -/
theorem Analysis.licensed_of_arises {a : Analysis} (hp : p.Numbered) (hextra : a.extra = [])
    {files : Files} {entries : List MethodId} {m : Machine Member}
    (h : a.Arises p files entries m) :
    ∃ log, (∀ l ∈ log, readLog a.options p files = .ok (some l)) ∧
      m.solver.Licensed p log m.solver := by
  obtain ⟨members, hmembers, talk, hoccurs⟩ := h
  obtain ⟨log, hread, hall⟩ : ∃ log : Option LogModel,
      (∀ l ∈ log, readLog a.options p files = .ok (some l)) ∧
        ∀ x ∈ members, x.Licensed p log m.solver := by
    cases hnew : State.new a.options p files with
    | error e =>
        refine ⟨none, by simp, fun x hx => ?_⟩
        rcases Analysis.members_cases hmembers hx with rfl | ⟨st, hst, rfl⟩ | hx
        · exact rfl
        · exact absurd (hnew.symm.trans hst) (by simp)
        · rw [hextra] at hx
          exact absurd hx List.not_mem_nil
    | ok st =>
        refine ⟨st.log, fun l hl => ?_, fun x hx => ?_⟩
        · rw [(State.eq_of_new hnew).1, show st.log = some l from hl]
        rcases Analysis.members_cases hmembers hx with rfl | ⟨st', hst, rfl⟩ | hx
        · exact rfl
        · obtain rfl := Except.ok.inj (hnew.symm.trans hst)
          exact State.licensed_of_new hnew
        · rw [hextra] at hx
          exact absurd hx List.not_mem_nil
  have hnumbered : (a.setting p).program.Numbered := hp
  have hupholds : Member.plugin.Upholds (a.setting p) entries m.solver
      (fun s => s.Licensed p log m.solver) (Member.Licensed p log m.solver)
      (Request.Licensed p log m.solver) (Request.Lasts p m.solver) :=
    upholds_of_licensed fun _ hm => Member.licensed_react hnumbered hm _
  exact ⟨log, hread, (hoccurs.upholds hupholds .new hall (.refl _)).solver⟩

end PointsTo
