import PointsTo.Proofs.Closure
import PointsTo.Proofs.Homes
import PointsTo.Proofs.PluginWarrants

/-!
# Stand-ins are determined by what they are made for

The heap tells stand-ins apart by the method that contains them as well, but plugins look for them
by what they are made for and by their type alone.  Both come to the same, since what a stand-in is
made for determines its container, as long as call statements stand where their call sites say.

Main results:

- {lit}`MockSite.container?`, and theorem {lit}`Obj.Placed.container_eq`: the container of a
  stand-in.
- {lit}`Member.tables`: the tables of the plugins.
- Theorem {lit}`Analysis.identified_of_attains`: in every state of a run stand-ins are determined by
  their kind, what they are made for and their type, and all tables hold them.
-/

namespace PointsTo

open Reflection

variable {p : Program}

/-! ## Containers -/

/-- The method that contains what is made for a call site.  What is made for a type or a method is
contained nowhere. -/
def MockSite.container? (p : Program) : MockSite → Option MethodId
  | .invoke i => some (p.invoke i).container
  | .type _ | .method _ => none

/-- What a stand-in is made for determines its container. -/
theorem Obj.Placed.container_eq
    (hplaced : ∀ m i, .invoke i ∈ (p.method m).stmts → (p.invoke i).container = m) {x : Obj}
    (h : x.Placed p) {kind : MockKind} {site : MockSite} (hkind : x.kind = .mock kind site) :
    x.container = site.container? p := by
  unfold Obj.Placed at h
  rw [hkind] at h
  cases kind with
  | lambda =>
      cases site with
      | invoke i =>
          obtain ⟨m, hcontainer, hstmt⟩ := h
          rw [hcontainer, MockSite.container?, hplaced m i hstmt]
      | type | method => exact h.elim
  | lambdaConstructed | reflective =>
      cases site with
      | invoke i => exact h
      | type | method => exact h.elim
  | classMeta =>
      cases site with
      | type t => exact h
      | invoke | method => exact h.elim
  | methodMeta | constructorMeta =>
      cases site with
      | method m => exact h
      | invoke | type => exact h.elim

/-! ## Tables -/

/-- The tables in which a member keeps stand-ins. -/
def Member.tables : Member → List MockTable
  | .lambda st => [st.constructed]
  | .reflection st => st.actions.made :: (st.log.map LogModel.made).toList
  | .script _ => []

/-- Every table of a member holds the stand-ins that it says. -/
theorem Member.Warranted.denotes {env : Setting} {k : View} {x : Member} {t : MockTable}
    (h : x.Warranted env k) (ht : t ∈ x.tables) : t.Denotes env.program k := by
  cases x with
  | lambda st =>
      obtain rfl := List.mem_singleton.1 ht
      exact h.constructed.denotes
  | reflection st =>
      rcases List.mem_cons.1 ht with rfl | ht
      · exact h.actions.made.denotes
      · obtain ⟨l, hl, rfl⟩ := Option.map_eq_some_iff.1 (Option.mem_toList.1 ht)
        exact (h.log l hl).made.denotes
  | script s => exact h.elim

/-- Stand-ins are determined by their kind, what they are made for, and their type. -/
structure Machine.Identified (p : Program) (m : Machine Member) : Prop where
  /-- No two ids are those of stand-ins that are alike. -/
  unique : ∀ {i j x y kind site}, m.solver.heap.get? i = some x → m.solver.heap.get? j = some y →
    x.kind = .mock kind site → y.kind = .mock kind site → x.type = y.type → i = j
  /-- An entry of a table is the id of the stand-in that it says. -/
  entry : ∀ {x t}, x ∈ m.plugins → t ∈ x.tables → ∀ {site type i}, ((site, type), i) ∈ t.entries →
    m.solver.heap.get? i = some (MockObj.obj ⟨t.kind, site, type, site.container? p⟩)
  /-- The model of a log and the model of actions have the same stand-ins. -/
  agree : ∀ {st l}, .reflection st ∈ m.plugins → l ∈ st.log → ∀ {site type i j},
    ((site, type), i) ∈ l.made.entries → ((site, type), j) ∈ st.actions.made.entries → i = j

/-- Where everything has an origin stand-ins are determined by what they are made for. -/
theorem Machine.Warranted.identified {env : Setting} {m : Machine Member} (h : m.Warranted env)
    (hplaced : ∀ n i, .invoke i ∈ (env.program.method n).stmts →
      (env.program.invoke i).container = n) : m.Identified env.program := by
  have hentry : ∀ {x t}, x ∈ m.plugins → t ∈ x.tables → ∀ {site type i},
      ((site, type), i) ∈ t.entries → m.solver.heap.get? i =
        some (MockObj.obj ⟨t.kind, site, type, site.container? env.program⟩) := by
    intro x t hx ht site type i hi
    obtain ⟨j, rfl, hget⟩ := (h.plugins x hx).denotes ht site type i hi
    exact hget
  refine ⟨?_, hentry, ?_⟩
  · intro i j x y kind site hi hj hx hy htype
    -- the heap compares containers too, and these follow from the sites
    have hcontainer : x.container = y.container :=
      ((h.solver.objects hi).container_eq hplaced hx).trans
        ((h.solver.objects hj).container_eq hplaced hy).symm
    have hsame : x = y := by
      obtain ⟨_, _, _⟩ := x
      obtain ⟨_, _, _⟩ := y
      simp_all
    rw [hsame] at hi
    exact Interned.get?_injective hi hj
  · intro st l hst hl site type i j hi hj
    have hmade : l.made ∈ (Member.reflection st).tables := by
      have hl' : st.log = some l := hl
      simp [Member.tables, hl']
    have hactions : st.actions.made ∈ (Member.reflection st).tables := List.mem_cons_self
    have hwarranted : Reflection.State.Warranted env.program m.solver.settled st :=
      h.plugins _ hst
    have hgi := hentry hst hmade hi
    have hgj := hentry hst hactions hj
    rw [(hwarranted.log l hl).made.kind] at hgi
    rw [hwarranted.actions.made.kind] at hgj
    exact Interned.get?_injective hgi hgj

/-! ## Analyses -/

/-- In every state of a run of a program whose call statements stand where their call sites say,
stand-ins are determined by what they are made for. -/
theorem Analysis.identified_of_attains {a : Analysis} (ds : List Declaration)
    (hbuild : (Builder.ofList ds).build = .ok p)
    (hplaced : ∀ m i, .invoke i ∈ (p.method m).stmts → (p.invoke i).container = m)
    (hextra : a.extra = []) {files : Reflection.Files} {entries : List MethodId}
    {m : Machine Member} (h : a.Attains p files entries m) : m.Identified p := by
  have hb := Program.built_of_build (Builder.numbered_ofList ds) hbuild
  exact (Analysis.warranted_of_attains hb hextra h).identified hplaced

/-- A method that makes a lambda of a constructor, and calls it. -/
def constructorProgram : List Declaration :=
  [.cls (.plain "A"), .method ⟨"A", constructorName, [], .void, false, false, true⟩,
    .method ⟨"A", "main", [], .void, true, false, true⟩, .var ⟨1⟩ "f" (.cls "F"),
    .var ⟨1⟩ "a" (.cls "A"),
    .dynamicCall ⟨1⟩
      { dynamic :=
          { bootstrap := Lambda.metafactory, methodName := "make", methodType := ⟨[], .cls "F"⟩
            bootstrapArgs :=
              [.methodType ⟨[], .cls "A"⟩,
                .handle ⟨.newInvokeSpecial, ⟨"A", constructorName, [], .void⟩⟩] }
        captured := [], result := some ⟨1⟩ },
    .call ⟨1⟩ ⟨.interface, ⟨"F", "make", [], .cls "A"⟩, some ⟨1⟩, [], some ⟨2⟩⟩]

/-- The object that the call of the lambda makes is the one that the plugin keeps. -/
theorem Analysis.identified_of_attains_constructor :
    let a : Analysis := { options := oneCallSite true true }
    let p := (settingOf constructorProgram a.options).program
    ∃ m x t, a.Attains p (fun _ => none) [⟨1⟩] m ∧ x ∈ m.plugins ∧ t ∈ x.tables ∧
      t.entries = [((.invoke ⟨0⟩, .cls "A"), ⟨1⟩)] ∧
      m.solver.heap.get? ⟨1⟩ =
        some (MockObj.obj ⟨.lambdaConstructed, .invoke ⟨0⟩, .cls "A", some ⟨1⟩⟩) ∧
      m.Identified p := by
  intro a p
  have hbuild : (Builder.ofList constructorProgram).build = .ok p :=
    Program.build_of_checks (by decide +kernel) (by decide +kernel)
  have hplaced := p.placed_of_checks (by decide +kernel)
  let run := Machine.solve Member.plugin (a.setting p) 20 [⟨1⟩] (.new [.newLambda, .reflection {}])
  have hattains : a.Attains p (fun _ => none) [⟨1⟩] run.2 :=
    Analysis.attains_of_members constructorProgram hbuild rfl rfl 20 [⟨1⟩]
  have hentries : ((run.2.plugins.flatMap Member.tables).any fun t =>
      decide (t.entries = [((.invoke ⟨0⟩, .cls "A"), ⟨1⟩)])) = true := by decide +kernel
  have hobject : run.2.solver.heap.get? ⟨1⟩ =
      some (MockObj.obj ⟨.lambdaConstructed, .invoke ⟨0⟩, .cls "A", some ⟨1⟩⟩) := by
    decide +kernel
  obtain ⟨t, ht, hentries⟩ := List.any_eq_true.1 hentries
  obtain ⟨x, hx, ht⟩ := List.mem_flatMap.1 ht
  exact ⟨run.2, x, t, hattains, hx, ht, of_decide_eq_true hentries, hobject,
    Analysis.identified_of_attains constructorProgram hbuild hplaced rfl hattains⟩

end PointsTo
