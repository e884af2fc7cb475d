import PointsTo.Proofs.Assignments
import PointsTo.Proofs.Closure
import PointsTo.Proofs.PluginWarrants

/-!
# Arrays and casts respect types

A flow edge into the elements of an array lets only objects of the element type through, and an edge
of a cast only objects of its type.  The filter is applied when an edge is added, to what its source
refers to by then, and again whenever more comes to the source.  Since elements of an array come
along such edges only, they have the element type in every state of a run; and so does the result of
a cast have its type, if nothing else writes the variable.

Main results:

- Theorem {lit}`FlowEdge.Origin.filter_of_array`: all edges to the elements of an array have the
  same filter.
- {lit}`Program.WrittenBy`: a statement is the only one that writes its variable.
- Theorem {lit}`Analysis.filtered_of_attains`: arrays and casts respect types in every state of a
  run.
-/

namespace PointsTo

variable {p : Program} {env : Setting} {k : View} {s : Solver}

/-! ## Arrays -/

/-- Whatever an edge to the elements of an array comes from, it has the filter of the array. -/
theorem FlowEdge.Origin.filter_of_array {e : FlowEdge} {a : QObj} (h : e.Origin env k)
    (htarget : e.target = .array a) :
    e.filter = (k.heap.typeOf a.item).element?.bind JavaType.reference? := by
  cases h with
  | @stmt _ stmt _ he =>
      cases stmt with
      | copy | cast | loadStatic | storeStatic =>
          cases he
          cases htarget
      | new | literal | loadField | storeField | loadArray | storeArray | invoke | ret => cases he
  | access _ he =>
      cases mem_accessEdges.1 he with
      | load | store | loadArray => cases htarget
      | storeArray =>
          cases htarget
          rfl
  | param _ he | result _ he | receiver _ _ _ _ he => cases he.symm.trans htarget

/-- Everything among the elements of an array, or on its way there, has passed the filter of the
array. -/
theorem Solver.Warranted.passes_array (h : s.Warranted env) {a o : QObj}
    (ho : s.Owes (.array a) o) :
    Passes env.program s.heap ((s.heap.typeOf a.item).element?.bind JavaType.reference?) o := by
  have horigin := h.points ho
  generalize hptr : Pointer.array a = ptr at horigin
  cases horigin with
  | assigned | result | receiver => cases hptr
  | flow he hp =>
      have hfilter := (h.flow he).filter_of_array hptr.symm
      rwa [hfilter] at hp

/-! ## Casts -/

/-- The statement assigns the variable, and nothing else writes it: no other statement, no call that
returns to it, and it is no parameter and no receiver. -/
structure Program.WrittenBy (p : Program) (v : VarId) (stmt : Stmt) : Prop where
  present : p.HasStmt stmt
  only : ∀ {other}, p.HasStmt other → other.lhs? = some v → other = stmt
  result : ∀ {i}, v ∉ (p.invoke i).result
  param : ∀ {m}, v ∉ (p.method m).params
  receiver : ∀ {m}, v ∉ (p.method m).receiver

/-- What a variable refers to that only a cast writes has passed the filter of the cast. -/
theorem Solver.Warranted.passes_cast (h : s.Warranted env) (hb : env.program.Built)
    {lhs rhs : VarId} {type : JavaType} (hwritten : env.program.WrittenBy lhs (.cast lhs rhs type))
    {c : ContextId} {o : QObj} (ho : s.Owes (varPointer c lhs) o) :
    Passes env.program s.heap type.reference? o := by
  cases h.supplies hb ho with
  | stmt hstmt hlhs hcast => exact hcast rhs type (hwritten.only hstmt hlhs)
  | result hv => exact absurd hv hwritten.result
  | param hv => exact absurd hv hwritten.param
  | receiver hthis => exact absurd hthis hwritten.receiver
  | reference _ _ _ hthis => exact absurd hthis hwritten.receiver

/-! ## Analyses -/

/-- Arrays and casts respect types: what has been worked in as well as what waits in the queue. -/
structure Solver.Filtered (p : Program) (s : Solver) : Prop where
  /-- The elements of an array have its element type, if that is a type of references. -/
  array : ∀ {a o t}, s.heap.typeOf a.item = .array t → t.isReference = true →
    s.Owes (.array a) o → p.isSubtype (s.heap.typeOf o.item) t = true
  /-- The result of a cast has its type, if that is a type of references. -/
  cast : ∀ {lhs rhs t c o}, p.WrittenBy lhs (.cast lhs rhs t) → t.isReference = true →
    s.Owes (varPointer c lhs) o → p.isSubtype (s.heap.typeOf o.item) t = true

/-- In every state of a run arrays and casts respect types. -/
theorem Analysis.filtered_of_attains {a : Analysis} (ds : List Declaration)
    (hbuild : (Builder.ofList ds).build = .ok p) (hextra : a.extra = []) {files : Reflection.Files}
    {entries : List MethodId} {m : Machine Member} (h : a.Attains p files entries m) :
    m.solver.Filtered p := by
  have hb := Program.built_of_build (Builder.numbered_ofList ds) hbuild
  have hwarranted := (Analysis.warranted_of_attains hb hextra h).solver
  refine ⟨fun ha ht ho => hwarranted.passes_array ho _ ?_,
    fun hwritten ht ho => hwarranted.passes_cast hb hwritten ho _ ?_⟩
  · rw [ha]
    exact JavaType.reference?_eq_some_iff.2 ⟨ht, rfl⟩
  · exact JavaType.reference?_eq_some_iff.2 ⟨ht, rfl⟩

/-- A method that makes objects of two classes, stores both in an array of one of them, and casts
both to that class. -/
def mixingProgram : List Declaration :=
  [.cls (.plain "A"), .cls (.plain "B"), .method ⟨"A", "main", [], .void, true, false, true⟩,
    .var ⟨0⟩ "x" (.cls JavaType.objectName), .var ⟨0⟩ "as" (.array (.cls "A")),
    .var ⟨0⟩ "a" (.cls "A"), .stmt ⟨0⟩ (.new ⟨0⟩ (.cls "A")), .stmt ⟨0⟩ (.new ⟨0⟩ (.cls "B")),
    .stmt ⟨0⟩ (.new ⟨1⟩ (.array (.cls "A"))), .stmt ⟨0⟩ (.storeArray ⟨1⟩ ⟨0⟩),
    .stmt ⟨0⟩ (.cast ⟨2⟩ ⟨0⟩ (.cls "A"))]

/-- Of the two objects, only that of the right class reaches the array and the result of the
cast. -/
theorem Analysis.filtered_of_attains_mixing :
    let a : Analysis := { options := oneCallSite true true }
    let p := (settingOf mixingProgram a.options).program
    let isA (m : Machine Member) (o : QObj) : Prop :=
      p.isSubtype (m.solver.heap.typeOf o.item) (.cls "A") = true
    ∃ m, a.Attains p (fun _ => none) [⟨0⟩] m ∧
      ⟨emptyContext, ⟨0⟩⟩ ∈ m.solver.pointsTo.get (.array ⟨emptyContext, ⟨2⟩⟩) ∧
      ⟨emptyContext, ⟨0⟩⟩ ∈ m.solver.pointsTo.get (varPointer emptyContext ⟨2⟩) ∧
      (∀ o ∈ m.solver.pointsTo.get (.array ⟨emptyContext, ⟨2⟩⟩), isA m o) ∧
      (∀ o ∈ m.solver.pointsTo.get (varPointer emptyContext ⟨2⟩), isA m o) ∧
      ¬ isA m ⟨emptyContext, ⟨1⟩⟩ := by
  intro a p isA
  have hbuild : (Builder.ofList mixingProgram).build = .ok p :=
    Program.build_of_checks (by decide +kernel) (by decide +kernel)
  have hwritten : p.WrittenBy ⟨2⟩ (.cast ⟨2⟩ ⟨0⟩ (.cls "A")) := by
    have honly : ∀ other ∈ p.allStmts, other.lhs? = some ⟨2⟩ →
        other = .cast ⟨2⟩ ⟨0⟩ (.cls "A") := by decide +kernel
    exact ⟨Program.mem_allStmts.1 (by decide +kernel),
      fun hother => honly _ (Program.mem_allStmts.2 hother),
      p.forall_invoke (P := fun call => ⟨2⟩ ∉ call.result) (by decide +kernel) (by rintro ⟨⟩) _,
      p.forall_method (P := fun x => ⟨2⟩ ∉ x.params) (by decide +kernel) List.not_mem_nil _,
      p.forall_method (P := fun x => ⟨2⟩ ∉ x.receiver) (by decide +kernel) (by rintro ⟨⟩) _⟩
  let run := Machine.solve Member.plugin (a.setting p) 20 [⟨0⟩] (.new [.newLambda, .reflection {}])
  have hattains : a.Attains p (fun _ => none) [⟨0⟩] run.2 :=
    Analysis.attains_of_members mixingProgram hbuild rfl rfl 20 [⟨0⟩]
  have harray : run.2.solver.heap.typeOf (⟨emptyContext, ⟨2⟩⟩ : QObj).item =
      .array (.cls "A") := by decide +kernel
  have hfiltered := Analysis.filtered_of_attains mixingProgram hbuild rfl hattains
  exact ⟨run.2, hattains, by decide +kernel, by decide +kernel,
    fun o ho => hfiltered.array harray rfl (.inl ho),
    fun o ho => hfiltered.cast hwritten rfl (.inl ho), by decide +kernel⟩

end PointsTo
