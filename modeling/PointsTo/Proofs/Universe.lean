import Mathlib.Data.Set.Card
import Mathlib.Data.Set.Finite.Lattice
import Mathlib.Data.Set.Finite.List
import PointsTo.Proofs.CoreRules
import PointsTo.Proofs.Listings

/-!
# What a run can mention

A run makes objects and contexts as it goes, but only of what the program, its entry methods
and the options provide: variables and call sites of the program, methods that it declares,
types that it names, and contexts of bounded length.  This file collects all of that for a
setting and some entry methods and shows that it is finite.

Main definitions:

- {lit}`Universe`, with the sets {lit}`Universe.vars`, {lit}`Universe.sites`,
  {lit}`Universe.methods`, {lit}`Universe.types` and {lit}`Universe.objects`.
- {lit}`Universe.limit`: a number that no element of a context reaches.
- {lit}`Universe.contexts`: the contexts of bounded length below that number.

Main results: all these sets are finite ({lit}`Universe.finite_objects`,
{lit}`Universe.finite_contexts` and their like), and what a program answers by name is in them
({lit}`Universe.mem_methods_of_lists` and its like).
-/

namespace PointsTo

/-! ## Tables are finite -/

/-- A table that is read with a default has finitely many answers. -/
theorem finite_range_getD {ι α : Type} (xs : Array α) (d : α) (index : ι → Nat) :
    (Set.range fun i => xs.getD (index i) d).Finite := by
  refine ((List.finite_toSet xs.toList).insert d).subset ?_
  rintro _ ⟨i, rfl⟩
  show xs.getD (index i) d = d ∨ xs.getD (index i) d ∈ xs.toList
  rw [Array.getD_eq_getD_getElem?]
  cases h : xs[index i]? with
  | none => exact .inl rfl
  | some x => exact .inr (Array.mem_toList_iff.2 (Array.mem_of_getElem? h))

/-- What finitely many answers list is finite. -/
theorem finite_listed {ι α β : Type} {f : ι → α} (hf : (Set.range f).Finite) (g : α → List β) :
    {b | ∃ i, b ∈ g (f i)}.Finite := by
  refine (hf.biUnion fun a _ => List.finite_toSet (g a)).subset ?_
  rintro b ⟨i, hb⟩
  exact Set.mem_biUnion (Set.mem_range_self i) hb

namespace Program

variable (p : Program)

/-- Only finitely many methods can be looked up, the default for unknown ids included. -/
theorem finite_range_method : (Set.range p.method).Finite := finite_range_getD _ _ _

/-- The same holds for call sites. -/
theorem finite_range_invoke : (Set.range p.invoke).Finite := finite_range_getD _ _ _

/-- A program has finitely many statements. -/
theorem finite_hasStmt : {stmt | p.HasStmt stmt}.Finite :=
  finite_listed p.finite_range_method Method.stmts

end Program

/-- The field that a statement stores to. -/
def Stmt.stored : Stmt → List FieldId
  | .storeField _ f _ | .storeStatic f _ => [f]
  | _ => []

/-- The type of the objects that a statement makes on the heap. -/
def Stmt.made : Stmt → List JavaType
  | .new _ type => [type]
  | _ => []

/-- The types that a dynamic call site gives to objects: that of its lambda objects, and the
class that a reference to a constructor names. -/
def DynamicCall.madeTypes (d : DynamicCall) : List JavaType :=
  d.methodType.ret ::
    (d.handle? Lambda.implIndex).toList.map fun handle => .cls handle.target.className

/-- What fixes the things that a run can mention. -/
structure Universe where
  env : Setting
  entries : List MethodId

namespace Universe

variable (U : Universe)

/-- The program that is analysed. -/
abbrev program : Program := U.env.program

/-! ## Entities of the program -/

/-- The variables that something can be assigned to. -/
def vars : Set VarId :=
  {v | ∃ stmt, U.program.HasStmt stmt ∧ v ∈ U.program.mentioned stmt} ∪
    {v | ∃ m, v ∈ (U.program.method m).params ++ (U.program.method m).receiver.toList} ∪
    {v | ∃ i, v ∈ (U.program.invoke i).result.toList}

/-- The fields that something can be stored to. -/
def fields : Set FieldId := {f | ∃ stmt, U.program.HasStmt stmt ∧ f ∈ stmt.stored}

/-- The call sites that a statement names, or that a call says it is at. -/
def sites : Set InvokeId :=
  {i | U.program.HasStmt (.invoke i)} ∪ {i | ∃ j, i ∈ [(U.program.invoke j).id]}

/-- The methods that can be reached. -/
def methods : Set MethodId :=
  {m | m ∈ U.entries} ∪ {m | m ∈ U.program.classes.toList.flatMap Class.methods} ∪
    {m | ∃ i, m ∈ [(U.program.method i).id]} ∪ {m | ∃ i, m ∈ [(U.program.invoke i).container]}

/-- The values that lambdas capture. -/
def captures : Set (List VarId) := {vs | ∃ i, vs ∈ [(U.program.invoke i).args]}

/-- The variables that are passed to calls. -/
def args : Set VarId := {v | ∃ i, v ∈ (U.program.invoke i).args}

/-- There are finitely many variables to assign to. -/
theorem finite_vars : U.vars.Finite := by
  refine Set.Finite.union (Set.Finite.union ?_ ?_) ?_
  · refine (U.program.finite_hasStmt.biUnion fun stmt _ =>
      List.finite_toSet (U.program.mentioned stmt)).subset ?_
    rintro v ⟨stmt, hstmt, hv⟩
    exact Set.mem_biUnion hstmt hv
  · exact finite_listed U.program.finite_range_method fun m => m.params ++ m.receiver.toList
  · exact finite_listed U.program.finite_range_invoke fun call => call.result.toList

/-- There are finitely many fields to store to. -/
theorem finite_fields : U.fields.Finite := by
  refine (U.program.finite_hasStmt.biUnion fun stmt _ => List.finite_toSet stmt.stored).subset ?_
  rintro f ⟨stmt, hstmt, hf⟩
  exact Set.mem_biUnion hstmt hf

/-- There are finitely many call sites. -/
theorem finite_sites : U.sites.Finite := by
  refine Set.Finite.union ?_ (finite_listed U.program.finite_range_invoke fun call => [call.id])
  refine U.program.finite_hasStmt.preimage ?_
  intro i _ j _ h
  exact Stmt.invoke.inj h

/-- There are finitely many methods to reach. -/
theorem finite_methods : U.methods.Finite :=
  (((List.finite_toSet _).union (List.finite_toSet _)).union
    (finite_listed U.program.finite_range_method fun m => [m.id])).union
    (finite_listed U.program.finite_range_invoke fun call => [call.container])

/-- Lambdas capture finitely many lists of variables. -/
theorem finite_captures : U.captures.Finite :=
  finite_listed U.program.finite_range_invoke fun call => [call.args]

/-- Finitely many variables are arguments. -/
theorem finite_args : U.args.Finite := finite_listed U.program.finite_range_invoke Invoke.args

section Membership

variable {U}

/-- Variables that a statement mentions are in the universe. -/
theorem mem_vars_of_mentioned {stmt : Stmt} {v : VarId} (h : U.program.HasStmt stmt)
    (hv : v ∈ U.program.mentioned stmt) : v ∈ U.vars := .inl (.inl ⟨stmt, h, hv⟩)

/-- So are parameters. -/
theorem mem_vars_of_param {m : MethodId} {v : VarId} (h : v ∈ (U.program.method m).params) :
    v ∈ U.vars := .inl (.inr ⟨m, List.mem_append_left _ h⟩)

/-- So are receivers. -/
theorem mem_vars_of_receiver {m : MethodId} {v : VarId}
    (h : v ∈ (U.program.method m).receiver) : v ∈ U.vars :=
  .inl (.inr ⟨m, List.mem_append_right _ (Option.mem_toList.2 h)⟩)

/-- So are the results of calls. -/
theorem mem_vars_of_result {i : InvokeId} {v : VarId} (h : v ∈ (U.program.invoke i).result) :
    v ∈ U.vars := .inr ⟨i, Option.mem_toList.2 h⟩

/-- Call sites that statements name are in the universe. -/
theorem mem_sites_of_hasStmt {i : InvokeId} (h : U.program.HasStmt (.invoke i)) : i ∈ U.sites :=
  .inl h

/-- What a call says it is at is in the universe, even for an unknown id. -/
theorem id_mem_sites (U : Universe) (i : InvokeId) : (U.program.invoke i).id ∈ U.sites :=
  .inr ⟨i, List.mem_singleton_self _⟩

/-- Entry methods are in the universe. -/
theorem mem_methods_of_entry {m : MethodId} (h : m ∈ U.entries) : m ∈ U.methods :=
  .inl (.inl (.inl h))

/-- The method that contains a call is in the universe. -/
theorem container_mem_methods (U : Universe) (i : InvokeId) :
    (U.program.invoke i).container ∈ U.methods := .inr ⟨i, List.mem_singleton_self _⟩

/-- The arguments of a call may be captured. -/
theorem args_mem_captures (U : Universe) (i : InvokeId) :
    (U.program.invoke i).args ∈ U.captures := ⟨i, List.mem_singleton_self _⟩

/-! ## Methods by name -/

/-- A method that a class lists can be reached. -/
theorem mem_methods_of_lists {m : MethodId} (h : U.program.Lists m) : m ∈ U.methods := by
  obtain ⟨c, hc, hm⟩ := h
  exact .inl (.inl (.inr (List.mem_flatMap.2 ⟨c, hc, hm⟩)))

/-- Methods that are found by signature are in the universe. -/
theorem mem_methods_of_methodBySignature? {signature : String} {m : MethodId}
    (h : U.program.methodBySignature? signature = some m) : m ∈ U.methods := by
  obtain ⟨x, hx, rfl, _⟩ := Program.methodBySignature?_signature h
  obtain ⟨i, hi, rfl⟩ := List.getElem_of_mem hx
  rw [Array.length_toList] at hi
  refine .inl (.inr ⟨⟨i⟩, ?_⟩)
  simp [Program.method, hi]

end Membership

/-! ## Objects -/

/-- The types of objects. -/
def types : Set JavaType :=
  {t | t ∈ [.null, .string, .classClass, Reflection.Api.methodClass,
      Reflection.Api.constructorClass]} ∪
    {t | ∃ stmt, U.program.HasStmt stmt ∧ t ∈ stmt.made} ∪
    {t | ∃ i, t ∈ (U.program.invoke i).dynamic.toList.flatMap DynamicCall.madeTypes} ∪
    {t | t ∈ U.program.classes.toList.map fun c => .cls c.name} ∪
    {t | ∃ m, t ∈ [(U.program.method m).declaringType]}

/-- What stand-ins are made for. -/
def mockSites : Set MockSite :=
  MockSite.invoke '' U.sites ∪ MockSite.type '' U.types ∪ MockSite.method '' U.methods

/-- The stand-ins that can be asked for. -/
def mocks : Set MockObj :=
  {x | x.site ∈ U.mockSites ∧ x.type ∈ U.types ∧ ∀ m ∈ x.container, m ∈ U.methods}

/-- The objects of a run, among them the one that ids outside the heap stand for. -/
def objects : Set Obj :=
  {default} ∪
    {o | ∃ m ∈ U.methods, ∃ (index : Nat) (stmt : Stmt) (lhs : VarId) (onHeap : Bool),
      (U.program.method m).stmts[index]? = some stmt ∧
        stmt.obj? m index = some (lhs, o, onHeap)} ∪
    MockObj.obj '' U.mocks

/-- There are finitely many types of objects. -/
theorem finite_types : U.types.Finite := by
  refine ((((List.finite_toSet _).union ?_).union
    (finite_listed U.program.finite_range_invoke fun call =>
      call.dynamic.toList.flatMap DynamicCall.madeTypes)).union (List.finite_toSet _)).union
    (finite_listed U.program.finite_range_method fun m => [m.declaringType])
  refine (U.program.finite_hasStmt.biUnion fun stmt _ => List.finite_toSet stmt.made).subset ?_
  rintro t ⟨stmt, hstmt, ht⟩
  exact Set.mem_biUnion hstmt ht

/-- Stand-ins are made for finitely many things. -/
theorem finite_mockSites : U.mockSites.Finite :=
  ((U.finite_sites.image _).union (U.finite_types.image _)).union (U.finite_methods.image _)

/-- There are finitely many stand-ins. -/
theorem finite_mocks : U.mocks.Finite := by
  have hcontainers : {c : Option MethodId | ∀ m ∈ c, m ∈ U.methods}.Finite := by
    refine ((U.finite_methods.image some).insert none).subset ?_
    rintro (_ | m) hm
    · exact .inl rfl
    · exact .inr ⟨m, hm m rfl, rfl⟩
  refine (((List.finite_toSet MockKind.all).prod (U.finite_mockSites.prod
    (U.finite_types.prod hcontainers))).image fun x : MockKind × MockSite × JavaType ×
      Option MethodId => (⟨x.1, x.2.1, x.2.2.1, x.2.2.2⟩ : MockObj)).subset ?_
  rintro ⟨kind, site, type, container⟩ ⟨hsite, htype, hcontainer⟩
  refine ⟨(kind, site, type, container), ⟨?_, hsite, htype, hcontainer⟩, rfl⟩
  show kind ∈ MockKind.all
  cases kind <;> simp [MockKind.all]

/-- There are finitely many objects. -/
theorem finite_objects : U.objects.Finite := by
  refine ((Set.finite_singleton _).union ?_).union (U.finite_mocks.image _)
  -- statement number `index` of a method makes at most one object
  refine (U.finite_methods.biUnion fun m _ => List.finite_toSet
    ((U.program.method m).stmts.zipIdx.filterMap fun x =>
      (x.1.obj? m x.2).map fun y => y.2.1)).subset ?_
  rintro o ⟨m, hm, index, stmt, lhs, onHeap, hstmt, ho⟩
  refine Set.mem_biUnion hm (List.mem_filterMap.2 ⟨(stmt, index), ?_, ?_⟩)
  · exact List.mem_zipIdx_iff_getElem?.2 hstmt
  · simp [ho]

section Objects

variable {U}

/-- The object that a statement of the program assigns is in the universe. -/
theorem obj_mem_objects {m : MethodId} {index : Nat} {stmt : Stmt} {lhs : VarId} {o : Obj}
    {onHeap : Bool} (hm : m ∈ U.methods) (hstmt : (U.program.method m).stmts[index]? = some stmt)
    (ho : stmt.obj? m index = some (lhs, o, onHeap)) : o ∈ U.objects :=
  .inl (.inr ⟨m, hm, index, stmt, lhs, onHeap, hstmt, ho⟩)

/-- Stand-ins of the universe are objects of it. -/
theorem mock_mem_objects {x : MockObj} (h : x ∈ U.mocks) : x.obj ∈ U.objects := .inr ⟨x, h, rfl⟩

/-- So is what an unknown id is read as. -/
theorem default_mem_objects (U : Universe) : default ∈ U.objects := .inl (.inl rfl)

/-- The class that declares a method is a type of the universe. -/
theorem declaringType_mem_types (U : Universe) (m : MethodId) :
    (U.program.method m).declaringType ∈ U.types := .inr ⟨m, List.mem_singleton_self _⟩

/-- So is a class that is found by its name. -/
theorem mem_types_of_class? {name : String} {c : Class} (h : U.program.class? name = some c) :
    .cls c.name ∈ U.types :=
  .inl (.inr (List.mem_map.2 ⟨c, List.mem_of_find?_eq_some h, rfl⟩))

/-- So is every class that the program has. -/
theorem mem_types_of_hasClass {name : String} (h : U.program.hasClass name = true) :
    .cls name ∈ U.types := by
  obtain ⟨c, hc⟩ := Option.isSome_iff_exists.1 h
  rw [← Program.class?_name hc]
  exact mem_types_of_class? hc

/-- So are the types that a dynamic call site makes objects of. -/
theorem mem_types_of_madeTypes {i : InvokeId} {d : DynamicCall} {t : JavaType}
    (hd : (U.program.invoke i).dynamic = some d) (ht : t ∈ d.madeTypes) : t ∈ U.types :=
  .inl (.inl (.inr ⟨i, List.mem_flatMap.2 ⟨d, Option.mem_toList.2 hd, ht⟩⟩))

/-- Every object of a run has a type of the universe. -/
theorem type_mem_types {o : Obj} (h : o ∈ U.objects) : o.type ∈ U.types := by
  rcases h with (rfl | ⟨m, _, index, stmt, lhs, onHeap, hstmt, ho⟩) | ⟨x, hx, rfl⟩
  · exact .inl (.inl (.inl (.inl (by simp [default, JavaType.string]))))
  · have hhas : U.program.HasStmt stmt := ⟨m, List.mem_of_getElem? hstmt⟩
    cases stmt with
    | new lhs' type =>
        cases ho
        exact .inl (.inl (.inl (.inr ⟨_, hhas, List.mem_singleton_self _⟩)))
    | literal lhs' value =>
        cases value <;> cases ho
        · exact .inl (.inl (.inl (.inl (by simp [Obj.stringConstant]))))
        · exact .inl (.inl (.inl (.inl (by simp [Obj.classConstant]))))
    | copy | cast | loadField | storeField | loadStatic | storeStatic | loadArray | storeArray
      | invoke | ret => cases ho
  · exact hx.2.1

/-- What a stand-in is made for is part of the universe. -/
theorem mem_mockSites_of_obj {o : Obj} {site : MockSite} (h : o ∈ U.objects)
    (hsite : o.mockSite? = some site) : site ∈ U.mockSites := by
  rcases h with (rfl | ⟨m, _, index, stmt, lhs, onHeap, _, ho⟩) | ⟨x, hx, rfl⟩
  · cases hsite
  · cases stmt with
    | new lhs' type =>
        cases ho
        cases hsite
    | literal lhs' value => cases value <;> cases ho <;> cases hsite
    | copy | cast | loadField | storeField | loadStatic | storeStatic | loadArray | storeArray
      | invoke | ret => cases ho
  · cases hsite
    exact hx.1

/-- Stand-ins for call sites are made for those of the universe. -/
theorem mem_sites_of_mockSites {i : InvokeId} (h : .invoke i ∈ U.mockSites) : i ∈ U.sites := by
  rcases h with (⟨j, hj, ⟨⟩⟩ | ⟨t, _, ⟨⟩⟩) | ⟨m, _, ⟨⟩⟩
  exact hj

/-- Stand-ins for methods are made for those of the universe. -/
theorem mem_methods_of_mockSites {m : MethodId} (h : .method m ∈ U.mockSites) :
    m ∈ U.methods := by
  rcases h with (⟨j, _, ⟨⟩⟩ | ⟨t, _, ⟨⟩⟩) | ⟨n, hn, ⟨⟩⟩
  exact hn

end Objects

/-! ## Contexts -/

/-- Some number is above all elements that contexts can have: call sites, objects counted from
zero, and the classes that stand for objects. -/
theorem exists_limit : ∃ n, (∀ i ∈ U.sites, i.index < n) ∧
    (∀ o, Selector.typeElement U.program o < n) ∧ U.objects.ncard ≤ n := by
  obtain ⟨a, ha⟩ := (U.finite_sites.image Id.index).bddAbove
  have helements : {n | ∃ o, Selector.typeElement U.program o = n}.Finite := by
    refine ((List.finite_toSet (U.program.classes.toList.map fun c => c.id.index)).insert
      lastId).subset ?_
    rintro n ⟨o, rfl⟩
    show Selector.typeElement U.program o = lastId ∨ _
    unfold Selector.typeElement
    split
    · rename_i c hc
      obtain ⟨name, _, hname⟩ := Option.bind_eq_some_iff.1 hc
      obtain ⟨x, hx, rfl⟩ := Option.map_eq_some_iff.1 hname
      exact .inr (List.mem_map.2 ⟨x, List.mem_of_find?_eq_some hx, rfl⟩)
    · exact .inl rfl
  obtain ⟨b, hb⟩ := helements.bddAbove
  refine ⟨a + b + U.objects.ncard + 1, ?_, ?_, ?_⟩
  · intro i hi
    have hle : i.index ≤ a := ha ⟨i, hi, rfl⟩
    omega
  · intro o
    have hle : Selector.typeElement U.program o ≤ b := hb ⟨o, rfl⟩
    omega
  · omega

/-- A number that no element of a context reaches. -/
noncomputable def limit : Nat := U.exists_limit.choose

/-- The ids of call sites are below the limit. -/
theorem index_lt_limit {i : InvokeId} (h : i ∈ U.sites) : i.index < U.limit :=
  U.exists_limit.choose_spec.1 i h

/-- The element that a type puts into a context is below the limit. -/
theorem typeElement_lt_limit (o : Obj) : Selector.typeElement U.program o < U.limit :=
  U.exists_limit.choose_spec.2.1 o

/-- There are no more objects than the limit says. -/
theorem ncard_objects_le_limit : U.objects.ncard ≤ U.limit := U.exists_limit.choose_spec.2.2

/-- The length that no context and no heap context exceeds. -/
def depth : Nat := max U.env.selector.k U.env.selector.heapDepth

/-- The contexts that can be asked for. -/
def contexts : Set Context :=
  {w | w.elements.length ≤ U.depth ∧ ∀ e ∈ w.elements, e < U.limit}

/-- There are finitely many contexts. -/
theorem finite_contexts : U.contexts.Finite := by
  refine ((List.finite_length_le (Fin U.limit) U.depth).image fun l =>
    (⟨l.map Fin.val⟩ : Context)).subset ?_
  rintro ⟨elements⟩ ⟨hlength, hlimit⟩
  refine ⟨elements.pmap Fin.mk hlimit, ?_, ?_⟩
  · simpa using hlength
  · simp [List.map_pmap]

/-- The empty context is among them. -/
theorem empty_mem_contexts (U : Universe) : Context.empty ∈ U.contexts :=
  ⟨Nat.zero_le _, fun _ h => absurd h List.not_mem_nil⟩

section Context

variable {U} {c : Context}

/-- A context that is extended by an element below the limit is one of the universe. -/
theorem push_mem_contexts {e : Nat} (hc : c ∈ U.contexts) (he : e < U.limit) :
    c.push e U.env.selector.k ∈ U.contexts := by
  constructor
  · have hlength := Context.length_keepLast U.env.selector.k (c.elements ++ [e])
    have hk : U.env.selector.k ≤ U.depth := Nat.le_max_left _ _
    show (Context.keepLast U.env.selector.k (c.elements ++ [e])).length ≤ U.depth
    omega
  · intro x hx
    rcases List.mem_append.1 ((Context.keepLast_suffix _ _).subset hx) with hx | hx
    · exact hc.2 x hx
    · rwa [List.mem_singleton.1 hx]

/-- And so is one that is cut to a heap context. -/
theorem truncate_mem_contexts (hc : c ∈ U.contexts) :
    c.truncate U.env.selector.heapDepth ∈ U.contexts := by
  constructor
  · have hlength := Context.length_keepLast U.env.selector.heapDepth c.elements
    have hdepth : U.env.selector.heapDepth ≤ U.depth := Nat.le_max_right _ _
    show (Context.keepLast U.env.selector.heapDepth c.elements).length ≤ U.depth
    omega
  · exact fun x hx => hc.2 x ((Context.keepLast_suffix _ _).subset hx)

end Context

end Universe

end PointsTo
