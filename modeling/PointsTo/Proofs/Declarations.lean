import Mathlib.Data.List.Induction
import PointsTo.Proofs.Indexes

/-!
# What declarations leave in the tables

Declarations come in any order, and each one changes several tables at once.  A method or a field
gets the next id of its table, and its class lists it if the class is known by then.  A class that
is declared later starts with empty lists: it never lists what was declared for it before.  A
signature is found whether or not the class is known.

Main results:

- {lit}`Follows`: the declaration of an entry comes after that of its class.
- {lit}`Program.Registers`, and theorem {lit}`Builder.registers_ofList`: what the tables hold after
  a list of declarations.
- Theorem {lit}`Program.class?_modifyClass`: a change of one class is seen under its name alone.
- Theorem {lit}`Program.listed_of_declarations`: what the classes of a built program list, and what
  its signatures lead to.
- Theorem {lit}`Program.complete_of_classesFirst`: where classes are declared first, nothing is
  missing from their lists.
-/

namespace PointsTo

/-! ## Declarations and their classes -/

namespace Declaration

/-- The class that a declared method names as its own. -/
def methodOwner? : Declaration → Option String
  | .method d => some d.className
  | _ => none

/-- The class that a declared field names as its own. -/
def fieldOwner? : Declaration → Option String
  | .field d => some d.className
  | _ => none

/-- The name of a class or an interface that is declared. -/
def declares? : Declaration → Option String
  | .cls d => some d.name
  | _ => none

end Declaration

open Declaration (methodOwner? fieldOwner? declares?)

/-- The names of the classes that are known after some declarations.  The root is known from the
start. -/
def knownClasses (ds : List Declaration) : List String :=
  JavaType.objectName :: ds.filterMap declares?

/-- The classes that are known after more declarations are those before and those after. -/
theorem knownClasses_append (ds es : List Declaration) :
    knownClasses (ds ++ es) = knownClasses ds ++ es.filterMap declares? := by
  simp [knownClasses]

variable {owner? : Declaration → Option String} {ds : List Declaration} {d : Declaration}
  {name : String} {n : Nat}

/-- The declaration of entry {lit}`n` names the class, which is known by then. -/
def Follows (owner? : Declaration → Option String) (ds : List Declaration) (name : String)
    (n : Nat) : Prop :=
  ∃ front d back, ds = front ++ d :: back ∧ owner? d = some name ∧
    (front.filterMap owner?).length = n ∧ name ∈ knownClasses front

/-- Entry {lit}`n` of a table has a declaration, which names the class of the entry. -/
theorem exists_split_of_getElem?_owners (h : (ds.filterMap owner?)[n]? = some name) :
    ∃ front d back, ds = front ++ d :: back ∧ owner? d = some name ∧
      (front.filterMap owner?).length = n := by
  induction ds generalizing n with
  | nil => cases h
  | cons d ds ih =>
      cases howner : owner? d with
      | none =>
          rw [List.filterMap_cons_none howner] at h
          obtain ⟨front, d', back, rfl, hd', rfl⟩ := ih h
          exact ⟨d :: front, d', back, rfl, hd', by rw [List.filterMap_cons_none howner]⟩
      | some owner =>
          rw [List.filterMap_cons_some howner] at h
          cases n with
          | zero => exact ⟨[], d, ds, rfl, howner.trans h, rfl⟩
          | succ n =>
              obtain ⟨front, d', back, rfl, hd', rfl⟩ := ih h
              exact ⟨d :: front, d', back, rfl, hd', by rw [List.filterMap_cons_some howner]; rfl⟩

namespace Follows

/-- One more declaration is about one more entry, if about any. -/
theorem concat_iff : Follows owner? (ds ++ [d]) name n ↔ Follows owner? ds name n ∨
    (owner? d = some name ∧ (ds.filterMap owner?).length = n ∧ name ∈ knownClasses ds) := by
  constructor
  · rintro ⟨front, d', back, hds, howner, hn, hknown⟩
    rcases List.eq_nil_or_concat back with rfl | ⟨back, last, rfl⟩
    · obtain ⟨rfl, hd⟩ := List.append_inj' hds rfl
      obtain rfl : d = d' := List.singleton_inj.1 hd
      exact .inr ⟨howner, hn, hknown⟩
    · have hsplit : ds ++ [d] = (front ++ d' :: back) ++ [last] := by simpa using hds
      exact .inl ⟨front, d', back, (List.append_inj' hsplit rfl).1, howner, hn, hknown⟩
  · rintro (⟨front, d', back, rfl, howner, hn, hknown⟩ | ⟨howner, hn, hknown⟩)
    · exact ⟨front, d', back ++ [d], by simp, howner, hn, hknown⟩
    · exact ⟨ds, d, [], rfl, howner, hn, hknown⟩

/-- A class that an entry follows is known. -/
theorem known (h : Follows owner? ds name n) : name ∈ knownClasses ds := by
  obtain ⟨front, d, back, rfl, _, _, hknown⟩ := h
  rw [knownClasses_append]
  exact List.mem_append_left _ hknown

/-- An entry belongs to the class that its declaration names. -/
theorem getElem?_owners (h : Follows owner? ds name n) :
    (ds.filterMap owner?)[n]? = some name := by
  obtain ⟨front, d, back, rfl, howner, rfl, _⟩ := h
  simp [List.filterMap_cons_some howner]

/-- The number is one of an entry of the table. -/
theorem lt (h : Follows owner? ds name n) : n < (ds.filterMap owner?).length :=
  (List.getElem?_eq_some_iff.1 h.getElem?_owners).1

end Follows

/-- The ids in ascending order of the entries that follow a class. -/
structure Catalogues {e : Entity} (owner? : Declaration → Option String) (ds : List Declaration)
    (name : String) (ids : List (Id e)) : Prop where
  ascending : ids.Pairwise fun i j => i.index < j.index
  mem_iff : ∀ i, i ∈ ids ↔ Follows owner? ds name i.index

namespace Catalogues

variable {e : Entity} {ids : List (Id e)}

/-- At the beginning nothing is in the catalogue. -/
theorem start : Catalogues owner? [] name ([] : List (Id e)) where
  ascending := .nil
  mem_iff := fun _ =>
    ⟨fun hi => absurd hi List.not_mem_nil, fun hi => absurd hi.lt (Nat.not_lt_zero _)⟩

/-- Nothing follows a class that is not known yet. -/
theorem nil (h : name ∉ knownClasses ds) :
    Catalogues owner? ds name ([] : List (Id e)) where
  ascending := .nil
  mem_iff := fun _ => ⟨fun hi => absurd hi List.not_mem_nil, fun hi => absurd hi.known h⟩

/-- A declaration for another class, or of another kind, changes nothing. -/
theorem concat_of_ne (h : Catalogues owner? ds name ids) (hd : owner? d ≠ some name) :
    Catalogues owner? (ds ++ [d]) name ids where
  ascending := h.ascending
  mem_iff := fun i => by
    rw [h.mem_iff, Follows.concat_iff]
    exact ⟨.inl, fun hi => hi.resolve_right fun hnew => hd hnew.1⟩

/-- The entry that a declaration adds for a known class goes to the end. -/
theorem concat (h : Catalogues owner? ds name ids) (hd : owner? d = some name)
    (hknown : name ∈ knownClasses ds) :
    Catalogues owner? (ds ++ [d]) name (ids ++ [⟨(ds.filterMap owner?).length⟩]) where
  ascending := by
    apply List.pairwise_append.2
    refine ⟨h.ascending, List.pairwise_singleton _ _, fun i hi j hj => ?_⟩
    rw [List.mem_singleton.1 hj]
    exact ((h.mem_iff i).1 hi).lt
  mem_iff := fun i => by
    rw [List.mem_append, h.mem_iff, Follows.concat_iff, List.mem_singleton]
    refine or_congr_right ⟨?_, ?_⟩
    · rintro rfl
      exact ⟨hd, rfl, hknown⟩
    · rintro ⟨_, hi, _⟩
      exact congrArg Id.mk hi.symm

end Catalogues

/-! ## Looking up a class -/

/-- The id of an entry tells which one it is. -/
theorem NumberedBy.eq_of_id {e : Entity} {α : Type} {id : α → Id e} {xs : Array α}
    (h : NumberedBy id xs) {a b : α} (ha : a ∈ xs) (hb : b ∈ xs) (hid : id a = id b) : a = b := by
  obtain ⟨i, hi⟩ := Array.mem_iff_getElem?.1 ha
  obtain ⟨j, hj⟩ := Array.mem_iff_getElem?.1 hb
  rw [h i a hi, h j b hj] at hid
  obtain rfl : i = j := congrArg Id.index hid
  exact Option.some.inj (hi.symm.trans hj)

/-- A change at the position of an entry is a change of the entries with its id. -/
theorem NumberedBy.toList_modify {e : Entity} {α : Type} {id : α → Id e} {xs : Array α}
    (h : NumberedBy id xs) (i : Id e) (f : α → α) :
    (xs.modify i.index f).toList = xs.toList.map fun a => if id a = i then f a else a := by
  apply List.ext_getElem?
  intro j
  rw [Array.getElem?_toList, Array.getElem?_modify, List.getElem?_map, Array.getElem?_toList]
  cases hget : xs[j]? with
  | none => simp
  | some a =>
      have hj : i.index = j ↔ id a = i := by
        rw [h j a hget]
        exact ⟨fun hi => congrArg Id.mk hi.symm, fun hi => (congrArg Id.index hi).symm⟩
      by_cases hi : i.index = j
      · simp [hi, hj.1 hi]
      · simp [hi, mt hj.2 hi]

namespace Program

variable {p q : Program} {c : Class}

/-- A class that is found is one of the program. -/
theorem mem_classes_of_class? (h : p.class? name = some c) : c ∈ p.classes :=
  Array.mem_toList_iff.1 (List.mem_of_find?_eq_some h)

/-- Classes are found among the classes of a program, and nothing else matters. -/
theorem class?_of_classes_eq (hclasses : q.classes = p.classes) (name : String) :
    q.class? name = p.class? name := by
  unfold class?
  rw [hclasses]

/-- After a class is added, its name finds the new one. -/
theorem class?_push (p : Program) (entry : Class) (name : String) :
    class? { p with classes := p.classes.push entry } name =
      (p.class? name).or (if entry.name = name then some entry else none) := by
  unfold class?
  rw [Array.toList_push, List.find?_append]
  congr 1
  by_cases hname : entry.name = name
  · simp [hname]
  · simp [hname]

/-- A change of one class is seen under its name alone. -/
theorem class?_modifyClass (hclasses : NumberedBy Class.id p.classes) {f : Class → Class}
    (hname : ∀ c, (f c).name = c.name) (changed name : String) :
    (Builder.modifyClass p changed f).class? name =
      (p.class? name).map fun c => if name = changed then f c else c := by
  unfold Builder.modifyClass
  split
  · rename_i id hid
    obtain ⟨entry, hentry, rfl⟩ := Option.map_eq_some_iff.1 hid
    unfold class?
    rw [hclasses.toList_modify, List.find?_map]
    have hsame : ((fun c => c.name == name) ∘ fun c => if c.id = entry.id then f c else c) =
        fun c : Class => c.name == name := by
      funext c
      by_cases hc : c.id = entry.id
      · simp [hc, hname]
      · simp [hc]
    rw [hsame]
    refine Option.map_congr fun c hc => ?_
    -- the class with the id is the one that was found by the name
    have hiff : c.id = entry.id ↔ name = changed := by
      constructor
      · intro heq
        obtain rfl :=
          hclasses.eq_of_id (mem_classes_of_class? hc) (mem_classes_of_class? hentry) heq
        rw [← class?_name hc, class?_name hentry]
      · rintro rfl
        rw [Option.some.inj (hc.symm.trans hentry)]
    simp only [hiff]
  · rename_i hnone
    have hchanged : p.class? changed = none := Option.map_eq_none_iff.1 hnone
    by_cases heq : name = changed
    · rw [heq, hchanged]
      rfl
    · simp [heq]

/-- Classes keep their numbers when one of them is changed. -/
theorem numberedBy_modifyClass (h : NumberedBy Class.id p.classes) (changed : String)
    {f : Class → Class} (hid : ∀ c, (f c).id = c.id) :
    NumberedBy Class.id (Builder.modifyClass p changed f).classes := by
  unfold Builder.modifyClass
  split
  · exact h.modify _ hid
  · exact h

/-! ## What the tables hold -/

/-- The tables hold what was declared: each method and field under the next id, the classes under
their names, and with each class what was declared for it once it was known. -/
structure Registers (p : Program) (ds : List Declaration) : Prop where
  classes : NumberedBy Class.id p.classes
  methods : p.methods.toList.map Method.className = ds.filterMap methodOwner?
  fields : p.fields.toList.map Field.className = ds.filterMap fieldOwner?
  known : ∀ name, (p.class? name).isSome = true ↔ name ∈ knownClasses ds
  ownMethods : ∀ name c, p.class? name = some c → Catalogues methodOwner? ds name c.methods
  ownFields : ∀ name c, p.class? name = some c → Catalogues fieldOwner? ds name c.fields

namespace Registers

/-- There are as many methods as declarations of methods. -/
theorem size_methods (h : p.Registers ds) :
    (ds.filterMap methodOwner?).length = p.methods.size := by
  rw [← h.methods, List.length_map, Array.length_toList]

/-- There are as many fields as declarations of fields. -/
theorem size_fields (h : p.Registers ds) :
    (ds.filterMap fieldOwner?).length = p.fields.size := by
  rw [← h.fields, List.length_map, Array.length_toList]

/-- A declaration of variables or statements leaves the tables as they are. -/
theorem of_same (h : p.Registers ds) (hclasses : q.classes = p.classes)
    (hmethods : q.methods.toList.map Method.className = p.methods.toList.map Method.className)
    (hfields : q.fields = p.fields) (hmethod : methodOwner? d = none)
    (hfield : fieldOwner? d = none) (hcls : declares? d = none) : q.Registers (ds ++ [d]) where
  classes := by
    rw [hclasses]
    exact h.classes
  methods := by simp [hmethods, h.methods, hmethod]
  fields := by simp [hfields, h.fields, hfield]
  known := fun name => by
    have hknown := h.known name
    simpa [class?, hclasses, knownClasses_append, hcls] using hknown
  ownMethods := fun name c hc =>
    (h.ownMethods name c (by simpa [class?, hclasses] using hc)).concat_of_ne (by simp [hmethod])
  ownFields := fun name c hc =>
    (h.ownFields name c (by simpa [class?, hclasses] using hc)).concat_of_ne (by simp [hfield])

/-- A second class of one name changes nothing. -/
theorem again (h : p.Registers ds) {decl : ClassDecl}
    (hknown : (p.class? decl.name).isSome = true) : p.Registers (ds ++ [.cls decl]) where
  classes := h.classes
  methods := by simp [h.methods, methodOwner?]
  fields := by simp [h.fields, fieldOwner?]
  known := fun name => by
    rw [h.known, knownClasses_append, List.mem_append]
    refine ⟨.inl, fun hname => hname.elim id fun hnew => ?_⟩
    obtain rfl : name = decl.name := by simpa [declares?] using hnew
    exact (h.known _).1 hknown
  ownMethods := fun name c hc => (h.ownMethods name c hc).concat_of_ne (by simp [methodOwner?])
  ownFields := fun name c hc => (h.ownFields name c hc).concat_of_ne (by simp [fieldOwner?])

/-- A new class lists nothing. -/
theorem push_class (h : p.Registers ds) {decl : ClassDecl} (hnew : p.class? decl.name = none)
    {entry : Class} (hid : entry.id = ⟨p.classes.size⟩) (hname : entry.name = decl.name)
    (hmethods : entry.methods = []) (hfields : entry.fields = []) :
    Registers { p with classes := p.classes.push entry } (ds ++ [.cls decl]) := by
  have hunknown : decl.name ∉ knownClasses ds := by
    rw [← h.known, hnew]
    exact Bool.false_ne_true
  have hcases : ∀ name c, class? { p with classes := p.classes.push entry } name = some c →
      p.class? name = some c ∨ (name = decl.name ∧ c = entry) := by
    intro name c hc
    rw [class?_push] at hc
    rcases Option.or_eq_some_iff.1 hc with hc | ⟨_, hc⟩
    · exact .inl hc
    · split at hc
      · rename_i heq
        cases hc
        exact .inr ⟨heq.symm.trans hname, rfl⟩
      · cases hc
  refine ⟨h.classes.push hid, ?_, ?_, fun name => ?_, fun name c hc => ?_, fun name c hc => ?_⟩
  · simp [h.methods, methodOwner?]
  · simp [h.fields, fieldOwner?]
  · rw [class?_push, Option.isSome_or, Bool.or_eq_true, h.known, knownClasses_append, hname,
      List.mem_append]
    by_cases heq : decl.name = name
    · simp [declares?, heq]
    · simp [declares?, heq, Ne.symm heq]
  · rcases hcases name c hc with hc | ⟨rfl, rfl⟩
    · exact (h.ownMethods name c hc).concat_of_ne (by simp [methodOwner?])
    · rw [hmethods]
      exact (Catalogues.nil hunknown).concat_of_ne (by simp [methodOwner?])
  · rcases hcases name c hc with hc | ⟨rfl, rfl⟩
    · exact (h.ownFields name c hc).concat_of_ne (by simp [fieldOwner?])
    · rw [hfields]
      exact (Catalogues.nil hunknown).concat_of_ne (by simp [fieldOwner?])

/-- A declaration for a class may change what the class lists, if it is known. -/
theorem modifyClass (h : p.Registers ds) (hclasses : q.classes = p.classes)
    (hmethods : q.methods.toList.map Method.className = (ds ++ [d]).filterMap methodOwner?)
    (hfields : q.fields.toList.map Field.className = (ds ++ [d]).filterMap fieldOwner?)
    (hcls : declares? d = none) {f : Class → Class} (hid : ∀ c, (f c).id = c.id)
    (hname : ∀ c, (f c).name = c.name)
    (hother : ∀ other, other ≠ name → methodOwner? d ≠ some other ∧ fieldOwner? d ≠ some other)
    (hown : ∀ c, p.class? name = some c → Catalogues methodOwner? (ds ++ [d]) name (f c).methods ∧
      Catalogues fieldOwner? (ds ++ [d]) name (f c).fields) :
    (Builder.modifyClass q name f).Registers (ds ++ [d]) := by
  have hnumbered : NumberedBy Class.id q.classes := by
    rw [hclasses]
    exact h.classes
  have hclass? : ∀ other, (Builder.modifyClass q name f).class? other =
      (p.class? other).map fun c => if other = name then f c else c := by
    intro other
    rw [class?_modifyClass hnumbered hname, class?_of_classes_eq hclasses]
  have hlists : ∀ other c, (Builder.modifyClass q name f).class? other = some c →
      Catalogues methodOwner? (ds ++ [d]) other c.methods ∧
        Catalogues fieldOwner? (ds ++ [d]) other c.fields := by
    intro other c' hc'
    rw [hclass?] at hc'
    obtain ⟨c, hc, rfl⟩ := Option.map_eq_some_iff.1 hc'
    by_cases heq : other = name
    · subst heq
      rw [if_pos rfl]
      exact hown c hc
    · rw [if_neg heq]
      obtain ⟨hmethod, hfield⟩ := hother other heq
      exact ⟨(h.ownMethods other c hc).concat_of_ne hmethod,
        (h.ownFields other c hc).concat_of_ne hfield⟩
  refine ⟨numberedBy_modifyClass hnumbered name hid, by simpa using hmethods,
    by simpa using hfields, fun other => ?_, fun other c hc => (hlists other c hc).1,
    fun other c hc => (hlists other c hc).2⟩
  rw [hclass?, Option.isSome_map, h.known]
  simp [knownClasses_append, hcls]

/-- A method that is added is listed by its class, if that is known. -/
theorem push_method (h : p.Registers ds) {decl : MethodDecl} {entry : Method} (vars : Array Var)
    (hentry : entry.className = decl.className) :
    Registers (Builder.modifyClass { p with vars, methods := p.methods.push entry } decl.className
      fun c => { c with methods := c.methods ++ [⟨p.methods.size⟩] }) (ds ++ [.method decl]) := by
  apply h.modifyClass
  case hclasses | hcls => rfl
  case hid | hname => exact fun _ => rfl
  case hmethods => simp [h.methods, methodOwner?, hentry]
  case hfields => simp [h.fields, fieldOwner?]
  case hother =>
    intro other hother
    simp [methodOwner?, fieldOwner?, Ne.symm hother]
  case hown =>
    intro c hc
    have hknown : decl.className ∈ knownClasses ds := (h.known _).1 (by simp [hc])
    refine ⟨?_, (h.ownFields _ c hc).concat_of_ne (by simp [fieldOwner?])⟩
    rw [← h.size_methods]
    exact (h.ownMethods _ c hc).concat rfl hknown

/-- A field that is added is listed by its class, if that is known. -/
theorem push_field (h : p.Registers ds) {decl : FieldDecl} {entry : Field}
    (hentry : entry.className = decl.className) :
    Registers (Builder.modifyClass { p with fields := p.fields.push entry } decl.className
      fun c => { c with fields := c.fields ++ [⟨p.fields.size⟩] }) (ds ++ [.field decl]) := by
  apply h.modifyClass
  case hclasses | hcls => rfl
  case hid | hname => exact fun _ => rfl
  case hmethods => simp [h.methods, methodOwner?]
  case hfields => simp [h.fields, fieldOwner?, hentry]
  case hother =>
    intro other hother
    simp [methodOwner?, fieldOwner?, Ne.symm hother]
  case hown =>
    intro c hc
    have hknown : decl.className ∈ knownClasses ds := (h.known _).1 (by simp [hc])
    refine ⟨(h.ownMethods _ c hc).concat_of_ne (by simp [methodOwner?]), ?_⟩
    rw [← h.size_fields]
    exact (h.ownFields _ c hc).concat rfl hknown

end Registers

end Program

namespace Builder

variable {b : Builder}

/-- A class is registered when it is added. -/
theorem registers_addClass (h : b.program.Registers ds) (d : ClassDecl) :
    (b.addClass d).2.program.Registers (ds ++ [.cls d]) := by
  unfold addClass
  split
  · rename_i id hid
    obtain ⟨c, hc, _⟩ := Option.map_eq_some_iff.1 hid
    exact h.again (by simp [hc])
  · rename_i hnone
    have hnew : b.program.class? d.name = none := Option.map_eq_none_iff.1 hnone
    dsimp only
    rw [program_reserve]
    exact h.push_class hnew rfl rfl rfl rfl

/-- A field is registered when it is added. -/
theorem registers_addField (h : b.program.Registers ds) (d : FieldDecl) :
    (b.addField d).2.program.Registers (ds ++ [.field d]) := by
  unfold addField
  dsimp only
  rw [program_reserve]
  exact h.push_field rfl

/-- A method is registered when it is added. -/
theorem registers_addMethod (h : b.program.Registers ds) (d : MethodDecl) :
    (b.addMethod d).2.program.Registers (ds ++ [.method d]) := by
  obtain ⟨vars, hvars⟩ := exists_program_addReceiver
    (b := b.reserve .method b.program.methods.size) ⟨b.program.methods.size⟩ d
  obtain ⟨vars', hvars'⟩ := exists_program_addParams
    (b := ((b.reserve .method b.program.methods.size).addReceiver ⟨b.program.methods.size⟩ d).2)
    ⟨b.program.methods.size⟩ 0 d.params
  unfold addMethod
  dsimp only
  rw [hvars', hvars, program_reserve]
  exact h.push_method vars' rfl

/-- Appending a statement leaves methods with their classes. -/
theorem owners_addStmt (b : Builder) (m : MethodId) (s : Stmt) :
    (b.addStmt m s).program.methods.toList.map Method.className =
      b.program.methods.toList.map Method.className := by
  apply List.ext_getElem?
  intro i
  simp only [addStmt, List.getElem?_map, Array.getElem?_toList, Array.getElem?_modify]
  split
  · cases b.program.methods[i]? <;> rfl
  · rfl

/-- What one declaration leaves in the tables. -/
theorem registers_declare (h : b.program.Registers ds) (d : Declaration) :
    (b.declare d).program.Registers (ds ++ [d]) := by
  cases d with
  | cls d => exact registers_addClass h d
  | field d => exact registers_addField h d
  | method d => exact registers_addMethod h d
  | var m name type =>
      exact h.of_same (by simp [declare, addVar]) (by simp [declare, addVar])
        (by simp [declare, addVar]) rfl rfl rfl
  | stmt m s => exact h.of_same rfl (owners_addStmt b m s) rfl rfl rfl rfl
  | call m d =>
      refine h.of_same ?_ ?_ ?_ rfl rfl rfl
      · simp [declare, addCall, addInvoke, addStmt]
      · exact (owners_addStmt _ m _).trans (by simp)
      · simp [declare, addCall, addInvoke, addStmt]
  | dynamicCall m d =>
      refine h.of_same ?_ ?_ ?_ rfl rfl rfl
      · simp [declare, addDynamicCall, addInvoke, addStmt]
      · exact (owners_addStmt _ m _).trans (by simp)
      · simp [declare, addDynamicCall, addInvoke, addStmt]
  | line site line => exact h.of_same rfl rfl rfl rfl rfl rfl

/-- At first there is the root alone. -/
theorem registers_new : new.program.Registers [] := by
  have hclasses : new.program.classes.toList =
      [⟨⟨0⟩, JavaType.objectName, none, [], false, false, [], []⟩] := rfl
  have hroot : ∀ name c, new.program.class? name = some c → c.methods = [] ∧ c.fields = [] := by
    intro name c hc
    have hmem := List.mem_of_find?_eq_some hc
    rw [hclasses, List.mem_singleton] at hmem
    exact hmem ▸ ⟨rfl, rfl⟩
  refine ⟨fun i c hc => ?_, rfl, rfl, fun name => ?_, fun name c hc => ?_, fun name c hc => ?_⟩
  · rw [← Array.getElem?_toList, hclasses, List.getElem?_singleton] at hc
    split at hc
    · rename_i hi
      cases hc
      rw [hi]
    · cases hc
  · rw [Program.class?, hclasses, List.find?_singleton, knownClasses, List.filterMap_nil,
      List.mem_singleton]
    by_cases hname : JavaType.objectName = name
    · rw [if_pos (beq_iff_eq.2 hname)]
      exact iff_of_true rfl hname.symm
    · rw [if_neg (mt beq_iff_eq.1 hname)]
      exact iff_of_false Bool.false_ne_true (Ne.symm hname)
  · rw [(hroot name c hc).1]
    exact .start
  · rw [(hroot name c hc).2]
    exact .start

/-- What a list of declarations leaves in the tables, in whatever order they come. -/
theorem registers_ofList (ds : List Declaration) : (ofList ds).program.Registers ds := by
  induction ds using List.reverseRecOn with
  | nil => exact registers_new
  | append_singleton ds d ih =>
      have hstep : ofList (ds ++ [d]) = (ofList ds).declare d := by
        simp [ofList, List.foldl_append]
      rw [hstep]
      exact registers_declare ih d

end Builder

/-! ## Built programs -/

namespace Program

variable {p : Program} {c : Class}

/-- Indexing leaves classes, owners and fields as they are. -/
theorem registers_of_build {ds : List Declaration} (hb : (Builder.ofList ds).program.Registers ds)
    (h : (Builder.ofList ds).build = .ok p) : p.Registers ds := by
  obtain ⟨-, rfl⟩ := indexed_of_build (Builder.numbered_ofList ds) h
  refine ⟨hb.classes, ?_, hb.fields, hb.known, hb.ownMethods, hb.ownFields⟩
  rw [← hb.methods]
  simp [indexed, Function.comp_def]

namespace Registers

variable (h : p.Registers ds)

include h

/-- A method has the class that its declaration names. -/
theorem getElem?_methodOwners {m : MethodId} (hm : m.index < p.methods.size) :
    (ds.filterMap methodOwner?)[m.index]? = some (p.method m).className := by
  rw [← h.methods]
  simp [method, hm]

/-- A field belongs to the class that its declaration names. -/
theorem getElem?_fieldOwners {f : FieldId} (hf : f.index < p.fields.size) :
    (ds.filterMap fieldOwner?)[f.index]? = some (p.field f).className := by
  rw [← h.fields]
  simp [field, hf]

/-- A class lists the methods that follow it, and they name it as their own. -/
theorem mem_methods_iff (hc : p.class? name = some c) {m : MethodId} : m ∈ c.methods ↔
    (m.index < p.methods.size ∧ (p.method m).className = name) ∧
      Follows methodOwner? ds name m.index := by
  rw [(h.ownMethods name c hc).mem_iff]
  refine ⟨fun hm => ⟨?_, hm⟩, fun hm => hm.2⟩
  have hlt : m.index < p.methods.size := h.size_methods ▸ hm.lt
  exact ⟨hlt, Option.some.inj ((h.getElem?_methodOwners hlt).symm.trans hm.getElem?_owners)⟩

/-- A class lists the fields that were declared for it after it was. -/
theorem mem_fields_iff (hc : p.class? name = some c) {f : FieldId} : f ∈ c.fields ↔
    (f.index < p.fields.size ∧ (p.field f).className = name) ∧
      Follows fieldOwner? ds name f.index := by
  rw [(h.ownFields name c hc).mem_iff]
  refine ⟨fun hf => ⟨?_, hf⟩, fun hf => hf.2⟩
  have hlt : f.index < p.fields.size := h.size_fields ▸ hf.lt
  exact ⟨hlt, Option.some.inj ((h.getElem?_fieldOwners hlt).symm.trans hf.getElem?_owners)⟩

end Registers

/-- A search from the end finds the last one. -/
private theorem exists_split_of_find?_reverse {α : Type} {test : α → Bool} {xs : List α} {x : α}
    (h : xs.reverse.find? test = some x) :
    ∃ front back, xs = front ++ x :: back ∧ test x = true ∧ ∀ y ∈ back, test y = false := by
  obtain ⟨htest, later, earlier, hsplit, hlater⟩ := List.find?_eq_some_iff_append.1 h
  refine ⟨earlier.reverse, later.reverse, ?_, htest, fun y hy => ?_⟩
  · simpa using congrArg List.reverse hsplit
  · simpa using hlater y (List.mem_reverse.1 hy)

/-- The signature of a method leads to the last method that has it. -/
theorem exists_methodBySignature? (hmethods : NumberedBy Method.id p.methods) {m : MethodId}
    (hm : m.index < p.methods.size) : ∃ n, p.methodBySignature? (p.method m).signature = some n ∧
      n.index < p.methods.size ∧ (p.method n).signature = (p.method m).signature ∧
      ∀ k : MethodId, k.index < p.methods.size →
        (p.method k).signature = (p.method m).signature → k.index ≤ n.index := by
  have hget : ∀ k : MethodId, k.index < p.methods.size →
      p.methods.toList[k.index]? = some (p.method k) := fun k hk => by simp [method, hk]
  have hsome : (p.methods.toList.reverse.find? fun k =>
      k.signature == (p.method m).signature).isSome = true :=
    List.find?_isSome.2
      ⟨_, List.mem_reverse.2 (List.mem_of_getElem? (hget m hm)), beq_self_eq_true _⟩
  obtain ⟨x, hx⟩ := Option.isSome_iff_exists.1 hsome
  obtain ⟨front, back, hsplit, hsignature, hback⟩ := exists_split_of_find?_reverse hx
  have hat : p.methods[front.length]? = some x := by
    rw [← Array.getElem?_toList, hsplit]
    simp
  have hid : x.id = ⟨front.length⟩ := hmethods _ x hat
  have hself : p.method x.id = x := by
    rw [hid, method, Array.getD_eq_getD_getElem?, hat]
    rfl
  refine ⟨x.id, ?_, ?_, ?_, fun k hk hsame => ?_⟩
  · rw [methodBySignature?, hx]
    rfl
  · rw [hid]
    exact (Array.getElem?_eq_some_iff.1 hat).1
  · rw [hself]
    exact beq_iff_eq.1 hsignature
  · by_contra hnot
    rw [hid] at hnot
    have hlt : front.length < k.index := Nat.lt_of_not_le hnot
    obtain ⟨i, hi⟩ : ∃ i, k.index = front.length + (i + 1) :=
      ⟨k.index - front.length - 1, by omega⟩
    have hlater := hget k hk
    rw [hsplit, hi, List.getElem?_append_right (by omega), Nat.add_sub_cancel_left,
      List.getElem?_cons_succ] at hlater
    simpa [hsame] using hback _ (List.mem_of_getElem? hlater)

/-- However a program is assembled, a class lists its methods and fields in ascending order, those
that were declared when the class was known.  The signature of a method leads to the last method
that has it, known class or not; the class lists it if it follows the class. -/
theorem listed_of_declarations (ds : List Declaration)
    (hbuild : (Builder.ofList ds).build = .ok p) :
    (∀ name c, p.class? name = some c →
      (c.methods.Pairwise (fun i j => i.index < j.index) ∧ ∀ m, m ∈ c.methods ↔
        (m.index < p.methods.size ∧ (p.method m).className = name) ∧
          Follows methodOwner? ds name m.index) ∧
      (c.fields.Pairwise (fun i j => i.index < j.index) ∧ ∀ f, f ∈ c.fields ↔
        (f.index < p.fields.size ∧ (p.field f).className = name) ∧
          Follows fieldOwner? ds name f.index)) ∧
    ∀ m : MethodId, m.index < p.methods.size →
      ∃ n, p.methodBySignature? (p.method m).signature = some n ∧ n.index < p.methods.size ∧
        (p.method n).signature = (p.method m).signature ∧
        (∀ k : MethodId, k.index < p.methods.size →
          (p.method k).signature = (p.method m).signature → k.index ≤ n.index) ∧
        (Follows methodOwner? ds (p.method n).className n.index →
          ∃ c, p.class? (p.method n).className = some c ∧ n ∈ c.methods) := by
  have h : p.Registers ds := registers_of_build (Builder.registers_ofList ds) hbuild
  have hbuilt := built_of_build (Builder.numbered_ofList ds) hbuild
  refine ⟨fun name c hc => ⟨⟨(h.ownMethods name c hc).ascending, fun m => h.mem_methods_iff hc⟩,
    (h.ownFields name c hc).ascending, fun f => h.mem_fields_iff hc⟩, fun m hm => ?_⟩
  obtain ⟨n, hfound, hn, hsignature, hlast⟩ :=
    exists_methodBySignature? hbuilt.numbered.methods hm
  refine ⟨n, hfound, hn, hsignature, hlast, fun hfollows => ?_⟩
  obtain ⟨c, hc⟩ := Option.isSome_iff_exists.1 ((h.known _).2 hfollows.known)
  exact ⟨c, hc, (h.mem_methods_iff hc).2 ⟨⟨hn, rfl⟩, hfollows⟩⟩

/-- A class that is declared between its members: a method and a field come before it, and one of
each after it. -/
def lateProgram : List Declaration :=
  [.field ⟨"A", "f", .cls "A", false⟩, .method ⟨"A", "m", [], .void, false, false, true⟩,
    .cls (.plain "A"),
    .field ⟨"A", "g", .cls "A", false⟩, .method ⟨"A", "n", [], .void, false, false, true⟩]

/-- What comes after the class is listed. -/
theorem listed_of_declarations_late :
    ∃ p c, (Builder.ofList lateProgram).build = .ok p ∧ p.class? "A" = some c ∧
      Follows methodOwner? lateProgram "A" 1 ∧ ⟨1⟩ ∈ c.methods ∧
      Follows fieldOwner? lateProgram "A" 1 ∧ ⟨1⟩ ∈ c.fields := by
  have hbuild : (Builder.ofList lateProgram).build = .ok _ :=
    build_of_checks (by decide +kernel) (by decide +kernel)
  have hclass : (Builder.ofList lateProgram).program.indexed.class? "A" =
      some ⟨⟨1⟩, "A", some JavaType.objectName, [], false, false, [⟨1⟩], [⟨1⟩]⟩ := by
    decide +kernel
  have hmethod : Follows methodOwner? lateProgram "A" 1 :=
    ⟨lateProgram.take 4, _, [], rfl, rfl, rfl, by decide⟩
  have hfield : Follows fieldOwner? lateProgram "A" 1 :=
    ⟨lateProgram.take 3, _, lateProgram.drop 4, rfl, rfl, rfl, by decide⟩
  obtain ⟨⟨_, hmethods⟩, _, hfields⟩ := (listed_of_declarations lateProgram hbuild).1 "A" _ hclass
  exact ⟨_, _, hbuild, hclass,
    hmethod, (hmethods ⟨1⟩).2 ⟨⟨by decide +kernel, by decide +kernel⟩, hmethod⟩,
    hfield, (hfields ⟨1⟩).2 ⟨⟨by decide +kernel, by decide +kernel⟩, hfield⟩⟩

/-- What comes before the class is not, although the method is found by its signature. -/
theorem unlisted_of_late_class :
    ∃ p c, (Builder.ofList lateProgram).build = .ok p ∧ p.class? "A" = some c ∧
      0 < p.methods.size ∧ (p.method ⟨0⟩).className = "A" ∧ ⟨0⟩ ∉ c.methods ∧
      p.methodBySignature? (p.method ⟨0⟩).signature = some ⟨0⟩ ∧
      0 < p.fields.size ∧ (p.field ⟨0⟩).className = "A" ∧ ⟨0⟩ ∉ c.fields := by
  have hbuild : (Builder.ofList lateProgram).build = .ok _ :=
    build_of_checks (by decide +kernel) (by decide +kernel)
  have hclass : (Builder.ofList lateProgram).program.indexed.class? "A" =
      some ⟨⟨1⟩, "A", some JavaType.objectName, [], false, false, [⟨1⟩], [⟨1⟩]⟩ := by
    decide +kernel
  exact ⟨_, _, hbuild, hclass, by decide +kernel, by decide +kernel, by decide +kernel,
    by decide +kernel, by decide +kernel, by decide +kernel, by decide +kernel⟩

/-! ## Classes first -/

/-- Every class that is declared comes before the methods and fields that name it. -/
def ClassesFirst (ds : List Declaration) : Prop :=
  ∀ front d back name, ds = front ++ d :: back →
    methodOwner? d = some name ∨ fieldOwner? d = some name →
    name ∈ knownClasses ds → name ∈ knownClasses front

/-- Where classes are declared first, each lists all its methods and fields. -/
theorem complete_of_classesFirst (ds : List Declaration) (hfirst : ClassesFirst ds)
    (hbuild : (Builder.ofList ds).build = .ok p) (hc : p.class? name = some c) :
    (∀ m, m ∈ c.methods ↔ m.index < p.methods.size ∧ (p.method m).className = name) ∧
      ∀ f, f ∈ c.fields ↔ f.index < p.fields.size ∧ (p.field f).className = name := by
  have h : p.Registers ds := registers_of_build (Builder.registers_ofList ds) hbuild
  have hknown : name ∈ knownClasses ds := (h.known name).1 (by simp [hc])
  refine ⟨fun m => ?_, fun f => ?_⟩
  · rw [h.mem_methods_iff hc]
    refine ⟨fun hm => hm.1, fun ⟨hlt, hname⟩ => ⟨⟨hlt, hname⟩, ?_⟩⟩
    obtain ⟨front, d, back, hsplit, howner, hn⟩ :=
      exists_split_of_getElem?_owners (hname ▸ h.getElem?_methodOwners hlt)
    exact ⟨front, d, back, hsplit, howner, hn, hfirst front d back name hsplit (.inl howner) hknown⟩
  · rw [h.mem_fields_iff hc]
    refine ⟨fun hf => hf.1, fun ⟨hlt, hname⟩ => ⟨⟨hlt, hname⟩, ?_⟩⟩
    obtain ⟨front, d, back, hsplit, howner, hn⟩ :=
      exists_split_of_getElem?_owners (hname ▸ h.getElem?_fieldOwners hlt)
    exact ⟨front, d, back, hsplit, howner, hn, hfirst front d back name hsplit (.inr howner) hknown⟩

end Program

end PointsTo
