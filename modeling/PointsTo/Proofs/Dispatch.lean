import PointsTo.Proofs.Listings
import PointsTo.Proofs.Walks

/-!
# What dispatch finds

The nearest instance method with the key that is looked for decides; if it is abstract, nothing is
found.  If there is none, the interfaces are searched for a method with a body.  That search does
not ask whether the method is an instance method: a static method of an interface hides a default
method that is found later.

Main results:

- {lit}`Program.Rooted`, and theorem {lit}`Program.rooted_of_build`: nothing is above the root.
- {lit}`Program.Nearest`, {lit}`Program.Selects`: how a method is found; theorem
  {lit}`Program.dispatch?_eq_some`: in no other way.
- {lit}`Program.Legal`, {lit}`Program.Unanswered`, and theorem {lit}`Program.dispatch?_answers`:
  what is found, when nothing is found, and that the search ends.
-/

namespace PointsTo

/-- The root class comes first, and is below nothing. -/
def Program.Rooted (p : Program) : Prop :=
  ∃ root, p.classes[0]? = some root ∧ root.name = JavaType.objectName ∧ root.superClass = none ∧
    root.interfaces = []

/-! ## The root of a built program -/

namespace Builder

/-- Only the table of classes matters. -/
theorem rooted_of_eq {p q : Program} (h : p.Rooted) (hclasses : q.classes = p.classes) :
    q.Rooted := by
  unfold Program.Rooted
  rw [hclasses]
  exact h

/-- What is above a class stays as it was declared. -/
theorem rooted_modifyClass {p : Program} (h : p.Rooted) (name : String) {f : Class → Class}
    (hname : ∀ c, (f c).name = c.name) (hsuper : ∀ c, (f c).superClass = c.superClass)
    (hinterfaces : ∀ c, (f c).interfaces = c.interfaces) : (modifyClass p name f).Rooted := by
  obtain ⟨root, hroot, hrname, hrsuper, hrinterfaces⟩ := h
  unfold modifyClass
  split
  · rename_i id _
    unfold Program.Rooted
    dsimp only
    rw [Array.getElem?_modify, hroot]
    split
    · exact ⟨f root, rfl, (hname root).trans hrname, (hsuper root).trans hrsuper,
        (hinterfaces root).trans hrinterfaces⟩
    · exact ⟨root, rfl, hrname, hrsuper, hrinterfaces⟩
  · exact ⟨root, hroot, hrname, hrsuper, hrinterfaces⟩

/-- No step puts anything above the root. -/
theorem rooted_of_edit {p q : Program} (h : Edit p q) (hp : p.Rooted) : q.Rooted := by
  cases h with
  | cls =>
      obtain ⟨root, hroot, hrest⟩ := hp
      exact ⟨root, getElem?_push_of_eq_some hroot, hrest⟩
  | field | method =>
      refine rooted_modifyClass ?_ _ (fun _ => rfl) (fun _ => rfl) fun _ => rfl
      exact rooted_of_eq hp rfl
  | var | stmt | invoke | line => exact rooted_of_eq hp rfl

/-- However a program is assembled, nothing is above its root. -/
theorem rooted_ofList (ds : List Declaration) : (ofList ds).program.Rooted :=
  (edits_ofList ds).keeps rooted_of_edit ⟨_, rfl, rfl, rfl, rfl⟩

end Builder

namespace Program

variable {p : Program} {m : MethodId} {r : MethodRef} {type : JavaType} {c d i key : String}

/-- Building a program leaves the root as it is. -/
theorem rooted_of_build {ds : List Declaration} (hb : (Builder.ofList ds).program.Rooted)
    (h : (Builder.ofList ds).build = .ok p) : p.Rooted := by
  obtain ⟨-, rfl⟩ := indexed_of_build (Builder.numbered_ofList ds) h
  exact Builder.rooted_of_eq hb rfl

namespace Rooted

variable (h : p.Rooted)

include h

/-- The root has no superclass and names no interface. -/
theorem class?_root : ∃ root, p.class? JavaType.objectName = some root ∧ root.superClass = none ∧
    root.interfaces = [] := by
  obtain ⟨root, hroot, hname, habove⟩ := h
  refine ⟨root, ?_, habove⟩
  obtain ⟨classes, hclasses⟩ : ∃ classes, p.classes.toList = root :: classes := by
    rw [← Array.getElem?_toList] at hroot
    cases hlist : p.classes.toList with
    | nil => simp [hlist] at hroot
    | cons c classes =>
        obtain rfl : c = root := by simpa [hlist] using hroot
        exact ⟨classes, rfl⟩
  unfold class?
  rw [hclasses, List.find?_cons_of_pos (by simp [hname])]

/-- The root extends nothing. -/
theorem not_extends : ¬ p.Extends JavaType.objectName d := by
  obtain ⟨root, hroot, hsuper, _⟩ := h.class?_root
  simp [Extends, superclass?, hroot, hsuper]

/-- It names no interface. -/
theorem not_names : ¬ p.Names JavaType.objectName i := by
  obtain ⟨root, hroot, _, hinterfaces⟩ := h.class?_root
  simp [Names, ownInterfaces, hroot, hinterfaces]

/-- Nothing but the root is above the root. -/
theorem eq_of_extends (hd : Relation.ReflTransGen p.Extends JavaType.objectName d) :
    d = JavaType.objectName := by
  rcases Relation.ReflTransGen.cases_head hd with rfl | ⟨s, hs, _⟩
  · rfl
  · exact absurd hs h.not_extends

/-- It implements none. -/
theorem not_implements : ¬ p.Implements JavaType.objectName i := by
  rintro ⟨d, j, hd, hj, _⟩
  obtain rfl := h.eq_of_extends hd
  exact h.not_names hj

end Rooted

/-! ## Where dispatch looks -/

/-- A method is declared under its own key. -/
theorem dispatchKey_of_declared? (h : p.declared? c key = some m) :
    (p.method m).dispatchKey = key := by
  unfold declared? at h
  split at h
  · simpa using List.find?_some h
  · cases h

/-- A class declares its own methods. -/
theorem Listed.className_of_declared? (hlisted : p.Listed) (h : p.declared? c key = some m) :
    (p.method m).className = c := by
  unfold declared? at h
  split at h
  · rename_i entry hentry
    obtain ⟨x, hx, hname⟩ := hlisted.methods entry
      (Array.mem_toList_iff.1 (List.mem_of_find?_eq_some hentry)) m (List.mem_of_find?_eq_some h)
    have hx' : p.method m = x := by
      simp [method, Array.getD_eq_getD_getElem?, hx]
    rw [hx', hname, class?_name hentry]
  · cases h

/-- A class is a subtype of what is above it. -/
theorem isSubtype_of_above (h : Relation.ReflTransGen p.Extends c d ∨ p.Implements c d) :
    p.isSubtype (.cls c) (.cls d) = true := by
  simp only [isSubtype, isSubclass, Bool.or_eq_true, List.contains_iff_mem, mem_superclassChain,
    mem_interfacesOf_chain]
  exact .inr h

/-- What is above the class in which dispatch begins is a supertype of the type of the object. -/
theorem Rooted.isSubtype_of_dispatchClass? (hrooted : p.Rooted)
    (hc : dispatchClass? type = some c)
    (h : Relation.ReflTransGen p.Extends c d ∨ p.Implements c d) :
    p.isSubtype type (.cls d) = true := by
  cases type with
  | cls name =>
      cases hc
      exact isSubtype_of_above h
  | array e =>
      cases hc
      obtain rfl : d = JavaType.objectName := by
        rcases h with h | h
        · exact hrooted.eq_of_extends h
        · exact absurd h hrooted.not_implements
      simp [isSubtype]
  | void | primitive | null => cases hc

/-- The nearest instance method with a key among a class and its superclasses. -/
def Nearest (p : Program) (key c : String) (m : MethodId) : Prop :=
  ∃ before d after, p.superclassChain c = before ++ d :: after ∧ p.declared? d key = some m ∧
    (p.method m).isStatic = false ∧
    ∀ e ∈ before, ∀ n, p.declared? e key = some n → (p.method n).isStatic = true

/-- The search of the chain finds the nearest instance method. -/
theorem nearestInstance?_eq_some :
    p.nearestInstance? key (p.superclassChain c) = some m ↔ p.Nearest key c m := by
  unfold nearestInstance?
  rw [List.findSome?_eq_some_iff]
  simp only [Option.filter_eq_some_iff, Option.filter_eq_none_iff, Bool.not_eq_true',
    Bool.not_eq_false, Nearest, and_assoc]

/-- It finds nothing exactly if there is none. -/
theorem nearestInstance?_eq_none :
    p.nearestInstance? key (p.superclassChain c) = none ↔ ∀ m, ¬ p.Nearest key c m := by
  simp only [Option.eq_none_iff_forall_ne_some, ne_eq, nearestInstance?_eq_some]

/-- The nearest method is declared by a superclass, or by the class itself. -/
theorem Nearest.extends (h : p.Nearest key c m) :
    ∃ d, Relation.ReflTransGen p.Extends c d ∧ p.declared? d key = some m := by
  obtain ⟨before, d, after, hchain, hm, _⟩ := h
  refine ⟨d, mem_superclassChain.1 ?_, hm⟩
  rw [hchain]
  exact List.mem_append_right _ List.mem_cons_self

/-- How dispatch of a reference on a class finds a method. -/
inductive Selects (p : Program) (r : MethodRef) (c : String) (m : MethodId) : Prop
  | inherited (h : p.Nearest r.dispatchKey c m)
  | default {i : String} (hnone : ∀ n, ¬ p.Nearest r.dispatchKey c n) (hi : p.Implements c i)
      (h : p.declared? i r.dispatchKey = some m)

/-- A method that dispatch finds has a body, and is found in one of two ways. -/
theorem dispatch?_eq_some (h : p.dispatch? type r = some m) :
    (p.method m).isAbstract = false ∧
      ∃ c, dispatchClass? type = some c ∧ p.Selects r c m := by
  unfold dispatch? at h
  split at h
  · cases h
  · rename_i c hc
    dsimp only at h
    split at h
    · rename_i n hn
      split at h
      · cases h
      · rename_i habstract
        cases h
        exact ⟨by simpa using habstract, c, hc, .inherited (nearestInstance?_eq_some.1 hn)⟩
    · rename_i hnone
      obtain ⟨i, hi, hm⟩ := List.mem_filterMap.1 (List.mem_of_find?_eq_some h)
      exact ⟨by simpa using List.find?_some h, c, hc,
        .default (nearestInstance?_eq_none.1 hnone) (mem_interfacesOf_chain.1 hi) hm⟩

/-- What is found has the key that was looked for. -/
theorem dispatchKey_of_dispatch? (h : p.dispatch? type r = some m) :
    (p.method m).dispatchKey = r.dispatchKey := by
  obtain ⟨_, c, _, hselects⟩ := dispatch?_eq_some h
  cases hselects with
  | inherited h =>
      obtain ⟨_, _, hm⟩ := h.extends
      exact dispatchKey_of_declared? hm
  | default _ _ h => exact dispatchKey_of_declared? h

/-! ## The answers -/

/-- What a method is that dispatch finds. -/
structure Legal (p : Program) (type : JavaType) (r : MethodRef) (m : MethodId) : Prop where
  concrete : (p.method m).isAbstract = false
  key : (p.method m).dispatchKey = r.dispatchKey
  /-- It is the first with its key in its class, which is above the type of the object. -/
  declared : p.declared? (p.method m).className r.dispatchKey = some m
  isSubtype : p.isSubtype type (.cls (p.method m).className) = true
  /-- A static method can only be that of an interface, where no class has an instance method. -/
  static : (p.method m).isStatic = true → ∃ c, dispatchClass? type = some c ∧
    (∀ n, ¬ p.Nearest r.dispatchKey c n) ∧ p.Implements c (p.method m).className

/-- Why dispatch finds no method. -/
inductive Unanswered (p : Program) (type : JavaType) (r : MethodRef) : Prop
  | noObject (hcls : ∀ c, type ≠ .cls c) (harray : ∀ e, type ≠ .array e)
  | abstract {c : String} {m : MethodId} (hc : dispatchClass? type = some c)
      (hm : p.Nearest r.dispatchKey c m) (h : (p.method m).isAbstract = true)
  | missing {c : String} (hc : dispatchClass? type = some c)
      (hnone : ∀ m, ¬ p.Nearest r.dispatchKey c m)
      (h : ∀ i, p.Implements c i → ∀ m, p.declared? i r.dispatchKey = some m →
        (p.method m).isAbstract = true)

/-- What is found is legal to call. -/
theorem legal_of_dispatch? (hlisted : p.Listed) (hrooted : p.Rooted)
    (h : p.dispatch? type r = some m) : p.Legal type r m := by
  obtain ⟨hconcrete, c, hc, hselects⟩ := dispatch?_eq_some h
  have hkey := dispatchKey_of_dispatch? h
  cases hselects with
  | inherited hm =>
      obtain ⟨d, hd, hdecl⟩ := hm.extends
      have hname := hlisted.className_of_declared? hdecl
      obtain ⟨_, _, _, _, _, hinstance, _⟩ := hm
      refine ⟨hconcrete, hkey, by rw [hname, hdecl], ?_, fun hstatic => ?_⟩
      · rw [hname]
        exact hrooted.isSubtype_of_dispatchClass? hc (.inl hd)
      · rw [hinstance] at hstatic
        cases hstatic
  | default hnone hi hdecl =>
      have hname := hlisted.className_of_declared? hdecl
      refine ⟨hconcrete, hkey, by rw [hname, hdecl], ?_, fun _ => ⟨c, hc, hnone, ?_⟩⟩
      · rw [hname]
        exact hrooted.isSubtype_of_dispatchClass? hc (.inr hi)
      · rw [hname]
        exact hi

/-- Dispatch begins at no class only for types that are neither classes nor arrays. -/
theorem dispatchClass?_eq_none :
    dispatchClass? type = none ↔ (∀ c, type ≠ .cls c) ∧ ∀ e, type ≠ .array e := by
  cases type <;> simp [dispatchClass?]

/-- Nothing is found exactly if nothing answers. -/
theorem dispatch?_eq_none : p.dispatch? type r = none ↔ p.Unanswered type r := by
  constructor
  · intro h
    unfold dispatch? at h
    split at h
    · rename_i hnone
      obtain ⟨hcls, harray⟩ := dispatchClass?_eq_none.1 hnone
      exact .noObject hcls harray
    · rename_i c hc
      dsimp only at h
      split at h
      · rename_i m hm
        split at h
        · rename_i habstract
          exact .abstract hc (nearestInstance?_eq_some.1 hm) habstract
        · cases h
      · rename_i hnone
        refine .missing hc (nearestInstance?_eq_none.1 hnone) fun i hi m hm => ?_
        have hmem : m ∈ (p.interfacesOf (p.superclassChain c)).filterMap fun i =>
            p.declared? i r.dispatchKey :=
          List.mem_filterMap.2 ⟨i, mem_interfacesOf_chain.2 hi, hm⟩
        simpa using List.find?_eq_none.1 h m hmem
  · intro h
    unfold dispatch?
    cases h with
    | noObject hcls harray => rw [dispatchClass?_eq_none.2 ⟨hcls, harray⟩]
    | abstract hc hm h =>
        rw [hc]
        dsimp only
        rw [nearestInstance?_eq_some.2 hm]
        exact if_pos h
    | missing hc hnone h =>
        rw [hc]
        dsimp only
        rw [nearestInstance?_eq_none.2 hnone]
        refine List.find?_eq_none.2 fun m hm => ?_
        obtain ⟨i, hi, hdecl⟩ := List.mem_filterMap.1 hm
        simp [h i (mem_interfacesOf_chain.1 hi) m hdecl]

/-- Dispatch ends, as larger bounds change neither walk.  What it finds has a body and the key that
is looked for, and is declared by a supertype of the type of the object; it is an instance method
unless an interface had to be searched.  It finds nothing only where there is no class to search,
where the nearest instance method is abstract, or where there is none and no interface has a method
with a body. -/
theorem dispatch?_answers (ds : List Declaration) (hbuild : (Builder.ofList ds).build = .ok p)
    (type : JavaType) (r : MethodRef) :
    (∀ c n, p.classes.size < n → p.chainFrom n [] c = p.superclassChain c) ∧
    (∀ chain n, (chain.flatMap p.ownInterfaces).length +
        (p.classes.toList.flatMap Class.interfaces).length < n →
      p.interfacesFrom n [] (chain.flatMap p.ownInterfaces) = p.interfacesOf chain) ∧
    (∀ m, p.dispatch? type r = some m → p.Legal type r m) ∧
    (p.dispatch? type r = none ↔ p.Unanswered type r) :=
  ⟨fun c _ hn => superclassChain_eq hn c, fun _ _ hn => interfacesOf_eq hn,
    fun _ => legal_of_dispatch? (listed_of_build (Builder.listed_ofList ds) hbuild)
      (rooted_of_build (Builder.rooted_ofList ds) hbuild),
    dispatch?_eq_none⟩

/-- A class that implements two interfaces, of which the first has a static method and the second
a default method of one key. -/
def greetingProgram : List Declaration :=
  [.cls (.interface "I"), .cls (.interface "J"),
    .method ⟨"I", "m", [], .void, true, false, true⟩,
    .method ⟨"J", "m", [], .void, false, false, true⟩,
    .cls ((ClassDecl.plain "A").implementing ["I", "J"]),
    .cls ((ClassDecl.plain "B").implementing ["J"])]

/-- On an object whose class implements the second interface alone, the default method is found. -/
theorem dispatch?_answers_greeting :
    ∃ p, (Builder.ofList greetingProgram).build = .ok p ∧
      p.dispatch? (.cls "B") ⟨"J", "m", [], .void⟩ = some ⟨1⟩ ∧
      p.Legal (.cls "B") ⟨"J", "m", [], .void⟩ ⟨1⟩ := by
  have hbuild : (Builder.ofList greetingProgram).build = .ok _ :=
    build_of_checks (by decide +kernel) (by decide +kernel)
  have hfound : (Builder.ofList greetingProgram).program.indexed.dispatch? (.cls "B")
      ⟨"J", "m", [], .void⟩ = some ⟨1⟩ := by decide +kernel
  obtain ⟨_, _, hlegal, _⟩ :=
    dispatch?_answers greetingProgram hbuild (.cls "B") ⟨"J", "m", [], .void⟩
  exact ⟨_, hbuild, hfound, hlegal _ hfound⟩

/-- Where the class implements both, the static method is found. -/
theorem dispatch?_static :
    ∃ p, (Builder.ofList greetingProgram).build = .ok p ∧
      p.dispatch? (.cls "A") ⟨"I", "m", [], .void⟩ = some ⟨0⟩ ∧
      (p.method ⟨0⟩).isStatic = true := by
  have hbuild : (Builder.ofList greetingProgram).build = .ok _ :=
    build_of_checks (by decide +kernel) (by decide +kernel)
  exact ⟨_, hbuild, by decide +kernel, by decide +kernel⟩

end Program

end PointsTo
