import PointsTo.Proofs.Dispatch
import PointsTo.Proofs.Traversals

/-!
# Subtyping as an order

Every type is below itself.  Being below goes through a third type wherever nothing is declared
above an interface that is not above the classes which implement it: the walk over interfaces does
not turn to their superclasses, and the interfaces of arrays are fixed.  Programs whose interfaces
have the root as their superclass are such, whatever cycles and missing classes they have.

Main results:

- {lit}`Program.Above`: what is above a class; theorem {lit}`Program.isSubtype_cls`: subtyping
  between classes.
- Theorem {lit}`Program.isSubtype_array_array`: arrays are below each other as their elements are.
- {lit}`Program.UpwardClosed`, {lit}`Program.Layered`, and theorem
  {lit}`Program.isSubtype_preorder`: subtyping is reflexive, and when it is transitive.
-/

namespace PointsTo

namespace Program

variable {p : Program} {a b c i s : String} {t u v : JavaType}

/-! ## Above a class -/

/-- A class names another one as its superclass, or as an interface. -/
def Up (p : Program) (a b : String) : Prop := p.Extends a b ∨ p.Names a b

/-- What is above a class: the root, the class, its superclasses and all their interfaces. -/
def Above (p : Program) (a b : String) : Prop :=
  b = JavaType.objectName ∨ Relation.ReflTransGen p.Extends a b ∨ p.Implements a b

/-- Between classes, subtypes are what is below. -/
theorem isSubtype_cls : p.isSubtype (.cls a) (.cls b) = true ↔ p.Above a b := by
  rw [isSubtype_cls_iff, ← mem_interfacesOf_iff_transGen, mem_interfacesOf_chain,
    mem_superclassChain]
  constructor
  · rintro (rfl | habove)
    · exact .inr (.inl .refl)
    · exact habove
  · exact .inr

/-- A superclass is reached by going up. -/
theorem reaches_of_extends (h : Relation.ReflTransGen p.Extends a b) :
    Relation.ReflTransGen p.Up a b :=
  Relation.ReflTransGen.mono (fun _ _ => Or.inl) _ _ h

/-- So is an interface that is implemented. -/
theorem Implements.reaches (h : p.Implements a i) : Relation.ReflTransGen p.Up a i := by
  obtain ⟨d, j, hd, hj, hi⟩ := h
  have hinterfaces : Relation.ReflTransGen p.Up j i :=
    Relation.ReflTransGen.mono (fun _ _ => Or.inr) _ _ hi
  exact ((reaches_of_extends hd).tail (.inr hj)).trans hinterfaces

/-- What is above a class is the root, or reached by going up. -/
theorem Above.reaches (h : p.Above a b) :
    b = JavaType.objectName ∨ Relation.ReflTransGen p.Up a b := by
  rcases h with hroot | hextends | himplements
  · exact .inl hroot
  · exact .inr (reaches_of_extends hextends)
  · exact .inr himplements.reaches

/-- What holds of a class and goes from class to superclass and interface holds of all above it,
if it holds of the root. -/
theorem Above.induct {P : String → Prop} (h : p.Above a b) (ha : P a)
    (hroot : P JavaType.objectName) (hstep : ∀ c d, P c → p.Up c d → P d) : P b := by
  rcases h.reaches with rfl | hreach
  · exact hroot
  · clear h
    induction hreach with
    | refl => exact ha
    | tail _ hup ih => exact hstep _ _ ih hup

/-! ## Arrays -/

/-- The classes that arrays are below. -/
def aboveArrays : List String :=
  [JavaType.objectName, JavaType.cloneableName, JavaType.serializableName]

/-- An array is below what all arrays are below, and below no other class. -/
theorem isSubtype_array_cls : p.isSubtype (.array t) (.cls b) = true ↔ b ∈ aboveArrays := by
  simp [isSubtype, aboveArrays, or_assoc]

/-- Arrays are below each other as their elements are. -/
theorem isSubtype_array_array (p : Program) (t u : JavaType) :
    p.isSubtype (.array t) (.array u) = p.isSubtype t u := by
  rw [isSubtype]
  split
  · rfl
  · rename_i hreference
    cases t with
    | void | primitive => exact BEq.comm
    | cls | array | null => cases u <;> simp_all [isSubtype, JavaType.isReference]

/-- Every type is below itself. -/
theorem isSubtype_refl (p : Program) (t : JavaType) : p.isSubtype t t = true := by
  induction t with
  | void | primitive | null => simp [isSubtype, JavaType.isReference]
  | cls name => exact isSubtype_cls.2 (.inr (.inl .refl))
  | array t ih => rw [isSubtype_array_array, ih]

/-- What is above a reference type is one. -/
theorem isReference_of_isSubtype (h : p.isSubtype t u = true) (ht : t.isReference = true) :
    u.isReference = true := by
  cases t <;> cases u <;> simp_all [isSubtype, JavaType.isReference]

/-! ## Transitivity -/

/-- Nothing is declared above an interface that is not above what is below the interface: its
superclass is above every class that implements it, and what is above the interfaces of arrays is
above arrays. -/
structure UpwardClosed (p : Program) : Prop where
  interfaces : ∀ a i s, p.Implements a i → p.Extends i s → p.Above a s
  arrays : ∀ i ∈ aboveArrays, ∀ s, p.Up i s → s ∈ aboveArrays

/-- All interfaces that are named have no superclass but the root, and nothing but each other is
declared above the interfaces of arrays. -/
def Layered (p : Program) : Prop :=
  ∀ c ∈ p.classes.toList, (∀ i ∈ c.interfaces, ∀ s ∈ p.superclass? i, s = JavaType.objectName) ∧
    (c.name ∈ aboveArrays →
      (∀ s ∈ c.superClass, s ∈ aboveArrays) ∧ ∀ i ∈ c.interfaces, i ∈ aboveArrays)

instance (p : Program) : Decidable p.Layered :=
  inferInstanceAs (Decidable (∀ c ∈ p.classes.toList,
    (∀ i ∈ c.interfaces, ∀ s ∈ p.superclass? i, s = JavaType.objectName) ∧
      (c.name ∈ aboveArrays →
        (∀ s ∈ c.superClass, s ∈ aboveArrays) ∧ ∀ i ∈ c.interfaces, i ∈ aboveArrays)))

/-- A class that names an interface is declared, and lists it. -/
theorem exists_of_names (h : p.Names a i) :
    ∃ entry ∈ p.classes.toList, entry.name = a ∧ i ∈ entry.interfaces := by
  unfold Names ownInterfaces at h
  split at h
  · rename_i entry hentry
    exact ⟨entry, List.mem_of_find?_eq_some hentry, class?_name hentry, h⟩
  · cases h

/-- A class that names a superclass is declared with it. -/
theorem exists_of_extends (h : p.Extends a s) :
    ∃ entry ∈ p.classes.toList, entry.name = a ∧ entry.superClass = some s := by
  obtain ⟨entry, hentry, hsuper⟩ := Option.bind_eq_some_iff.1 h
  exact ⟨entry, List.mem_of_find?_eq_some hentry, class?_name hentry, hsuper⟩

/-- What a class implements is named somewhere. -/
theorem Implements.named (h : p.Implements a i) : ∃ c, p.Names c i := by
  obtain ⟨d, j, _, hj, hi⟩ := h
  rcases Relation.ReflTransGen.cases_tail hi with rfl | ⟨k, _, hk⟩
  · exact ⟨d, hj⟩
  · exact ⟨k, hk⟩

/-- A layered program declares nothing above an interface that could be missed. -/
theorem Layered.upwardClosed (h : p.Layered) : p.UpwardClosed where
  interfaces a i s himplements hs := by
    obtain ⟨c, hc⟩ := himplements.named
    obtain ⟨entry, hentry, _, hi⟩ := exists_of_names hc
    exact .inl ((h entry hentry).1 i hi s hs)
  arrays i hi s hup := by
    rcases hup with hs | hs
    · obtain ⟨entry, hentry, rfl, hsuper⟩ := exists_of_extends hs
      exact ((h entry hentry).2 hi).1 s hsuper
    · obtain ⟨entry, hentry, rfl, hmem⟩ := exists_of_names hs
      exact ((h entry hentry).2 hi).2 s hmem

/-- What is above a class is closed under what is declared above it. -/
theorem UpwardClosed.above_up (h : p.UpwardClosed) (hrooted : p.Rooted) (hb : p.Above a b)
    (hup : p.Up b c) : p.Above a c := by
  rcases hb with rfl | hextends | himplements
  · exact hup.elim (absurd · hrooted.not_extends) (absurd · hrooted.not_names)
  · rcases hup with hc | hc
    · exact .inr (.inl (hextends.tail hc))
    · exact .inr (.inr ⟨b, c, hextends, hc, .refl⟩)
  · rcases hup with hc | hc
    · exact h.interfaces a b c himplements hc
    · obtain ⟨d, j, hd, hj, hreach⟩ := himplements
      exact .inr (.inr ⟨d, j, hd, hj, hreach.tail hc⟩)

/-- If nothing above an interface is missed, subtypes are transitive. -/
theorem UpwardClosed.isSubtype_trans (h : p.UpwardClosed) (hrooted : p.Rooted)
    (htu : p.isSubtype t u = true) (huv : p.isSubtype u v = true) : p.isSubtype t v = true := by
  induction t generalizing u v with
  | void | primitive =>
      simp only [isSubtype, beq_iff_eq] at htu
      subst htu
      exact huv
  | null => exact isReference_of_isSubtype huv htu
  | cls a =>
      cases u with
      | cls b =>
          cases v with
          | cls c =>
              rw [isSubtype_cls] at htu huv ⊢
              exact huv.induct htu (.inl rfl) fun _ _ => h.above_up hrooted
          | void | primitive | array | null => cases huv
      | void | primitive | array | null => cases htu
  | array t ih =>
      cases u with
      | cls b =>
          cases v with
          | cls c =>
              rw [isSubtype_array_cls] at htu ⊢
              exact (isSubtype_cls.1 huv).induct htu List.mem_cons_self fun i s hi =>
                h.arrays i hi s
          | void | primitive | array | null => cases huv
      | array u =>
          cases v with
          | cls c => exact isSubtype_array_cls.2 (isSubtype_array_cls.1 huv)
          | array v =>
              rw [isSubtype_array_array] at htu huv ⊢
              exact ih htu huv
          | void | primitive | null => cases huv
      | void | primitive | null => cases htu

/-- If subtypes are transitive, nothing above an interface is missed. -/
theorem upwardClosed_of_trans (h : ∀ t u v, p.isSubtype t u = true → p.isSubtype u v = true →
    p.isSubtype t v = true) : p.UpwardClosed where
  interfaces a i s himplements hs :=
    isSubtype_cls.1 (h _ (.cls i) _ (isSubtype_cls.2 (.inr (.inr himplements)))
      (isSubtype_cls.2 (.inr (.inl (.single hs)))))
  arrays i hi s hup := by
    have habove : p.Above i s := by
      rcases hup with hs | hs
      · exact .inr (.inl (.single hs))
      · exact .inr (.inr ⟨i, s, .refl, hs, .refl⟩)
    exact isSubtype_array_cls.1 (h (.array .void) (.cls i) _ (isSubtype_array_cls.2 hi)
      (isSubtype_cls.2 habove))

/-- Subtyping is reflexive on all types of a program that is built.  It is transitive on them just
where nothing is declared above an interface but what is above all that is below the interface; so
it is in particular where all interfaces have the root as their superclass, and the interfaces of
arrays are below nothing else but each other. -/
theorem isSubtype_preorder (ds : List Declaration) (hbuild : (Builder.ofList ds).build = .ok p) :
    (∀ t, p.isSubtype t t = true) ∧
    ((∀ t u v, p.isSubtype t u = true → p.isSubtype u v = true → p.isSubtype t v = true) ↔
      p.UpwardClosed) ∧
    (p.Layered → p.UpwardClosed) :=
  ⟨p.isSubtype_refl,
    ⟨upwardClosed_of_trans, fun h _ _ _ =>
      h.isSubtype_trans (rooted_of_build (Builder.rooted_ofList ds) hbuild)⟩,
    Layered.upwardClosed⟩

/-- Interfaces that name each other, classes that implement them, the interface of arrays, and a
class below an undeclared one. -/
def layeredProgram : List Declaration :=
  [.cls (.interface "I"), .cls ((ClassDecl.interface "J").implementing ["I", "L"]),
    .cls ((ClassDecl.interface "L").implementing ["J"]),
    .cls (.interface JavaType.cloneableName),
    .cls ((ClassDecl.plain "A").implementing ["J"]),
    .cls ((ClassDecl.plain "B").extending "A"),
    .cls (((ClassDecl.plain "C").extending "Missing").implementing ["Gone"])]

theorem isSubtype_preorder_layered :
    ∃ p, (Builder.ofList layeredProgram).build = .ok p ∧ p.Layered ∧ p.UpwardClosed ∧
      p.isSubtype (.array (.cls "B")) (.array (.cls "A")) = true ∧
      p.isSubtype (.array (.cls "A")) (.array (.cls "I")) = true ∧
      p.isSubtype (.array (.cls "B")) (.array (.cls "I")) = true := by
  have hbuild : (Builder.ofList layeredProgram).build = .ok _ :=
    build_of_checks (by decide +kernel) (by decide +kernel)
  obtain ⟨_, htrans, hlayered⟩ := isSubtype_preorder layeredProgram hbuild
  have hclosed := hlayered (by decide +kernel)
  have hclass : (Builder.ofList layeredProgram).program.indexed.isSubtype (.array (.cls "B"))
      (.array (.cls "A")) = true := by decide +kernel
  have hinterface : (Builder.ofList layeredProgram).program.indexed.isSubtype
      (.array (.cls "A")) (.array (.cls "I")) = true := by decide +kernel
  exact ⟨_, hbuild, by decide +kernel, hclosed, hclass, hinterface,
    htrans.2 hclosed _ _ _ hclass hinterface⟩

/-- An interface below a class other than the root, with a class that implements it, and an
interface above one of those of arrays. -/
def raisedProgram : List Declaration :=
  [.cls (.plain "S"), .cls ((ClassDecl.interface "I").extending "S"),
    .cls ((ClassDecl.plain "A").implementing ["I"]), .cls (.interface "X"),
    .cls ((ClassDecl.interface JavaType.cloneableName).implementing ["X"])]

/-- What is declared above such interfaces is not above what is below them. -/
theorem isSubtype_not_trans :
    ∃ p, (Builder.ofList raisedProgram).build = .ok p ∧
      (p.isSubtype (.cls "A") (.cls "I") = true ∧ p.isSubtype (.cls "I") (.cls "S") = true ∧
        p.isSubtype (.cls "A") (.cls "S") = false) ∧
      p.isSubtype (.array (.primitive .int)) (.cls JavaType.cloneableName) = true ∧
      p.isSubtype (.cls JavaType.cloneableName) (.cls "X") = true ∧
      p.isSubtype (.array (.primitive .int)) (.cls "X") = false :=
  ⟨_, build_of_checks (by decide +kernel) (by decide +kernel), by decide +kernel,
    by decide +kernel, by decide +kernel, by decide +kernel⟩

end Program

end PointsTo
