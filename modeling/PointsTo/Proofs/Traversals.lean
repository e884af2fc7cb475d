import Mathlib.Data.List.Chain
import PointsTo.Proofs.Walks

/-!
# The walks as loops

Each walk over the hierarchy is a loop that keeps the names it has met: one climbs from class to
superclass, the other takes interfaces from the front of a queue.  Here the loops are given by
their steps alone, with no bound, so that a derivation is a run that ends.  The walks are such
runs, on whatever declarations: superclasses and interfaces may form cycles, and names may be
undeclared.

Main results:

- {lit}`Program.Climbs`, {lit}`Program.Searches`: the loops; theorems
  {lit}`Program.climbs_superclassChain` and {lit}`Program.searches_interfacesOf`: they end, with
  the walks as their results.
- {lit}`Program.SuperclassPath`, and theorem {lit}`Program.superclassChain_eq_iff`: the one path
  that the superclasses of a class form.
- Theorem {lit}`Program.walks_exact`: what the walks find, and which classes are below which.
-/

namespace PointsTo

namespace Program

variable {p : Program} {seen queue path found : List String} {bound : Nat} {a b c d i : String}

/-! ## The loops -/

/-- The loop over superclasses: the names met before, the class to enter next if there is one, and
the classes that are entered from there on. -/
inductive Climbs (p : Program) : List String → Option String → List String → Prop
  | top {seen : List String} : Climbs p seen none []
  | again {seen : List String} {c : String} (h : c ∈ seen) : Climbs p seen (some c) []
  | up {seen path : List String} {c : String} (h : c ∉ seen)
      (rest : Climbs p (c :: seen) (p.superclass? c) path) : Climbs p seen (some c) (c :: path)

/-- The loop over interfaces: the names met before, the queue, and the interfaces that are entered
from there on. -/
inductive Searches (p : Program) : List String → List String → List String → Prop
  | done {seen : List String} : Searches p seen [] []
  | skip {seen queue found : List String} {i : String} (h : i ∈ seen)
      (rest : Searches p seen queue found) : Searches p seen (i :: queue) found
  | enter {seen queue found : List String} {i : String} (h : i ∉ seen)
      (rest : Searches p (i :: seen) (queue ++ p.ownInterfaces i) found) :
      Searches p seen (i :: queue) (i :: found)

/-- Under a bound above the number of classes that were not entered, the climb ends. -/
theorem climbs_chainFrom (hbound : p.unseen (fun _ => 1) seen < bound) :
    p.Climbs seen (some c) (p.chainFrom bound seen c) := by
  induction bound generalizing seen c with
  | zero => omega
  | succ bound ih =>
      unfold chainFrom
      split
      · rename_i hc
        exact .again hc
      · rename_i hc
        refine .up hc ?_
        cases hsuper : p.superclass? c with
        | none => exact .top
        | some d =>
            have hless := unseen_superclass hsuper hc
            exact ih (by omega)

/-- The chain of superclasses climbs from the class. -/
theorem climbs_superclassChain (p : Program) (c : String) :
    p.Climbs [] (some c) (p.superclassChain c) := by
  apply climbs_chainFrom
  rw [unseen_one_nil]
  exact Nat.lt_succ_self _

/-- Under a bound above what is queued and may still be queued, the search ends. -/
theorem searches_interfacesFrom
    (hbound : queue.length + p.unseen (fun c => c.interfaces.length) seen < bound) :
    p.Searches seen queue (p.interfacesFrom bound seen queue) := by
  induction bound generalizing seen queue with
  | zero => omega
  | succ bound ih =>
      cases queue with
      | nil => exact .done
      | cons i queue =>
          rw [List.length_cons] at hbound
          unfold interfacesFrom
          split
          · rename_i hi
            exact .skip hi (ih (by omega))
          · rename_i hi
            have hless := unseen_ownInterfaces (p := p) hi
            refine .enter hi (ih ?_)
            rw [List.length_append]
            omega

/-- The search goes through the interfaces that the chain declares. -/
theorem searches_interfacesOf (p : Program) (chain : List String) :
    p.Searches [] (chain.flatMap p.ownInterfaces) (p.interfacesOf chain) :=
  searches_interfacesFrom (p.bound_interfacesOf _)

/-! ## The path of superclasses -/

/-- The path from a class along its superclasses: up to the first class for which none is declared,
or up to the class whose superclass is on the path already. -/
structure SuperclassPath (p : Program) (c : String) (path : List String) : Prop where
  head : path.head? = some c
  steps : path.IsChain p.Extends
  nodup : path.Nodup
  ends : ∀ d ∈ path.getLast?, ∀ s, p.Extends d s → s ∈ path

namespace Climbs

variable {next : Option String}

/-- There is one climb. -/
theorem unique {path' : List String} (h : p.Climbs seen next path)
    (h' : p.Climbs seen next path') : path = path' := by
  induction h generalizing path' with
  | top =>
      cases h'
      rfl
  | again hc =>
      cases h' with
      | again => rfl
      | up hc' => exact absurd hc hc'
  | up hc _ ih =>
      cases h' with
      | again hc' => exact absurd hc' hc
      | up _ rest' => exact congrArg _ (ih rest')

/-- A climb that meets a class begins with the class that came next. -/
theorem next_eq (h : p.Climbs seen next path) (hd : d ∈ path.head?) : next = some d := by
  cases h with
  | top | again => cases hd
  | up => exact hd

/-- Each class of a climb extends the one before it. -/
theorem isChain (h : p.Climbs seen next path) : path.IsChain p.Extends := by
  induction h with
  | top | again => exact .nil
  | up _ rest ih => exact List.isChain_cons.2 ⟨fun _ hd => rest.next_eq hd, ih⟩

end Climbs

/-- A path that avoids what was seen is climbed, where its last class has no superclass but one
that is on it or was seen. -/
theorem climbs_of_isChain (hsteps : (c :: path).IsChain p.Extends) (hnodup : (c :: path).Nodup)
    (hseen : ∀ d ∈ c :: path, d ∉ seen)
    (hends : ∀ d ∈ (c :: path).getLast?, ∀ s, p.Extends d s → s ∈ seen ∨ s ∈ c :: path) :
    p.Climbs seen (some c) (c :: path) := by
  induction path generalizing c seen with
  | nil =>
      refine .up (hseen c List.mem_cons_self) ?_
      cases hsuper : p.superclass? c with
      | none => exact .top
      | some s =>
          refine .again ?_
          rcases hends c rfl s hsuper with hs | hs
          · exact List.mem_cons_of_mem _ hs
          · exact List.mem_cons.2 (.inl (List.mem_singleton.1 hs))
  | cons d path ih =>
      obtain ⟨hstep, hsteps⟩ := List.isChain_cons_cons.1 hsteps
      obtain ⟨hc, hnodup⟩ := List.nodup_cons.1 hnodup
      refine .up (hseen c List.mem_cons_self) ?_
      rw [show p.superclass? c = some d from hstep]
      refine ih hsteps hnodup (fun e he hmem => ?_) fun e he s hs => ?_
      · rcases List.mem_cons.1 hmem with rfl | hmem
        · exact hc he
        · exact hseen e (List.mem_cons_of_mem _ he) hmem
      · rw [← List.getLast?_cons_cons (a := c)] at he
        rcases hends e he s hs with hs | hs
        · exact .inl (List.mem_cons_of_mem _ hs)
        · rcases List.mem_cons.1 hs with rfl | hs
          · exact .inl List.mem_cons_self
          · exact .inr hs

/-- The chain of superclasses is the path of superclasses. -/
theorem superclassPath_superclassChain (p : Program) (c : String) :
    p.SuperclassPath c (p.superclassChain c) where
  head := p.superclassChain_head c
  steps := (p.climbs_superclassChain c).isChain
  nodup := p.superclassChain_nodup c
  ends := fun _ hd _ hs =>
    mem_superclassChain.2 ((mem_superclassChain.1 (List.mem_of_getLast? hd)).tail hs)

/-- The superclasses of a class form the one path from it. -/
theorem superclassChain_eq_iff : p.superclassChain c = path ↔ p.SuperclassPath c path := by
  constructor
  · rintro rfl
    exact p.superclassPath_superclassChain c
  · rintro ⟨hhead, hsteps, hnodup, hends⟩
    obtain ⟨rest, rfl⟩ : ∃ rest, path = c :: rest := List.head?_eq_some_iff.1 hhead
    have hclimb : p.Climbs [] (some c) (c :: rest) :=
      climbs_of_isChain hsteps hnodup (fun _ _ => List.not_mem_nil) fun d hd s hs =>
        .inr (hends d hd s hs)
    exact (p.climbs_superclassChain c).unique hclimb

/-! ## The interfaces -/

/-- A search enters no interface twice, and none that was met before. -/
theorem Searches.nodup (h : p.Searches seen queue found) :
    found.Nodup ∧ ∀ i ∈ found, i ∉ seen := by
  induction h with
  | done => exact ⟨.nil, fun _ hi => absurd hi List.not_mem_nil⟩
  | skip _ _ ih => exact ih
  | enter hi _ ih =>
      obtain ⟨hnodup, hnew⟩ := ih
      refine ⟨List.nodup_cons.2 ⟨fun hmem => hnew _ hmem List.mem_cons_self, hnodup⟩, ?_⟩
      intro j hj
      rcases List.mem_cons.1 hj with rfl | hj
      · exact hi
      · exact fun hseen => hnew j hj (List.mem_cons_of_mem _ hseen)

/-- No interface is searched twice. -/
theorem interfacesOf_nodup (p : Program) (chain : List String) : (p.interfacesOf chain).Nodup :=
  (p.searches_interfacesOf chain).nodup.1

/-- What is searched is what the chain names, or what that names in turn. -/
theorem mem_interfacesOf_iff_transGen {chain : List String} :
    i ∈ p.interfacesOf chain ↔ ∃ c ∈ chain, Relation.TransGen p.Names c i := by
  simp only [mem_interfacesOf, Relation.TransGen.head'_iff]

/-! ## What the walks find -/

/-- A class is below itself, the root, its superclasses and their interfaces. -/
theorem isSubtype_cls_iff : p.isSubtype (.cls a) (.cls b) = true ↔
    b = a ∨ b = JavaType.objectName ∨ b ∈ p.superclassChain a ∨
      ∃ c ∈ p.superclassChain a, Relation.TransGen p.Names c b := by
  simp only [isSubtype, isSubclass, Bool.or_eq_true, beq_iff_eq, List.contains_iff_mem,
    mem_interfacesOf_iff_transGen, or_assoc, eq_comm (a := a)]

/-- Both loops end on every hierarchy, with the walks as their results.  The superclasses of a class
form the one path from it, no name occurs twice in a walk, and the interfaces of a chain are what
one or more steps from interface to interface lead to.  Hence which classes are below which. -/
theorem walks_exact (p : Program) :
    (∀ c, p.Climbs [] (some c) (p.superclassChain c)) ∧
    (∀ chain, p.Searches [] (chain.flatMap p.ownInterfaces) (p.interfacesOf chain)) ∧
    (∀ c path, p.superclassChain c = path ↔ p.SuperclassPath c path) ∧
    (∀ chain, (p.interfacesOf chain).Nodup ∧
      ∀ i, i ∈ p.interfacesOf chain ↔ ∃ c ∈ chain, Relation.TransGen p.Names c i) ∧
    (∀ a b, p.isSubtype (.cls a) (.cls b) = true ↔
      b = a ∨ b = JavaType.objectName ∨ b ∈ p.superclassChain a ∨
        ∃ c ∈ p.superclassChain a, Relation.TransGen p.Names c b) :=
  ⟨p.climbs_superclassChain, p.searches_interfacesOf, fun _ _ => superclassChain_eq_iff,
    fun chain => ⟨p.interfacesOf_nodup chain, fun _ => mem_interfacesOf_iff_transGen⟩,
    fun _ _ => isSubtype_cls_iff⟩

end Program

end PointsTo
