import Mathlib.Algebra.GroupWithZero.Nat
import Mathlib.Logic.Relation
import PointsTo.Hierarchy

/-!
# What the walks over the hierarchy find

The walks stop at names that they have met before, and at a bound.  The bound is never what stops
them, whatever cycles there are and whatever classes are missing: each declared class is entered
once, and queues its interfaces once.  So the walks end, and they find all that is above a class.

Main results:

- {lit}`Program.unseen`: what a walk may still meet; theorems {lit}`Program.chainFrom_eq` and
  {lit}`Program.interfacesFrom_eq`: two bounds above that give the same walk.
- Theorem {lit}`Program.mem_superclassChain`: the superclasses are the names that are reached by
  naming superclasses.
- {lit}`Program.Implements`, and theorem {lit}`Program.mem_interfacesOf_chain`: the interfaces of
  a class are those that it, a superclass or such an interface names.
-/

namespace PointsTo

namespace Program

variable {p : Program} {seen queue : List String} {bound : Nat} {c d i : String}

/-- A class names another one as its superclass. -/
def Extends (p : Program) (c d : String) : Prop := p.superclass? c = some d

/-- A class or an interface names an interface. -/
def Names (p : Program) (c i : String) : Prop := i ∈ p.ownInterfaces c

/-- A class or one of its superclasses names an interface, directly or through other ones. -/
def Implements (p : Program) (c i : String) : Prop :=
  ∃ d j, Relation.ReflTransGen p.Extends c d ∧ p.Names d j ∧ Relation.ReflTransGen p.Names j i

/-! ## What a walk may still meet -/

/-- The weight of the classes whose names were not seen. -/
def unseen (p : Program) (weight : Class → Nat) (seen : List String) : Nat :=
  ((p.classes.toList.filter fun c => c.name ∉ seen).map weight).sum

/-- At the beginning all classes count. -/
theorem unseen_nil (p : Program) (weight : Class → Nat) :
    p.unseen weight [] = (p.classes.toList.map weight).sum := by
  unfold unseen
  rw [List.filter_eq_self.2 (by simp)]

/-- At the beginning there are as many classes to see as there are. -/
theorem unseen_one_nil (p : Program) : p.unseen (fun _ => 1) [] = p.classes.size := by
  rw [unseen_nil, List.map_const', List.sum_replicate_nat, Nat.mul_one, Array.length_toList]

/-- A stronger test leaves no more to count. -/
private theorem sum_filter_le {α : Type} {l : List α} {P Q : α → Bool} {w : α → Nat}
    (hPQ : ∀ a, Q a = true → P a = true) : ((l.filter Q).map w).sum ≤ ((l.filter P).map w).sum := by
  induction l with
  | nil => exact Nat.le_refl _
  | cons b l ih =>
      by_cases hQ : Q b = true
      · rw [List.filter_cons_of_pos hQ, List.filter_cons_of_pos (hPQ b hQ), List.map_cons,
          List.map_cons, List.sum_cons, List.sum_cons]
        exact Nat.add_le_add_left ih _
      · rw [List.filter_cons_of_neg hQ]
        by_cases hP : P b = true
        · rw [List.filter_cons_of_pos hP, List.map_cons, List.sum_cons]
          exact Nat.le_add_left_of_le ih
        · rw [List.filter_cons_of_neg hP]
          exact ih

/-- A test that a further entry fails leaves at least that much less. -/
private theorem sum_filter_add_le {α : Type} {l : List α} {P Q : α → Bool} {w : α → Nat}
    (hPQ : ∀ a, Q a = true → P a = true) {a : α} (ha : a ∈ l) (hP : P a = true)
    (hQ : ¬ Q a = true) : ((l.filter Q).map w).sum + w a ≤ ((l.filter P).map w).sum := by
  obtain ⟨front, back, rfl⟩ := List.append_of_mem ha
  have hfront := sum_filter_le (l := front) (w := w) hPQ
  have hback := sum_filter_le (l := back) (w := w) hPQ
  simp only [List.filter_append, List.filter_cons_of_pos hP, List.filter_cons_of_neg hQ,
    List.map_append, List.map_cons, List.sum_append, List.sum_cons]
  omega

/-- Seeing a class leaves no more to see. -/
theorem unseen_cons_le (p : Program) (weight : Class → Nat) (seen : List String) (name : String) :
    p.unseen weight (name :: seen) ≤ p.unseen weight seen :=
  sum_filter_le fun c => by simp

/-- When a declared class is entered, its weight no longer counts. -/
theorem unseen_cons_add_le {name : String} {c : Class} (weight : Class → Nat)
    (hc : p.class? name = some c) (hname : name ∉ seen) :
    p.unseen weight (name :: seen) + weight c ≤ p.unseen weight seen := by
  have hcname := class?_name hc
  refine sum_filter_add_le (fun c => by simp) (List.mem_of_find?_eq_some hc) ?_ ?_
  · simp [hcname, hname]
  · simp [hcname]

/-- A step to a superclass leaves a class behind. -/
theorem unseen_superclass (hsuper : p.superclass? c = some d) (hc : c ∉ seen) :
    p.unseen (fun _ => 1) (c :: seen) < p.unseen (fun _ => 1) seen := by
  obtain ⟨entry, hentry, _⟩ := Option.bind_eq_some_iff.1 hsuper
  exact unseen_cons_add_le (fun _ => 1) hentry hc

/-- An interface that is entered queues no more than no longer counts. -/
theorem unseen_ownInterfaces (hi : i ∉ seen) :
    p.unseen (fun c => c.interfaces.length) (i :: seen) + (p.ownInterfaces i).length ≤
      p.unseen (fun c => c.interfaces.length) seen := by
  unfold ownInterfaces
  split
  · rename_i entry hentry
    exact unseen_cons_add_le (fun c => c.interfaces.length) hentry hi
  · exact unseen_cons_le p _ seen i

/-! ## Superclasses -/

/-- Bounds above the number of classes that were not entered give the same walk. -/
theorem chainFrom_eq {m n : Nat} (hm : p.unseen (fun _ => 1) seen < m)
    (hn : p.unseen (fun _ => 1) seen < n) : p.chainFrom m seen c = p.chainFrom n seen c := by
  induction m generalizing n seen c with
  | zero => omega
  | succ m ih =>
      obtain ⟨n, rfl⟩ : ∃ k, n = k + 1 := ⟨n - 1, by omega⟩
      unfold chainFrom
      split
      · rfl
      · rename_i hc
        cases hsuper : p.superclass? c with
        | none => rfl
        | some d =>
            have hless := unseen_superclass hsuper hc
            exact congrArg (c :: ·) (ih (by omega) (by omega))

/-- More steps than classes change nothing for the chain of superclasses. -/
theorem superclassChain_eq {n : Nat} (hn : p.classes.size < n) (c : String) :
    p.chainFrom n [] c = p.superclassChain c :=
  chainFrom_eq (by rwa [unseen_one_nil]) (by rw [unseen_one_nil]; exact Nat.lt_succ_self _)

/-- What is on the chain is reached by superclasses. -/
theorem extends_of_mem_chainFrom (h : d ∈ p.chainFrom bound seen c) :
    Relation.ReflTransGen p.Extends c d := by
  induction bound generalizing seen c with
  | zero => cases h
  | succ bound ih =>
      unfold chainFrom at h
      split at h
      · cases h
      · rcases List.mem_cons.1 h with rfl | h
        · exact .refl
        · cases hsuper : p.superclass? c with
          | none =>
              rw [hsuper] at h
              cases h
          | some s =>
              rw [hsuper] at h
              exact .head hsuper (ih h)

/-- The walk meets the superclass of each class that it meets, unless it was seen before. -/
theorem mem_chainFrom_of_extends (hbound : p.unseen (fun _ => 1) seen < bound)
    (hd : d ∈ p.chainFrom bound seen c) {s : String} (hs : p.Extends d s) :
    s ∈ seen ∨ s ∈ p.chainFrom bound seen c := by
  induction bound generalizing seen c with
  | zero => cases hd
  | succ bound ih =>
      unfold chainFrom at hd ⊢
      split at hd
      · cases hd
      · rename_i hc
        rw [if_neg hc]
        rcases List.mem_cons.1 hd with rfl | hd
        · have hless := unseen_superclass hs hc
          obtain ⟨bound, rfl⟩ : ∃ k, bound = k + 1 := ⟨bound - 1, by omega⟩
          rw [show p.superclass? d = some s from hs]
          by_cases hsd : s = d
          · exact .inr (by simp [hsd])
          · by_cases hseen : s ∈ seen
            · exact .inl hseen
            · exact .inr (by simp [chainFrom, hsd, hseen])
        · cases hsuper : p.superclass? c with
          | none =>
              rw [hsuper] at hd
              cases hd
          | some e =>
              rw [hsuper] at hd
              have hless := unseen_superclass hsuper hc
              rcases ih (by omega) hd with hmem | hmem
              · rcases List.mem_cons.1 hmem with rfl | hmem
                · exact .inr List.mem_cons_self
                · exact .inl hmem
              · exact .inr (List.mem_cons_of_mem _ hmem)

/-- The superclasses of a class are all that are reached by naming superclasses. -/
theorem mem_superclassChain :
    d ∈ p.superclassChain c ↔ Relation.ReflTransGen p.Extends c d := by
  refine ⟨extends_of_mem_chainFrom, fun h => ?_⟩
  induction h with
  | refl => exact List.mem_of_head? (p.superclassChain_head c)
  | tail _ hstep ih =>
      refine (mem_chainFrom_of_extends ?_ ih hstep).resolve_left List.not_mem_nil
      rw [unseen_one_nil]
      exact Nat.lt_succ_self _

/-! ## Interfaces -/

/-- Bounds above what is queued and may still be queued give the same walk. -/
theorem interfacesFrom_eq {m n : Nat}
    (hm : queue.length + p.unseen (fun c => c.interfaces.length) seen < m)
    (hn : queue.length + p.unseen (fun c => c.interfaces.length) seen < n) :
    p.interfacesFrom m seen queue = p.interfacesFrom n seen queue := by
  induction m generalizing n seen queue with
  | zero => omega
  | succ m ih =>
      obtain ⟨n, rfl⟩ : ∃ k, n = k + 1 := ⟨n - 1, by omega⟩
      cases queue with
      | nil => rfl
      | cons i queue =>
          rw [List.length_cons] at hm hn
          unfold interfacesFrom
          split
          · exact ih (by omega) (by omega)
          · rename_i hi
            have hless := unseen_ownInterfaces (p := p) hi
            refine congrArg (i :: ·) (ih ?_ ?_)
            · rw [List.length_append]
              omega
            · rw [List.length_append]
              omega

/-- The bound that the walk over the interfaces of a chain takes is above all that it queues. -/
theorem bound_interfacesOf (p : Program) (queue : List String) :
    queue.length + p.unseen (fun c => c.interfaces.length) [] <
      queue.length + (p.classes.toList.flatMap Class.interfaces).length + 1 := by
  rw [unseen_nil, List.length_flatMap]
  omega

/-- More steps than named interfaces change nothing for the search. -/
theorem interfacesOf_eq {chain : List String} {n : Nat}
    (hn : (chain.flatMap p.ownInterfaces).length +
      (p.classes.toList.flatMap Class.interfaces).length < n) :
    p.interfacesFrom n [] (chain.flatMap p.ownInterfaces) = p.interfacesOf chain := by
  refine interfacesFrom_eq ?_ (p.bound_interfacesOf _)
  have hbound := p.bound_interfacesOf (chain.flatMap p.ownInterfaces)
  omega

/-- What is found is named on the way from the queue. -/
theorem names_of_mem_interfacesFrom (h : i ∈ p.interfacesFrom bound seen queue) :
    ∃ j ∈ queue, Relation.ReflTransGen p.Names j i := by
  induction bound generalizing seen queue with
  | zero => cases h
  | succ bound ih =>
      cases queue with
      | nil => cases h
      | cons k queue =>
          unfold interfacesFrom at h
          split at h
          · obtain ⟨j, hj, hreach⟩ := ih h
            exact ⟨j, List.mem_cons_of_mem _ hj, hreach⟩
          · rcases List.mem_cons.1 h with rfl | h
            · exact ⟨i, List.mem_cons_self, .refl⟩
            · obtain ⟨j, hj, hreach⟩ := ih h
              rcases List.mem_append.1 hj with hj | hj
              · exact ⟨j, List.mem_cons_of_mem _ hj, hreach⟩
              · exact ⟨k, List.mem_cons_self, .head hj hreach⟩

/-- The walk meets all that is queued and all that an interface names which it meets, unless it was
seen before. -/
theorem mem_interfacesFrom
    (hbound : queue.length + p.unseen (fun c => c.interfaces.length) seen < bound) :
    (∀ i ∈ queue, i ∈ seen ∨ i ∈ p.interfacesFrom bound seen queue) ∧
      ∀ i ∈ p.interfacesFrom bound seen queue, ∀ j, p.Names i j →
        j ∈ seen ∨ j ∈ p.interfacesFrom bound seen queue := by
  induction bound generalizing seen queue with
  | zero => omega
  | succ bound ih =>
      cases queue with
      | nil => exact ⟨fun _ h => absurd h List.not_mem_nil, fun _ h => absurd h List.not_mem_nil⟩
      | cons k queue =>
          rw [List.length_cons] at hbound
          unfold interfacesFrom
          split
          · rename_i hk
            obtain ⟨hqueued, hclosed⟩ := @ih seen queue (by omega)
            refine ⟨fun i hi => ?_, hclosed⟩
            rcases List.mem_cons.1 hi with rfl | hi
            · exact .inl hk
            · exact hqueued i hi
          · rename_i hk
            have hless := unseen_ownInterfaces (p := p) hk
            obtain ⟨hqueued, hclosed⟩ := @ih (k :: seen) (queue ++ p.ownInterfaces k)
              (by rw [List.length_append]; omega)
            -- what was seen by the rest of the walk is the interface itself, or was seen before
            have hlift : ∀ {j},
                j ∈ k :: seen ∨ j ∈ p.interfacesFrom bound (k :: seen)
                  (queue ++ p.ownInterfaces k) →
                j ∈ seen ∨ j ∈ k :: p.interfacesFrom bound (k :: seen)
                  (queue ++ p.ownInterfaces k) := by
              rintro j (hj | hj)
              · rcases List.mem_cons.1 hj with rfl | hj
                · exact .inr List.mem_cons_self
                · exact .inl hj
              · exact .inr (List.mem_cons_of_mem _ hj)
            refine ⟨fun i hi => ?_, fun i hi j hj => ?_⟩
            · rcases List.mem_cons.1 hi with rfl | hi
              · exact .inr List.mem_cons_self
              · exact hlift (hqueued i (List.mem_append_left _ hi))
            · rcases List.mem_cons.1 hi with rfl | hi
              · exact hlift (hqueued j (List.mem_append_right _ hj))
              · exact hlift (hclosed i hi j hj)

/-- The interfaces of a chain of classes are those that one of the classes names, and those that
are reached from there by naming interfaces. -/
theorem mem_interfacesOf {chain : List String} : i ∈ p.interfacesOf chain ↔
    ∃ c ∈ chain, ∃ j, p.Names c j ∧ Relation.ReflTransGen p.Names j i := by
  constructor
  · intro h
    obtain ⟨j, hj, hreach⟩ := names_of_mem_interfacesFrom h
    obtain ⟨c, hc, hj⟩ := List.mem_flatMap.1 hj
    exact ⟨c, hc, j, hj, hreach⟩
  · rintro ⟨c, hc, j, hj, hreach⟩
    obtain ⟨hqueued, hclosed⟩ := mem_interfacesFrom (p.bound_interfacesOf
      (chain.flatMap p.ownInterfaces))
    induction hreach with
    | refl =>
        exact (hqueued j (List.mem_flatMap.2 ⟨c, hc, hj⟩)).resolve_left List.not_mem_nil
    | tail _ hstep ih => exact (hclosed _ ih _ hstep).resolve_left List.not_mem_nil

/-- The interfaces that dispatch looks at are those that the class implements. -/
theorem mem_interfacesOf_chain : i ∈ p.interfacesOf (p.superclassChain c) ↔ p.Implements c i := by
  rw [mem_interfacesOf]
  constructor
  · rintro ⟨d, hd, j, hj, hreach⟩
    exact ⟨d, j, mem_superclassChain.1 hd, hj, hreach⟩
  · rintro ⟨d, j, hd, hj, hreach⟩
    exact ⟨d, mem_superclassChain.2 hd, j, hj, hreach⟩

end Program

end PointsTo
