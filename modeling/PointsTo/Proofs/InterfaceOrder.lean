import Mathlib.Data.Nat.Find
import PointsTo.Proofs.Dispatch
import PointsTo.Proofs.Traversals

/-!
# The order in which interfaces are searched

Where no class has an instance method with the key, dispatch takes the first method with a body
that it meets among the interfaces.  They are listed breadth first: those to which fewer steps lead
come first, whatever cycles there are.  An interface is therefore searched before all those that
are reached only through it, but it may be searched after an interface that it overrides, if that
one is named nearer to the class, or before it.

Main results:

- {lit}`Program.Steps`, {lit}`Program.Nearer`: how far an interface is from a chain of classes;
  theorem {lit}`Program.pairwise_interfacesOf`: no interface is listed after a farther one.
- {lit}`Program.Guards`, and theorem {lit}`Program.nearer_of_guards`: an interface through which
  every way to another one leads is nearer.
- {lit}`Program.SearchedBefore`, and theorem {lit}`Program.dispatch?_default_first`: what is known
  of the interfaces before the one in which a default method was found.
-/

namespace PointsTo

namespace Program

variable {p : Program} {chain seen queue found : List String} {marks : List (Nat × String)}
  {n m : Nat} {c i j k key : String}

/-! ## Distances -/

/-- A number of steps leads from a class of a chain to an interface. -/
inductive Steps (p : Program) (chain : List String) : Nat → String → Prop
  | named {c i : String} (hc : c ∈ chain) (hi : p.Names c i) : Steps p chain 1 i
  | next {n : Nat} {i j : String} (hi : Steps p chain n i) (hj : p.Names i j) :
      Steps p chain (n + 1) j

/-- Fewer steps lead to one interface than to another. -/
def Nearer (p : Program) (chain : List String) (j i : String) : Prop :=
  ∃ n, p.Steps chain n j ∧ ∀ m ≤ n, ¬ p.Steps chain m i

/-- Every way from a chain to an interface leads through another one. -/
def Guards (p : Program) (chain : List String) (j i : String) : Prop :=
  j ≠ i ∧ ∀ c ∈ chain, ∀ k, p.Names c k →
    ¬ Relation.ReflTransGen (fun a b => a ≠ j ∧ p.Names a b) k i

/-- The interfaces of a chain are those to which some number of steps leads. -/
theorem mem_interfacesOf_iff_steps : i ∈ p.interfacesOf chain ↔ ∃ n, p.Steps chain n i := by
  rw [mem_interfacesOf_iff_transGen]
  constructor
  · rintro ⟨c, hc, hreach⟩
    induction hreach with
    | single hi => exact ⟨1, .named hc hi⟩
    | tail _ hstep ih =>
        obtain ⟨n, hn⟩ := ih
        exact ⟨n + 1, .next hn hstep⟩
  · rintro ⟨n, hn⟩
    induction hn with
    | named hc hi => exact ⟨_, hc, .single hi⟩
    | next _ hstep ih =>
        obtain ⟨c, hc, hreach⟩ := ih
        exact ⟨c, hc, hreach.tail hstep⟩

/-- A way to an interface meets another one earlier, or goes around it. -/
theorem Steps.meets_or_avoids (h : p.Steps chain n i) (j : String) :
    (∃ m < n, p.Steps chain m j) ∨ ∃ c ∈ chain, ∃ k, p.Names c k ∧
      Relation.ReflTransGen (fun a b => a ≠ j ∧ p.Names a b) k i := by
  induction h with
  | named hc hi => exact .inr ⟨_, hc, _, hi, .refl⟩
  | @next n i i' hi hstep ih =>
      rcases ih with ⟨m, hm, hj⟩ | ⟨c, hc, k, hk, haround⟩
      · exact .inl ⟨m, Nat.lt_succ_of_lt hm, hj⟩
      · by_cases hij : i = j
        · subst hij
          exact .inl ⟨n, Nat.lt_succ_self n, hi⟩
        · exact .inr ⟨c, hc, k, hk, haround.tail ⟨hij, hstep⟩⟩

/-- An interface through which every way to another one leads is nearer. -/
theorem nearer_of_guards (hi : p.Steps chain n i) (h : p.Guards chain j i) :
    p.Nearer chain j i := by
  classical
  have hreached : ∃ n, p.Steps chain n i := ⟨n, hi⟩
  rcases (Nat.find_spec hreached).meets_or_avoids j with ⟨m, hm, hj⟩ | ⟨c, hc, k, hk, haround⟩
  · exact ⟨m, hj, fun l hl => Nat.find_min hreached (Nat.lt_of_le_of_lt hl hm)⟩
  · exact absurd haround (h.2 c hc k hk)

/-! ## The queue -/

/-- Interfaces under one mark. -/
def marked (n : Nat) (is : List String) : List (Nat × String) := is.map (n, ·)

/-- What is marked are the given interfaces, under the given mark. -/
theorem mem_marked {is : List String} {x : Nat × String} :
    x ∈ marked n is ↔ x.1 = n ∧ x.2 ∈ is := by
  obtain ⟨m, i⟩ := x
  simp only [marked, List.mem_map, Prod.mk.injEq]
  constructor
  · rintro ⟨_, hi, rfl, rfl⟩
    exact ⟨rfl, hi⟩
  · rintro ⟨rfl, hi⟩
    exact ⟨i, hi, rfl, rfl⟩

/-- Marks do not change what is in the list. -/
theorem map_snd_marked (n : Nat) (is : List String) : (marked n is).map Prod.snd = is := by
  unfold marked
  rw [List.map_map]
  exact List.map_id is

/-- Under one mark every order is ascending. -/
theorem pairwise_marked (n : Nat) (is : List String) :
    (marked n is).Pairwise fun x y => x.1 ≤ y.1 :=
  List.pairwise_map.2 (List.pairwise_of_forall fun _ _ => Nat.le_refl n)

/-- The queue of a search, each entry marked with a number of steps that leads to it.  The marks
do not fall along the queue, and differ by one at most.  What was not met yet and is named by a
class, or by an interface that was met, is in the queue under a mark that is low enough. -/
structure Frontier (p : Program) (chain seen : List String) (marks : List (Nat × String)) :
    Prop where
  steps : ∀ x ∈ marks, p.Steps chain x.1 x.2
  sorted : marks.Pairwise fun x y => x.1 ≤ y.1
  span : ∀ x ∈ marks, ∀ y ∈ marks, y.1 ≤ x.1 + 1
  named : ∀ c ∈ chain, ∀ i, p.Names c i → i ∈ seen ∨ (1, i) ∈ marks
  followed : ∀ n i j, i ∈ seen → p.Steps chain n i → p.Names i j →
    j ∈ seen ∨ ∃ m ≤ n + 1, (m, j) ∈ marks

namespace Frontier

/-- At the beginning the queue has the interfaces that the chain declares. -/
theorem initial (p : Program) (chain : List String) :
    p.Frontier chain [] (marked 1 (chain.flatMap p.ownInterfaces)) where
  steps x hx := by
    obtain ⟨hmark, hmem⟩ := mem_marked.1 hx
    obtain ⟨c, hc, hi⟩ := List.mem_flatMap.1 hmem
    rw [hmark]
    exact .named hc hi
  sorted := pairwise_marked _ _
  span x hx y hy := by
    rw [(mem_marked.1 hx).1, (mem_marked.1 hy).1]
    exact Nat.le_succ 1
  named c hc i hi := .inr (mem_marked.2 ⟨rfl, List.mem_flatMap.2 ⟨c, hc, hi⟩⟩)
  followed _ _ _ hi := absurd hi List.not_mem_nil

/-- Where a way leads to an interface that was not met, some entry of the queue is no farther. -/
theorem waiting (h : p.Frontier chain seen marks) (hi : p.Steps chain n i) (hnew : i ∉ seen) :
    ∃ x ∈ marks, x.1 ≤ n := by
  induction hi with
  | named hc hi => exact ⟨_, (h.named _ hc _ hi).resolve_left hnew, Nat.le_refl 1⟩
  | @next n i j hi hstep ih =>
      by_cases hseen : i ∈ seen
      · obtain ⟨m, hm, hmem⟩ := (h.followed n i j hseen hi hstep).resolve_left hnew
        exact ⟨(m, j), hmem, hm⟩
      · obtain ⟨x, hx, hle⟩ := ih hseen
        exact ⟨x, hx, Nat.le_succ_of_le hle⟩

/-- What was not met is no nearer than the front of the queue. -/
theorem le_of_steps (h : p.Frontier chain seen ((n, i) :: marks)) (hj : p.Steps chain m j)
    (hnew : j ∉ seen) : n ≤ m := by
  obtain ⟨x, hx, hle⟩ := h.waiting hj hnew
  rcases List.mem_cons.1 hx with rfl | hx
  · exact hle
  · exact Nat.le_trans ((List.pairwise_cons.1 h.sorted).1 x hx) hle

/-- An entry that was met before is dropped. -/
theorem skip (h : p.Frontier chain seen ((n, i) :: marks)) (hi : i ∈ seen) :
    p.Frontier chain seen marks where
  steps x hx := h.steps x (List.mem_cons_of_mem _ hx)
  sorted := (List.pairwise_cons.1 h.sorted).2
  span x hx y hy := h.span x (List.mem_cons_of_mem _ hx) y (List.mem_cons_of_mem _ hy)
  named c hc j hj := by
    rcases h.named c hc j hj with hseen | hmem
    · exact .inl hseen
    · rcases List.mem_cons.1 hmem with heq | hmem
      · cases heq
        exact .inl hi
      · exact .inr hmem
  followed l k j hk hl hj := by
    rcases h.followed l k j hk hl hj with hseen | ⟨m, hm, hmem⟩
    · exact .inl hseen
    · rcases List.mem_cons.1 hmem with heq | hmem
      · cases heq
        exact .inl hi
      · exact .inr ⟨m, hm, hmem⟩

/-- An entry that was not met is entered: what it names joins the queue under the next mark. -/
theorem enter (h : p.Frontier chain seen ((n, i) :: marks)) (hi : i ∉ seen) :
    p.Frontier chain (i :: seen) (marks ++ marked (n + 1) (p.ownInterfaces i)) where
  steps x hx := by
    rcases List.mem_append.1 hx with hx | hx
    · exact h.steps x (List.mem_cons_of_mem _ hx)
    · obtain ⟨hmark, hmem⟩ := mem_marked.1 hx
      rw [hmark]
      exact .next (h.steps (n, i) List.mem_cons_self) hmem
  sorted := by
    refine List.pairwise_append.2
      ⟨(List.pairwise_cons.1 h.sorted).2, pairwise_marked _ _, fun x hx y hy => ?_⟩
    rw [(mem_marked.1 hy).1]
    exact h.span (n, i) List.mem_cons_self x (List.mem_cons_of_mem _ hx)
  span x hx y hy := by
    -- the marks that stay and the new mark all lie between that of the front and the next
    have hrange : ∀ z ∈ marks ++ marked (n + 1) (p.ownInterfaces i), n ≤ z.1 ∧ z.1 ≤ n + 1 := by
      intro z hz
      rcases List.mem_append.1 hz with hz | hz
      · exact ⟨(List.pairwise_cons.1 h.sorted).1 z hz,
          h.span (n, i) List.mem_cons_self z (List.mem_cons_of_mem _ hz)⟩
      · have hmark := (mem_marked.1 hz).1
        omega
    have hx := hrange x hx
    have hy := hrange y hy
    omega
  named c hc j hj := by
    rcases h.named c hc j hj with hseen | hmem
    · exact .inl (List.mem_cons_of_mem _ hseen)
    · rcases List.mem_cons.1 hmem with heq | hmem
      · cases heq
        exact .inl List.mem_cons_self
      · exact .inr (List.mem_append_left _ hmem)
  followed l k j hk hl hj := by
    rcases List.mem_cons.1 hk with rfl | hk
    · have hle := h.le_of_steps hl hi
      exact .inr ⟨n + 1, by omega, List.mem_append_right _ (mem_marked.2 ⟨rfl, hj⟩)⟩
    · rcases h.followed l k j hk hl hj with hseen | ⟨m, hm, hmem⟩
      · exact .inl (List.mem_cons_of_mem _ hseen)
      · rcases List.mem_cons.1 hmem with heq | hmem
        · cases heq
          exact .inl List.mem_cons_self
        · exact .inr ⟨m, hm, List.mem_append_left _ hmem⟩

end Frontier

/-! ## The order -/

/-- A search enters no interface after a farther one. -/
theorem Searches.pairwise (h : p.Searches seen (marks.map Prod.snd) found)
    (hfrontier : p.Frontier chain seen marks) :
    found.Pairwise fun i j => ¬ p.Nearer chain j i := by
  generalize hqueue : marks.map Prod.snd = queue at h
  induction h generalizing marks with
  | done => exact .nil
  | skip hi _ ih =>
      obtain ⟨⟨n, i⟩, marks, rfl, rfl, rfl⟩ := List.map_eq_cons_iff.1 hqueue
      exact ih (hfrontier.skip hi) rfl
  | enter hi rest ih =>
      obtain ⟨⟨n, i⟩, marks, rfl, rfl, rfl⟩ := List.map_eq_cons_iff.1 hqueue
      refine List.pairwise_cons.2 ⟨?_, ih (hfrontier.enter hi)
        (by rw [List.map_append, map_snd_marked])⟩
      rintro j hj ⟨m, hm, hnot⟩
      have hnew : j ∉ _ := fun hseen => rest.nodup.2 j hj (List.mem_cons_of_mem _ hseen)
      have hle : n ≤ m := hfrontier.le_of_steps hm hnew
      exact hnot n hle (hfrontier.steps (n, i) List.mem_cons_self)

/-- No interface of a chain is listed after a farther one. -/
theorem pairwise_interfacesOf (p : Program) (chain : List String) :
    (p.interfacesOf chain).Pairwise fun i j => ¬ p.Nearer chain j i := by
  refine Searches.pairwise ?_ (Frontier.initial p chain)
  rw [map_snd_marked]
  exact p.searches_interfacesOf chain

/-- One interface is searched before another when dispatch begins at a class. -/
def SearchedBefore (p : Program) (c j i : String) : Prop :=
  ∃ before after, p.interfacesOf (p.superclassChain c) = before ++ i :: after ∧ j ∈ before

/-- An interface is listed once, so that there is one list of those before it. -/
theorem SearchedBefore.mem_of_split {before after : List String} (h : p.SearchedBefore c j i)
    (hsplit : p.interfacesOf (p.superclassChain c) = before ++ i :: after) : j ∈ before := by
  obtain ⟨before', after', hsplit', hj⟩ := h
  have hnodup := p.interfacesOf_nodup (p.superclassChain c)
  rw [hsplit] at hnodup hsplit'
  obtain ⟨_, hafter, hdisjoint⟩ := List.nodup_append.1 hnodup
  obtain ⟨rfl, _⟩ := (List.append_cons_inj_of_notMem
    (fun hi => hdisjoint i hi i List.mem_cons_self rfl) (List.nodup_cons.1 hafter).1).1 hsplit'
  exact hj

/-- An interface that is nearer to the chain is searched before. -/
theorem searchedBefore_of_nearer (hi : i ∈ p.interfacesOf (p.superclassChain c))
    (h : p.Nearer (p.superclassChain c) j i) : p.SearchedBefore c j i := by
  obtain ⟨before, after, hsplit⟩ := List.append_of_mem hi
  refine ⟨before, after, hsplit, ?_⟩
  have horder := p.pairwise_interfacesOf (p.superclassChain c)
  obtain ⟨n, hn, hnot⟩ := id h
  have hj := mem_interfacesOf_iff_steps.2 ⟨n, hn⟩
  rw [hsplit] at hj horder
  rcases List.mem_append.1 hj with hj | hj
  · exact hj
  · rcases List.mem_cons.1 hj with rfl | hj
    · exact absurd hn (hnot n (Nat.le_refl n))
    · exact absurd h ((List.pairwise_cons.1 (List.pairwise_append.1 horder).2.1).1 j hj)

/-! ## Default methods -/

variable {r : MethodRef} {type : JavaType} {method : MethodId}

/-- A method that is found where no class has an instance method is the first with a body that the
interfaces, in their order, have as their first with the key. -/
theorem first_of_dispatch? (hfound : p.dispatch? type r = some method)
    (hc : dispatchClass? type = some c) (hnone : ∀ n, ¬ p.Nearest r.dispatchKey c n) :
    ∃ before i after, p.interfacesOf (p.superclassChain c) = before ++ i :: after ∧
      p.declared? i r.dispatchKey = some method ∧
      ∀ j ∈ before, ∀ n, p.declared? j r.dispatchKey = some n → (p.method n).isAbstract = true := by
  unfold dispatch? at hfound
  rw [hc] at hfound
  dsimp only at hfound
  rw [nearestInstance?_eq_none.2 hnone, List.find?_filterMap] at hfound
  obtain ⟨i, hi, hdecl⟩ := Option.bind_eq_some_iff.1 hfound
  obtain ⟨_, before, after, hsplit, hbefore⟩ := List.find?_eq_some_iff_append.1 hi
  refine ⟨before, i, after, hsplit, hdecl, fun j hj n hn => ?_⟩
  simpa [hn] using hbefore j hj

/-- A default method that is found where no class has an instance method is the first with its key
in its interface, and every interface that is searched before has an abstract one as its first with
the key, or none.  The search goes by distance, so that it meets earlier whatever is nearer, and
whatever guards the interface. -/
theorem dispatch?_default_first (ds : List Declaration)
    (hbuild : (Builder.ofList ds).build = .ok p) (hfound : p.dispatch? type r = some method)
    (hc : dispatchClass? type = some c) (hnone : ∀ n, ¬ p.Nearest r.dispatchKey c n)
    (hi : (p.method method).className = i) :
    p.Implements c i ∧ p.declared? i r.dispatchKey = some method ∧
    (∀ j n, p.SearchedBefore c j i → p.declared? j r.dispatchKey = some n →
      (p.method n).isAbstract = true) ∧
    (∀ j, p.Nearer (p.superclassChain c) j i → p.SearchedBefore c j i) ∧
    ∀ j, p.Guards (p.superclassChain c) j i → p.SearchedBefore c j i := by
  obtain ⟨before, d, after, hsplit, hdecl, hbefore⟩ := first_of_dispatch? hfound hc hnone
  have hlisted := listed_of_build (Builder.listed_ofList ds) hbuild
  obtain rfl : i = d := hi.symm.trans (hlisted.className_of_declared? hdecl)
  have hmem : i ∈ p.interfacesOf (p.superclassChain c) := by
    rw [hsplit]
    exact List.mem_append_right _ List.mem_cons_self
  refine ⟨mem_interfacesOf_chain.1 hmem, hdecl,
    fun j n hj hn => hbefore j (hj.mem_of_split hsplit) n hn,
    fun j hj => searchedBefore_of_nearer hmem hj, fun j hj => ?_⟩
  obtain ⟨n, hn⟩ := mem_interfacesOf_iff_steps.1 hmem
  exact searchedBefore_of_nearer hmem (nearer_of_guards hn hj)

/-- An interface with a default method, two interfaces below it that override the method, of which
the second declares an abstract method of the same key first, and one with an abstract method. -/
def overridingProgram : List Declaration :=
  [.cls (.interface "I"), .cls ((ClassDecl.interface "J").implementing ["I"]),
    .cls (.interface "K"), .cls ((ClassDecl.interface "L").implementing ["I"]),
    .method ⟨"I", "m", [], .void, false, false, true⟩,
    .method ⟨"J", "m", [], .void, false, false, true⟩,
    .method ⟨"K", "m", [], .void, false, true, true⟩,
    .method ⟨"L", "m", [], .primitive .int, false, true, true⟩,
    .method ⟨"L", "m", [], .void, false, false, true⟩,
    .cls ((ClassDecl.plain "A").implementing ["I", "J"]),
    .cls ((ClassDecl.plain "B").implementing ["K", "J"]),
    .cls ((ClassDecl.plain "C").implementing ["L"])]

/-- Where the overriding interface guards the other one, its method is found; what is searched
before it has an abstract method. -/
theorem dispatch?_default_first_overriding :
    ∃ p, (Builder.ofList overridingProgram).build = .ok p ∧
      p.dispatch? (.cls "B") ⟨"B", "m", [], .void⟩ = some ⟨1⟩ ∧
      p.SearchedBefore "B" "K" "J" ∧ p.declared? "K" "m()" = some ⟨2⟩ ∧
      (p.method ⟨2⟩).isAbstract = true := by
  have hbuild : (Builder.ofList overridingProgram).build = .ok _ :=
    build_of_checks (by decide +kernel) (by decide +kernel)
  have hfound : (Builder.ofList overridingProgram).program.indexed.dispatch? (.cls "B")
      ⟨"B", "m", [], .void⟩ = some ⟨1⟩ := by decide +kernel
  have hnone : ∀ n, ¬ (Builder.ofList overridingProgram).program.indexed.Nearest "m()" "B" n :=
    nearestInstance?_eq_none.1 (by decide +kernel)
  have hbefore : (Builder.ofList overridingProgram).program.indexed.SearchedBefore "B" "K" "J" :=
    ⟨["K"], ["I"], by decide +kernel, by decide⟩
  have habstract : (Builder.ofList overridingProgram).program.indexed.declared? "K" "m()" =
      some ⟨2⟩ := by decide +kernel
  obtain ⟨_, _, hfirst, _⟩ := dispatch?_default_first overridingProgram hbuild hfound rfl hnone
    (show _ = "J" by decide +kernel)
  exact ⟨_, hbuild, hfound, hbefore, habstract, hfirst "K" ⟨2⟩ hbefore habstract⟩

/-- Where a class names both, or the first method with the key is abstract, the method that is
overridden is found. -/
theorem dispatch?_overridden :
    ∃ p, (Builder.ofList overridingProgram).build = .ok p ∧
      (p.dispatch? (.cls "A") ⟨"A", "m", [], .void⟩ = some ⟨0⟩ ∧
        (∀ d ∈ p.superclassChain "A", p.declared? d "m()" = none) ∧ p.Implements "A" "J" ∧
        p.declared? "J" "m()" = some ⟨1⟩ ∧ (p.method ⟨1⟩).isAbstract = false ∧
        (p.method ⟨1⟩).isStatic = false) ∧
      (p.dispatch? (.cls "C") ⟨"C", "m", [], .void⟩ = some ⟨0⟩ ∧
        (∀ d ∈ p.superclassChain "C", p.declared? d "m()" = none) ∧ p.Implements "C" "L" ∧
        (p.method ⟨4⟩).className = "L" ∧ (p.method ⟨4⟩).dispatchKey = "m()" ∧
        (p.method ⟨4⟩).isAbstract = false ∧ (p.method ⟨4⟩).isStatic = false) ∧
      (p.method ⟨0⟩).className = "I" ∧ p.Names "J" "I" ∧ p.Names "L" "I" ∧
      ∀ i, ¬ Relation.TransGen p.Names "I" i := by
  have hbuild : (Builder.ofList overridingProgram).build = .ok _ :=
    build_of_checks (by decide +kernel) (by decide +kernel)
  have hleaf : (Builder.ofList overridingProgram).program.indexed.ownInterfaces "I" = [] := by
    decide +kernel
  have hnames : ∀ c i, i ∈ (Builder.ofList overridingProgram).program.indexed.ownInterfaces c →
      (Builder.ofList overridingProgram).program.indexed.Names c i := fun _ _ h => h
  refine ⟨_, hbuild,
    ⟨by decide +kernel, by decide +kernel, mem_interfacesOf_chain.1 (by decide +kernel),
      by decide +kernel, by decide +kernel, by decide +kernel⟩,
    ⟨by decide +kernel, by decide +kernel, mem_interfacesOf_chain.1 (by decide +kernel),
      by decide +kernel, by decide +kernel, by decide +kernel, by decide +kernel⟩,
    by decide +kernel, hnames _ _ (by decide +kernel), hnames _ _ (by decide +kernel),
    fun i hreach => ?_⟩
  obtain ⟨j, hj, _⟩ := Relation.TransGen.head'_iff.1 hreach
  unfold Names at hj
  rw [hleaf] at hj
  cases hj

end Program

end PointsTo
