import Mathlib.Data.List.Flatten
import Mathlib.Data.List.Nodup
import PointsTo.Proofs.Declarations
import PointsTo.Proofs.Traversals

/-!
# Methods of one name

A search for the methods of a name goes through a class, or through the class and its superclasses,
nearest first, and through the methods of each class in the order in which they were added.  Of
the methods that qualify the first one of each key is taken.  A method that does not qualify hides
none: a private method of a class does not keep a public one further up from being found.

Main results:

- {lit}`Program.searched`, {lit}`Program.Qualifies`, {lit}`Program.Ahead`: where methods are looked
  for, which ones, and in what order.
- Theorems {lit}`Program.mem_firstOfKey` and {lit}`Program.exists_ahead_of_firstOfKey`: what is
  taken from a list, and why the rest is not.
- Theorem {lit}`Program.methodsNamed_shadowing`: which methods are found, and what hides the others.
-/

namespace PointsTo

namespace Program

variable {p : Program} {ds : List Declaration} {c d e key name : String} {m n : MethodId}
  {seen chain : List String} {ms : List MethodId} {publicOnly inherited : Bool}

/-! ## The order of a search -/

/-- The classes in which the methods of a name are looked for. -/
def searched (p : Program) (c : String) (inherited : Bool) : List String :=
  if inherited then p.superclassChain c else [c]

/-- The methods that a class lists. -/
def methodsOf (p : Program) (c : String) : List MethodId :=
  match p.class? c with
  | some entry => entry.methods
  | none => []

/-- What is asked of a method besides its class. -/
structure Qualifies (p : Program) (name : String) (publicOnly : Bool) (m : MethodId) : Prop where
  name : (p.method m).name = name
  isPublic : publicOnly = true → (p.method m).isPublic = true

/-- A method stands before a method {lit}`m` of class {lit}`d`: earlier in the same class, or in a
nearer one. -/
def Ahead (p : Program) (chain : List String) (d : String) (n m : MethodId) : Prop :=
  [n, m].Sublist (p.methodsOf d) ∨ ∃ e, [e, d].Sublist chain ∧ n ∈ p.methodsOf e

/-- The methods of a class that have a name are a part of those that it lists. -/
theorem ownMethodsNamed_eq (p : Program) (name : String) (publicOnly : Bool) (c : String) :
    p.ownMethodsNamed name publicOnly c = (p.methodsOf c).filter fun m =>
      (p.method m).name == name && (!publicOnly || (p.method m).isPublic) := by
  unfold ownMethodsNamed methodsOf
  cases p.class? c <;> rfl

/-- Whether a method qualifies can be computed. -/
theorem qualifies_iff : p.Qualifies name publicOnly m ↔
    ((p.method m).name == name && (!publicOnly || (p.method m).isPublic)) = true := by
  rw [Bool.and_eq_true, beq_iff_eq, Bool.or_eq_true, Bool.not_eq_true']
  constructor
  · rintro ⟨hname, hpublic⟩
    refine ⟨hname, ?_⟩
    cases publicOnly with
    | false => exact .inl rfl
    | true => exact .inr (hpublic rfl)
  · rintro ⟨hname, hpublic⟩
    exact ⟨hname, fun h => hpublic.resolve_left (by simp [h])⟩

/-- The methods that are found in one class are the qualifying ones that it lists. -/
theorem mem_ownMethodsNamed : m ∈ p.ownMethodsNamed name publicOnly c ↔
    m ∈ p.methodsOf c ∧ p.Qualifies name publicOnly m := by
  rw [ownMethodsNamed_eq, List.mem_filter, qualifies_iff]

/-! ## One before another -/

section Pairs

variable {α β : Type} {a b x : α} {l l' : List α}

/-- A pair in this order is in the rest of a list, or begins with the head. -/
private theorem pair_sublist_cons :
    [a, b].Sublist (x :: l) ↔ [a, b].Sublist l ∨ (a = x ∧ b ∈ l) := by
  rw [List.cons_sublist_cons', List.singleton_sublist]

/-- A pair in this order is in one of two lists, or goes from the first to the second. -/
private theorem pair_sublist_append : [a, b].Sublist (l ++ l') ↔
    [a, b].Sublist l ∨ [a, b].Sublist l' ∨ (a ∈ l ∧ b ∈ l') := by
  induction l with
  | nil => simp
  | cons x l ih =>
      rw [List.cons_append, pair_sublist_cons, ih, pair_sublist_cons, List.mem_append,
        List.mem_cons]
      grind

/-- A filter keeps a pair if it keeps both. -/
private theorem pair_sublist_filter {test : α → Bool} : [a, b].Sublist (l.filter test) ↔
    [a, b].Sublist l ∧ test a = true ∧ test b = true := by
  constructor
  · intro h
    have hmem : ∀ y ∈ [a, b], test y = true := fun y hy => (List.mem_filter.1 (h.subset hy)).2
    exact ⟨h.trans List.filter_sublist, hmem a (by simp), hmem b (by simp)⟩
  · rintro ⟨h, ha, hb⟩
    simpa [ha, hb] using h.filter test

/-- Of lists that are joined, one entry comes before another in one of them, or is in an earlier
one. -/
private theorem pair_sublist_flatMap {f : β → List α} {xs : List β} :
    [a, b].Sublist (xs.flatMap f) ↔ (∃ x ∈ xs, [a, b].Sublist (f x)) ∨
      ∃ y x, [y, x].Sublist xs ∧ a ∈ f y ∧ b ∈ f x := by
  induction xs with
  | nil => simp
  | cons x xs ih =>
      rw [List.flatMap_cons, pair_sublist_append, ih, List.mem_flatMap]
      simp only [pair_sublist_cons, List.mem_cons, exists_eq_or_imp, or_assoc]
      constructor
      · rintro (h | h | ⟨y, z, hyz, ha, hb⟩ | ⟨ha, z, hz, hb⟩)
        · exact .inl h
        · exact .inr (.inl h)
        · exact .inr (.inr ⟨y, z, .inl hyz, ha, hb⟩)
        · exact .inr (.inr ⟨x, z, .inr ⟨rfl, hz⟩, ha, hb⟩)
      · rintro (h | h | ⟨y, z, hyz | ⟨rfl, hz⟩, ha, hb⟩)
        · exact .inl h
        · exact .inr (.inl h)
        · exact .inr (.inr (.inl ⟨y, z, hyz, ha, hb⟩))
        · exact .inr (.inr (.inr ⟨ha, z, hz, hb⟩))

end Pairs

/-! ## The first of each key -/

/-- The first methods of their keys stay in their order. -/
theorem firstOfKey_sublist (p : Program) (seen : List String) (ms : List MethodId) :
    (p.firstOfKey seen ms).Sublist ms := by
  induction ms generalizing seen with
  | nil => exact .slnil
  | cons k ms ih =>
      rw [firstOfKey]
      split
      · exact (ih _).cons k
      · exact (ih _).cons_cons k

/-- What is taken has a key that was not seen before. -/
theorem key_not_mem_of_mem_firstOfKey (h : m ∈ p.firstOfKey seen ms) :
    (p.method m).dispatchKey ∉ seen := by
  induction ms generalizing seen with
  | nil => cases h
  | cons k ms ih =>
      rw [firstOfKey] at h
      split at h
      · exact ih h
      · rename_i hk
        rcases List.mem_cons.1 h with rfl | h
        · exact hk
        · exact fun hmem => ih h (List.mem_cons_of_mem _ hmem)

/-- No key is taken twice. -/
theorem pairwise_firstOfKey (p : Program) (seen : List String) (ms : List MethodId) :
    (p.firstOfKey seen ms).Pairwise fun m n =>
      (p.method m).dispatchKey ≠ (p.method n).dispatchKey := by
  induction ms generalizing seen with
  | nil => exact .nil
  | cons k ms ih =>
      rw [firstOfKey]
      split
      · exact ih _
      · refine List.pairwise_cons.2 ⟨fun n hn heq => ?_, ih _⟩
        exact key_not_mem_of_mem_firstOfKey hn (heq ▸ List.mem_cons_self)

/-- A method is taken if its key is new and none with the same key stands before it. -/
theorem mem_firstOfKey (hnodup : ms.Nodup) : m ∈ p.firstOfKey seen ms ↔
    m ∈ ms ∧ (p.method m).dispatchKey ∉ seen ∧
      ∀ n, [n, m].Sublist ms → (p.method n).dispatchKey ≠ (p.method m).dispatchKey := by
  induction ms generalizing seen with
  | nil => simp [firstOfKey]
  | cons k ms ih =>
      obtain ⟨hk, hnodup⟩ := List.nodup_cons.1 hnodup
      rw [firstOfKey]
      simp only [pair_sublist_cons]
      by_cases hmk : m = k
      · subst hmk
        have hfirst : ∀ n, ¬ ([n, m].Sublist ms ∨ n = m ∧ m ∈ ms) := by
          rintro n (hn | ⟨_, hm⟩)
          · exact hk (hn.subset (by simp))
          · exact hk hm
        split
        · rename_i hseen
          exact iff_of_false (fun h => hk ((firstOfKey_sublist p seen ms).subset h))
            fun h => h.2.1 hseen
        · rename_i hseen
          exact iff_of_true List.mem_cons_self
            ⟨List.mem_cons_self, hseen, fun n hn => absurd hn (hfirst n)⟩
      · have hmem : m ∈ k :: ms ↔ m ∈ ms := List.mem_cons.trans (or_iff_right hmk)
        split
        · rename_i hseen
          rw [ih hnodup, hmem]
          refine and_congr_right fun hm => and_congr_right fun hnew => ?_
          refine ⟨?_, fun h n hn => h n (.inl hn)⟩
          rintro h n (hn | ⟨rfl, _⟩)
          · exact h n hn
          · exact fun heq => hnew (heq ▸ hseen)
        · rw [List.mem_cons, or_iff_right hmk, ih hnodup, hmem, List.mem_cons, not_or]
          refine and_congr_right fun hm => ⟨?_, ?_⟩
          · rintro ⟨⟨hne, hnew⟩, h⟩
            refine ⟨hnew, ?_⟩
            rintro n (hn | ⟨rfl, _⟩)
            · exact h n hn
            · exact Ne.symm hne
          · rintro ⟨hnew, h⟩
            exact ⟨⟨Ne.symm (h k (.inr ⟨rfl, hm⟩)), hnew⟩, fun n hn => h n (.inl hn)⟩

/-- What is not taken stands behind a method of the same key that is. -/
theorem exists_ahead_of_firstOfKey (hm : m ∈ ms) (hseen : (p.method m).dispatchKey ∉ seen) :
    m ∈ p.firstOfKey seen ms ∨ ∃ n ∈ p.firstOfKey seen ms,
      (p.method n).dispatchKey = (p.method m).dispatchKey ∧ [n, m].Sublist ms := by
  induction ms generalizing seen with
  | nil => cases hm
  | cons k ms ih =>
      rw [firstOfKey]
      simp only [pair_sublist_cons]
      split
      · rename_i hk
        rcases List.mem_cons.1 hm with rfl | hm
        · exact absurd hk hseen
        · rcases ih hm hseen with hfound | ⟨n, hn, hkey, hbefore⟩
          · exact .inl hfound
          · exact .inr ⟨n, hn, hkey, .inl hbefore⟩
      · rcases List.mem_cons.1 hm with rfl | hm
        · exact .inl List.mem_cons_self
        · by_cases hkey : (p.method k).dispatchKey = (p.method m).dispatchKey
          · exact .inr ⟨k, List.mem_cons_self, hkey, .inr ⟨rfl, hm⟩⟩
          · have hnew : (p.method m).dispatchKey ∉ (p.method k).dispatchKey :: seen := by
              rw [List.mem_cons, not_or]
              exact ⟨Ne.symm hkey, hseen⟩
            rcases ih hm hnew with hfound | ⟨n, hn, hkey, hbefore⟩
            · exact .inl (List.mem_cons_of_mem _ hfound)
            · exact .inr ⟨n, List.mem_cons_of_mem _ hn, hkey, .inl hbefore⟩

/-! ## What is found -/

/-- No class is searched twice. -/
theorem nodup_searched (p : Program) (c : String) (inherited : Bool) :
    (p.searched c inherited).Nodup := by
  unfold searched
  split
  · exact p.superclassChain_nodup c
  · exact List.nodup_singleton c

/-- Methods are looked up in the searched classes, one after the other. -/
theorem methodsNamed_eq (p : Program) (c name : String) (publicOnly inherited : Bool) :
    p.methodsNamed c name publicOnly inherited = p.firstOfKey []
      ((p.searched c inherited).flatMap (p.ownMethodsNamed name publicOnly)) := by
  unfold methodsNamed searched
  cases inherited <;> rfl

namespace Registers

variable (h : p.Registers ds)

include h

/-- A method that a class lists names it as its own. -/
theorem className_of_mem (hm : m ∈ p.methodsOf c) : (p.method m).className = c := by
  unfold methodsOf at hm
  split at hm
  · rename_i entry hentry
    exact ((h.mem_methods_iff hentry).1 hm).1.2
  · cases hm

/-- No method is listed twice. -/
theorem nodup_methodsOf (c : String) : (p.methodsOf c).Nodup := by
  unfold methodsOf
  split
  · rename_i entry hentry
    refine (h.ownMethods c entry hentry).ascending.imp fun hlt heq => ?_
    exact absurd (congrArg Id.index heq) (Nat.ne_of_lt hlt)
  · exact .nil

/-- No method is met twice in a search. -/
theorem nodup_candidates (hchain : chain.Nodup) (name : String) (publicOnly : Bool) :
    (chain.flatMap (p.ownMethodsNamed name publicOnly)).Nodup := by
  refine List.nodup_flatMap.2 ⟨fun c _ => ?_, hchain.imp fun hne => ?_⟩
  · rw [ownMethodsNamed_eq]
    exact (h.nodup_methodsOf c).filter _
  · intro m hm hm'
    have hc := h.className_of_mem (mem_ownMethodsNamed.1 hm).1
    have hd := h.className_of_mem (mem_ownMethodsNamed.1 hm').1
    exact hne (hc.symm.trans hd)

/-- Among the methods of a search that qualify, one comes before another if it stands ahead. -/
theorem pair_sublist_iff_ahead (hd : d ∈ chain) (hm : m ∈ p.methodsOf d)
    (hqm : p.Qualifies name publicOnly m) :
    [n, m].Sublist (chain.flatMap (p.ownMethodsNamed name publicOnly)) ↔
      p.Qualifies name publicOnly n ∧ p.Ahead chain d n m := by
  rw [pair_sublist_flatMap]
  -- the method is met in its own class only
  have hclass : ∀ {e}, m ∈ p.methodsOf e → e = d := fun he =>
    (h.className_of_mem he).symm.trans (h.className_of_mem hm)
  constructor
  · rintro (⟨e, _, hpair⟩ | ⟨e, e', hbefore, hn, hm'⟩)
    · obtain rfl := hclass (mem_ownMethodsNamed.1 (hpair.subset (by simp))).1
      have hqn := (mem_ownMethodsNamed.1 (hpair.subset (List.mem_cons_self (a := n)))).2
      rw [ownMethodsNamed_eq] at hpair
      exact ⟨hqn, .inl (hpair.trans List.filter_sublist)⟩
    · obtain rfl := hclass (mem_ownMethodsNamed.1 hm').1
      obtain ⟨hn, hqn⟩ := mem_ownMethodsNamed.1 hn
      exact ⟨hqn, .inr ⟨e, hbefore, hn⟩⟩
  · rintro ⟨hqn, hpair | ⟨e, hbefore, hn⟩⟩
    · refine .inl ⟨d, hd, ?_⟩
      rw [ownMethodsNamed_eq, pair_sublist_filter]
      exact ⟨hpair, qualifies_iff.1 hqn, qualifies_iff.1 hqm⟩
    · exact .inr ⟨e, d, hbefore, mem_ownMethodsNamed.2 ⟨hn, hqn⟩,
        mem_ownMethodsNamed.2 ⟨hm, hqm⟩⟩

end Registers

/-- A search for the methods of a name ends, as the walk over the superclasses does.  It finds
methods of different keys, in the order of the search, each of which qualifies and belongs to a
class that is searched.  A qualifying method of such a class is found exactly if no qualifying one
of the same key stands ahead of it, and then one that is found does. -/
theorem methodsNamed_shadowing (ds : List Declaration)
    (hbuild : (Builder.ofList ds).build = .ok p) (c name : String) (publicOnly inherited : Bool) :
    (inherited = true → p.Climbs [] (some c) (p.searched c inherited)) ∧
    (p.methodsNamed c name publicOnly inherited).Pairwise (fun m n =>
      (p.method m).dispatchKey ≠ (p.method n).dispatchKey) ∧
    (p.methodsNamed c name publicOnly inherited).Sublist
      ((p.searched c inherited).flatMap p.methodsOf) ∧
    (∀ m ∈ p.methodsNamed c name publicOnly inherited, p.Qualifies name publicOnly m ∧
      ∃ d ∈ p.searched c inherited, m ∈ p.methodsOf d ∧ (p.method m).className = d) ∧
    ∀ d ∈ p.searched c inherited, ∀ m ∈ p.methodsOf d, p.Qualifies name publicOnly m →
      (m ∈ p.methodsNamed c name publicOnly inherited ↔ ∀ n, p.Qualifies name publicOnly n →
        p.Ahead (p.searched c inherited) d n m →
          (p.method n).dispatchKey ≠ (p.method m).dispatchKey) ∧
      (m ∈ p.methodsNamed c name publicOnly inherited ∨
        ∃ n ∈ p.methodsNamed c name publicOnly inherited,
          (p.method n).dispatchKey = (p.method m).dispatchKey ∧
            p.Ahead (p.searched c inherited) d n m) := by
  have h : p.Registers ds := registers_of_build (Builder.registers_ofList ds) hbuild
  have hnodup := h.nodup_candidates (p.nodup_searched c inherited) name publicOnly
  rw [methodsNamed_eq]
  refine ⟨fun hinherited => ?_, p.pairwise_firstOfKey _ _, ?_, fun m hm => ?_,
    fun d hd m hm hq => ?_⟩
  · rw [searched, if_pos hinherited]
    exact p.climbs_superclassChain c
  · refine (p.firstOfKey_sublist _ _).trans (List.Sublist.flatMap_right _ fun d _ => ?_)
    rw [ownMethodsNamed_eq]
    exact List.filter_sublist
  · obtain ⟨d, hd, hmd⟩ := List.mem_flatMap.1 ((p.firstOfKey_sublist _ _).subset hm)
    obtain ⟨hmd, hq⟩ := mem_ownMethodsNamed.1 hmd
    exact ⟨hq, d, hd, hmd, h.className_of_mem hmd⟩
  · have hmem : m ∈ (p.searched c inherited).flatMap (p.ownMethodsNamed name publicOnly) :=
      List.mem_flatMap.2 ⟨d, hd, mem_ownMethodsNamed.2 ⟨hm, hq⟩⟩
    have hahead := fun n => h.pair_sublist_iff_ahead (n := n) hd hm hq
    refine ⟨?_, ?_⟩
    · rw [mem_firstOfKey hnodup]
      constructor
      · rintro ⟨_, _, hfirst⟩ n hqn hn
        exact hfirst n ((hahead n).2 ⟨hqn, hn⟩)
      · intro hfirst
        refine ⟨hmem, List.not_mem_nil, fun n hn => ?_⟩
        obtain ⟨hqn, hn⟩ := (hahead n).1 hn
        exact hfirst n hqn hn
    · rcases exists_ahead_of_firstOfKey hmem List.not_mem_nil with hfound | ⟨n, hn, hkey, hbefore⟩
      · exact .inl hfound
      · exact .inr ⟨n, hn, hkey, ((hahead n).1 hbefore).2⟩

/-- A class with a private and two public methods of one key, and a public one above it. -/
def shadowingProgram : List Declaration :=
  [.cls (.plain "A"), .cls ((ClassDecl.plain "B").extending "A"),
    .method ⟨"A", "m", [], .void, false, false, true⟩,
    .method ⟨"B", "m", [], .void, false, false, false⟩,
    .method ⟨"B", "m", [], .cls "B", false, false, true⟩,
    .method ⟨"B", "m", [], .void, false, false, true⟩]

/-- The first public method is found alone, and stands ahead of the one above. -/
theorem methodsNamed_shadowing_public :
    ∃ p, (Builder.ofList shadowingProgram).build = .ok p ∧
      p.methodsNamed "B" "m" true true = [⟨2⟩] ∧ p.Qualifies "m" true ⟨0⟩ ∧
      ∃ n ∈ p.methodsNamed "B" "m" true true,
        (p.method n).dispatchKey = (p.method ⟨0⟩).dispatchKey ∧
          p.Ahead (p.searched "B" true) "A" n ⟨0⟩ := by
  have hbuild : (Builder.ofList shadowingProgram).build = .ok _ :=
    build_of_checks (by decide +kernel) (by decide +kernel)
  have hfound : (Builder.ofList shadowingProgram).program.indexed.methodsNamed "B" "m" true true =
      [⟨2⟩] := by decide +kernel
  have hq : (Builder.ofList shadowingProgram).program.indexed.Qualifies "m" true ⟨0⟩ :=
    ⟨by decide +kernel, fun _ => by decide +kernel⟩
  obtain ⟨_, _, _, _, hsearched⟩ := methodsNamed_shadowing shadowingProgram hbuild "B" "m" true true
  obtain ⟨_, hahead⟩ := hsearched "A" (by decide +kernel) ⟨0⟩ (by decide +kernel) hq
  exact ⟨_, hbuild, hfound, hq, hahead.resolve_left (by rw [hfound]; decide)⟩

end Program

end PointsTo
