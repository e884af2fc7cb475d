import PointsTo.Lambda
import PointsTo.Proofs.Indexes
import PointsTo.Reflection

/-!
# The methods that classes list

A class lists the methods that were added for it: they exist, and name the class as their own.
Whatever a program answers when it is asked for a method by its name or its key is listed by some
class.

Main results:

- {lit}`Program.Listed`, and theorem {lit}`Program.listed_of_build`: what classes list.
- {lit}`Program.Lists`: some class lists a method; theorems {lit}`Program.lists_of_resolve?`,
  {lit}`Program.lists_of_dispatch?` and their like: answers are listed.
- Theorems {lit}`Program.Listed.index_lt`, {lit}`Program.Listed.className_of_constructors`: such
  answers are methods of the program, and constructors are those of the class that was asked for.
-/

namespace PointsTo

/-- The ids of classes are their positions, and what a class lists are methods that name it as
their own. -/
structure Program.Listed (p : Program) : Prop where
  classes : NumberedBy Class.id p.classes
  methods : ∀ c ∈ p.classes, ∀ i ∈ c.methods,
    ∃ m, p.methods[i.index]? = some m ∧ m.className = c.name

namespace Builder

/-- Methods may be added and changed as long as they stay with their classes. -/
theorem listed_of_methods {p q : Program} (h : p.Listed) (hclasses : q.classes = p.classes)
    (hmethods : ∀ {i : Nat} {m : Method}, p.methods[i]? = some m →
      ∃ m', q.methods[i]? = some m' ∧ m'.className = m.className) : q.Listed := by
  refine ⟨by rw [hclasses]; exact h.classes, ?_⟩
  intro c hc i hi
  rw [hclasses] at hc
  obtain ⟨m, hm, hname⟩ := h.methods c hc i hi
  obtain ⟨m', hm', hname'⟩ := hmethods hm
  exact ⟨m', hm', hname'.trans hname⟩

/-- Only the tables of classes and of methods matter. -/
theorem listed_of_eq {p q : Program} (h : p.Listed) (hclasses : q.classes = p.classes)
    (hmethods : q.methods = p.methods) : q.Listed :=
  listed_of_methods h hclasses fun hm => ⟨_, by rw [hmethods]; exact hm, rfl⟩

/-- A class may list more methods, if these name it as their own. -/
theorem listed_modifyClass {p : Program} (h : p.Listed) (name : String) {f : Class → Class}
    (hid : ∀ c, (f c).id = c.id) (hname : ∀ c, (f c).name = c.name)
    (hmethods : ∀ c, ∀ i ∈ (f c).methods,
      i ∈ c.methods ∨ ∃ m, p.methods[i.index]? = some m ∧ m.className = name) :
    (modifyClass p name f).Listed := by
  unfold modifyClass
  split
  · rename_i id hclass
    obtain ⟨c, hc, rfl⟩ := Option.map_eq_some_iff.1 hclass
    have hcname : c.name = name := Program.class?_name hc
    obtain ⟨j, hj⟩ := Array.mem_iff_getElem?.1
      (Array.mem_toList_iff.1 (List.mem_of_find?_eq_some hc))
    refine ⟨h.classes.modify _ hid, ?_⟩
    intro c' hc' i hi
    obtain ⟨k, hk⟩ := Array.mem_iff_getElem?.1 hc'
    rw [Array.getElem?_modify] at hk
    split at hk
    · rename_i hjk
      obtain ⟨c₀, hc₀, rfl⟩ := Option.map_eq_some_iff.1 hk
      -- the class at the position of the id is the one that was found by its name
      obtain rfl : c = c₀ := by
        rw [← hjk, h.classes j c hj] at hc₀
        exact Option.some.inj (hj.symm.trans hc₀)
      rw [hname, hcname]
      rcases hmethods c i hi with hi | hnew
      · rw [← hcname]
        exact h.methods c (Array.mem_of_getElem? hj) i hi
      · exact hnew
    · exact h.methods c' (Array.mem_of_getElem? hk) i hi
  · exact h

/-- No step changes what classes list, apart from methods that name them as their own. -/
theorem listed_of_edit {p q : Program} (h : Edit p q) (hp : p.Listed) : q.Listed := by
  cases h with
  | @cls c hid hmethods =>
      refine ⟨hp.classes.push hid, ?_⟩
      intro c' hc i hi
      rcases Array.mem_push.1 hc with hc | rfl
      · exact hp.methods c' hc i hi
      · rw [hmethods] at hi
        exact absurd hi List.not_mem_nil
  | field f =>
      have hpush : Program.Listed { p with fields := p.fields.push f } := listed_of_eq hp rfl rfl
      exact listed_modifyClass hpush _ (fun _ => rfl) (fun _ => rfl) fun _ _ hi => .inl hi
  | var | invoke | line => exact listed_of_eq hp rfl rfl
  | @method m hid =>
      have hpush : Program.Listed { p with methods := p.methods.push m } :=
        listed_of_methods hp rfl fun hentry => ⟨_, getElem?_push_of_eq_some hentry, rfl⟩
      refine listed_modifyClass hpush _ (fun _ => rfl) (fun _ => rfl) fun c i hi => ?_
      rcases List.mem_append.1 hi with hi | hi
      · exact .inl hi
      · obtain rfl := List.mem_singleton.1 hi
        exact .inr ⟨m, by rw [hid]; exact Array.getElem?_push_size, rfl⟩
  | stmt =>
      refine listed_of_methods hp rfl fun {i entry} hentry => ?_
      simp only [Array.getElem?_modify, hentry]
      split
      · exact ⟨_, rfl, rfl⟩
      · exact ⟨_, rfl, rfl⟩

/-- However a program is assembled, classes list their own methods. -/
theorem listed_ofList (ds : List Declaration) : (ofList ds).program.Listed := by
  refine (edits_ofList ds).keeps listed_of_edit ?_
  -- the root class is the only one at first, and lists nothing
  exact (edits_addClass {} _).keeps listed_of_edit ⟨by simp [NumberedBy], by simp⟩

end Builder

namespace Program

variable {p : Program} {m : MethodId}

/-- Building a program leaves the lists as they are. -/
theorem listed_of_build {ds : List Declaration} (hb : (Builder.ofList ds).program.Listed)
    (h : (Builder.ofList ds).build = .ok p) : p.Listed := by
  obtain ⟨-, rfl⟩ := indexed_of_build (Builder.numbered_ofList ds) h
  refine Builder.listed_of_methods hb rfl fun {i m} hm =>
    ⟨{ m with returnVars := returned m.stmts }, ?_, rfl⟩
  simp only [indexed, Array.getElem?_map, hm, Option.map_some]

/-! ## What is listed -/

/-- Some class lists the method. -/
def Lists (p : Program) (m : MethodId) : Prop := ∃ c ∈ p.classes.toList, m ∈ c.methods

/-- What a class that is found lists is listed. -/
theorem lists_of_class? {name : String} {c : Class} (hc : p.class? name = some c)
    (hm : m ∈ c.methods) : p.Lists m :=
  ⟨c, List.mem_of_find?_eq_some hc, hm⟩

/-- A method that is declared under a key is listed. -/
theorem lists_of_declared? {name key : String} (h : p.declared? name key = some m) :
    p.Lists m := by
  unfold declared? at h
  split at h
  · rename_i c hc
    exact lists_of_class? hc (List.mem_of_find?_eq_some h)
  · cases h

/-- What a reference resolves to is listed. -/
theorem lists_of_resolve? {r : MethodRef} (h : p.resolve? r = some m) : p.Lists m := by
  unfold resolve? at h
  split at h
  · exact lists_of_declared? h
  · rcases Option.or_eq_some_iff.1 h with h | ⟨_, h⟩
    · obtain ⟨c, _, hc⟩ := List.exists_of_findSome?_eq_some h
      exact lists_of_declared? hc
    · obtain ⟨i, _, hi⟩ := List.exists_of_findSome?_eq_some h
      exact lists_of_declared? hi

/-- What a reference is dispatched to is listed. -/
theorem lists_of_dispatch? {type : JavaType} {r : MethodRef} (h : p.dispatch? type r = some m) :
    p.Lists m := by
  unfold dispatch? at h
  split at h
  · cases h
  · dsimp only at h
    split at h
    · rename_i n hn
      split at h
      · cases h
      · cases h
        obtain ⟨c, _, hc⟩ := List.exists_of_findSome?_eq_some hn
        exact lists_of_declared? (Option.filter_eq_some_iff.1 hc).1
    · obtain ⟨i, _, hi⟩ := List.mem_filterMap.1 (List.mem_of_find?_eq_some h)
      exact lists_of_declared? hi

/-- Constructors are listed. -/
theorem lists_of_constructors {name : String} (h : m ∈ p.constructors name) : p.Lists m := by
  unfold constructors at h
  split at h
  · rename_i c hc
    exact lists_of_class? hc (List.mem_filter.1 h).1
  · cases h

/-- The first methods of their keys are among those that were given. -/
theorem mem_of_firstOfKey {seen : List String} {ms : List MethodId}
    (h : m ∈ p.firstOfKey seen ms) : m ∈ ms := by
  induction ms generalizing seen with
  | nil => cases h
  | cons n ms ih =>
      unfold firstOfKey at h
      dsimp only at h
      split at h
      · exact List.mem_cons_of_mem _ (ih h)
      · rcases List.mem_cons.1 h with rfl | h
        · exact List.mem_cons_self
        · exact List.mem_cons_of_mem _ (ih h)

/-- Methods that are looked up by name are listed. -/
theorem lists_of_methodsNamed {className name : String} {publicOnly inherited : Bool}
    (h : m ∈ p.methodsNamed className name publicOnly inherited) : p.Lists m := by
  obtain ⟨c, _, hm⟩ := List.mem_flatMap.1 (mem_of_firstOfKey h)
  unfold ownMethodsNamed at hm
  split at hm
  · rename_i c hc
    exact lists_of_class? hc (List.mem_filter.1 hm).1
  · cases hm

/-- A method that is kept because it has a body was there before. -/
theorem concrete?_eq_some {m? : Option MethodId} (h : p.concrete? m? = some m) :
    m? = some m ∧ (p.method m).isAbstract = false := by
  obtain ⟨hm, hconcrete⟩ := Option.filter_eq_some_iff.1 h
  exact ⟨hm, by simpa using hconcrete⟩

/-! ### Methods that calls run -/

/-- A static call leads to a method that is listed. -/
theorem lists_of_staticTarget? {call : Invoke} (h : staticTarget? p call = some m) :
    p.Lists m := by
  unfold staticTarget? at h
  split at h
  · exact lists_of_resolve? (concrete?_eq_some h).1
  · cases h

/-- So does a call on an object. -/
theorem lists_of_receiverTarget? {heap : Heap} {call : Invoke} {o : QObj}
    (h : receiverTarget? p heap call o = some m) : p.Lists m := by
  obtain ⟨hm, _⟩ := concrete?_eq_some h
  split at hm
  · exact lists_of_resolve? hm
  · exact lists_of_dispatch? hm

/-- So does a call that waited on its receiver. -/
theorem lists_of_pendingTarget? {r : Lambda.PendingCall} {type : JavaType}
    (h : Lambda.pendingTarget? p r type = some m) : p.Lists m := by
  obtain ⟨hm, _⟩ := concrete?_eq_some h
  split at hm
  · exact lists_of_resolve? hm
  · exact lists_of_dispatch? hm

/-- So does a default constructor. -/
theorem lists_of_defaultConstructor? {name : String} (h : p.defaultConstructor? name = some m) :
    p.Lists m :=
  lists_of_constructors (List.mem_of_find?_eq_some h)

/-- What an invocation runs on an object is the method that was named, or is listed. -/
theorem lists_of_invokedOn? {target : MethodId} {type : JavaType}
    (h : Reflection.invokedOn? p target type = some m) : m = target ∨ p.Lists m := by
  unfold Reflection.invokedOn? at h
  dsimp only at h
  split at h
  · obtain ⟨hm, _⟩ := concrete?_eq_some h
    rw [Option.some.injEq] at hm
    subst hm
    cases hd : p.dispatch? type (p.method target).ref with
    | none => exact .inl rfl
    | some n => exact .inr (lists_of_dispatch? hd)
  · cases h

/-- A constructor of a class is one, and the class lists it. -/
theorem mem_constructors {name : String} : m ∈ p.constructors name ↔
    ∃ c, p.class? name = some c ∧ m ∈ c.methods ∧ (p.method m).isConstructor = true := by
  unfold constructors
  split
  · rename_i c hc
    simp [hc]
  · rename_i hc
    simp [hc]

namespace Listed

variable (h : p.Listed)

include h

/-- A method that is listed is one of the program. -/
theorem index_lt (hm : p.Lists m) : m.index < p.methods.size := by
  obtain ⟨c, hc, hmem⟩ := hm
  obtain ⟨x, hx, _⟩ := h.methods c (Array.mem_toList_iff.1 hc) m hmem
  exact (Array.getElem?_eq_some_iff.1 hx).1

/-- The constructors of a class name it as their own. -/
theorem className_of_constructors {name : String} (hm : m ∈ p.constructors name) :
    (p.method m).className = name := by
  obtain ⟨c, hc, hmem, _⟩ := mem_constructors.1 hm
  obtain ⟨x, hx, hname⟩ :=
    h.methods c (Array.mem_toList_iff.1 (List.mem_of_find?_eq_some hc)) m hmem
  have hx' : p.method m = x := by
    simp [method, Array.getD_eq_getD_getElem?, hx]
  rw [hx', hname, class?_name hc]

end Listed

end Program

end PointsTo
