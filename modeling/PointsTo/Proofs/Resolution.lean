import PointsTo.Proofs.Dispatch
import PointsTo.Solver.Rules

/-!
# Resolution beside dispatch

A reference is resolved by a search of its own: through the classes first, as dispatch goes, and
then through the interfaces, where resolution takes the first method with the key while dispatch
takes the first one with a body.  Where no class has a static method with the key, the two agree
but for one case: an interface with an abstract method comes before the interface whose method
dispatch finds.  A special call that is resolved so is dropped.

Main results:

- {lit}`Program.AbstractFirst`: an abstract method of an interface comes first.
- Theorem {lit}`Program.concrete?_resolve?_eq`: elsewhere both searches find the same method.
- Theorem {lit}`Program.resolve?_agrees`: what this says of references and of special calls.
-/

namespace PointsTo

namespace Program

variable {p : Program} {r : MethodRef} {c key : String} {m : MethodId}

/-- No class of the chain declares a method with the key, and the first interface that declares one
has an abstract one. -/
def AbstractFirst (p : Program) (key c : String) : Prop :=
  (∀ d ∈ p.superclassChain c, p.declared? d key = none) ∧
    ∃ before i after n, p.interfacesOf (p.superclassChain c) = before ++ i :: after ∧
      (∀ j ∈ before, p.declared? j key = none) ∧ p.declared? i key = some n ∧
      (p.method n).isAbstract = true

/-- The nearest method with a key in a class and its superclasses, static or not. -/
def inherited? (p : Program) (key c : String) : Option MethodId :=
  (p.superclassChain c).findSome? fun d => p.declared? d key

/-- The first methods with a key that the interfaces of a class declare, in the order of the
search. -/
def offered (p : Program) (key c : String) : List MethodId :=
  (p.interfacesOf (p.superclassChain c)).filterMap fun i => p.declared? i key

theorem abstractFirst_iff : p.AbstractFirst key c ↔ p.inherited? key c = none ∧
    ∃ n ∈ (p.offered key c).head?, (p.method n).isAbstract = true := by
  unfold AbstractFirst inherited? offered
  rw [List.findSome?_eq_none_iff, List.head?_filterMap]
  refine and_congr_right fun _ => ⟨?_, ?_⟩
  · rintro ⟨before, i, after, n, hsplit, hbefore, hi, habstract⟩
    exact ⟨n, List.findSome?_eq_some_iff.2 ⟨before, i, after, hsplit, hi, hbefore⟩, habstract⟩
  · rintro ⟨n, hn, habstract⟩
    obtain ⟨before, i, after, hsplit, hi, hbefore⟩ := List.findSome?_eq_some_iff.1 hn
    exact ⟨before, i, after, n, hsplit, hbefore, hi, habstract⟩

instance (p : Program) (key c : String) : Decidable (p.AbstractFirst key c) :=
  decidable_of_iff' _ abstractFirst_iff

theorem concrete?_some (m : MethodId) :
    p.concrete? (some m) = if (p.method m).isAbstract then none else some m := by
  by_cases habstract : (p.method m).isAbstract = true
  · rw [if_pos habstract]
    exact Option.filter_some_neg (by simp [habstract])
  · rw [if_neg habstract]
    exact Option.filter_some_pos (by simpa using habstract)

/-- Where no class has a static method first, the nearest instance method is the nearest method. -/
theorem nearestInstance?_eq_inherited? (hinstance : ∀ d ∈ p.superclassChain c, ∀ n,
      p.declared? d key = some n → (p.method n).isStatic = false) :
    p.nearestInstance? key (p.superclassChain c) = p.inherited? key c := by
  unfold nearestInstance? inherited?
  generalize p.superclassChain c = chain at hinstance ⊢
  induction chain with
  | nil => rfl
  | cons d chain ih =>
      have hd : ((p.declared? d key).filter fun m => !(p.method m).isStatic) =
          p.declared? d key := by
        cases hdecl : p.declared? d key with
        | none => rfl
        | some n => exact Option.filter_some_pos (by simp [hinstance d List.mem_cons_self n hdecl])
      rw [List.findSome?_cons, List.findSome?_cons, hd,
        ih fun e he => hinstance e (List.mem_cons_of_mem _ he)]

theorem resolve?_eq (hr : r.isConstructor = false) : p.resolve? r =
    (p.inherited? r.dispatchKey r.className).or
      (p.offered r.dispatchKey r.className).head? := by
  simp [resolve?, hr, inherited?, offered, List.head?_filterMap]

section

variable (hr : r.isConstructor = false)
  (hinstance : ∀ d ∈ p.superclassChain r.className, ∀ n,
    p.declared? d r.dispatchKey = some n → (p.method n).isStatic = false)

include hinstance

theorem dispatch?_cls_eq : p.dispatch? (.cls r.className) r =
    match p.inherited? r.dispatchKey r.className with
    | some m => p.concrete? (some m)
    | none => (p.offered r.dispatchKey r.className).find? fun m => !(p.method m).isAbstract := by
  simp only [dispatch?, dispatchClass?, nearestInstance?_eq_inherited? hinstance]
  cases p.inherited? r.dispatchKey r.className with
  | none => rfl
  | some m => exact (concrete?_some m).symm

include hr

/-- Where an abstract method of an interface comes first, no method with a body is resolved;
elsewhere it is the method that dispatch finds. -/
theorem concrete?_resolve?_eq :
    (p.AbstractFirst r.dispatchKey r.className → p.concrete? (p.resolve? r) = none) ∧
    (¬ p.AbstractFirst r.dispatchKey r.className →
      p.concrete? (p.resolve? r) = p.dispatch? (.cls r.className) r) := by
  rw [abstractFirst_iff, resolve?_eq hr, dispatch?_cls_eq hinstance]
  cases p.inherited? r.dispatchKey r.className with
  | some m => simp
  | none =>
      cases p.offered r.dispatchKey r.className with
      | nil => simp [concrete?]
      | cons n offers =>
          cases habstract : (p.method n).isAbstract <;> simp [concrete?, habstract]

/-- Where no class has a static method with the key, a method that dispatch finds on the class of a
reference is what the reference resolves to, unless an abstract method of an interface comes first;
a method with a body that is resolved is the one that dispatch finds.  So a special call runs what
dispatch finds, except that it is dropped where an abstract method comes first. -/
theorem resolve?_agrees :
    (∀ m, p.dispatch? (.cls r.className) r = some m →
      (p.resolve? r = some m ↔ ¬ p.AbstractFirst r.dispatchKey r.className)) ∧
    (∀ m, p.concrete? (p.resolve? r) = some m → p.dispatch? (.cls r.className) r = some m) ∧
    ∀ heap call o, call.kind = .special → call.target = r →
      (p.AbstractFirst r.dispatchKey r.className → receiverTarget? p heap call o = none) ∧
      (¬ p.AbstractFirst r.dispatchKey r.className →
        receiverTarget? p heap call o = p.dispatch? (.cls r.className) r) := by
  obtain ⟨hfirst, helse⟩ := concrete?_resolve?_eq hr hinstance
  refine ⟨fun m hm => ⟨fun hresolve habstract => ?_, fun hnot => ?_⟩, fun m hm => ?_, ?_⟩
  · have hconcrete := (dispatch?_eq_some hm).1
    have hnone := hfirst habstract
    rw [hresolve] at hnone
    simp [concrete?, hconcrete] at hnone
  · exact (Option.filter_eq_some_iff.1 ((helse hnot).trans hm)).1
  · by_cases habstract : p.AbstractFirst r.dispatchKey r.className
    · rw [hfirst habstract] at hm
      cases hm
    · rw [← helse habstract, hm]
  · rintro heap call o hkind rfl
    unfold receiverTarget?
    rw [hkind]
    exact ⟨hfirst, helse⟩

end

/-- An interface with an abstract method and one below it that gives it a body.  One class names
both, the other one the lower one alone. -/
def redeclaringProgram : List Declaration :=
  [.cls (.interface "I"), .cls ((ClassDecl.interface "J").implementing ["I"]),
    .method ⟨"I", "m", [], .void, false, true, true⟩,
    .method ⟨"J", "m", [], .void, false, false, true⟩,
    .cls ((ClassDecl.plain "A").implementing ["I", "J"]),
    .cls ((ClassDecl.plain "B").implementing ["J"])]

/-- On the class that names the lower interface alone, both searches find its method. -/
theorem resolve?_agrees_redeclaring :
    ∃ p, (Builder.ofList redeclaringProgram).build = .ok p ∧
      p.dispatch? (.cls "B") ⟨"B", "m", [], .void⟩ = some ⟨1⟩ ∧
      ¬ p.AbstractFirst "m()" "B" ∧ p.resolve? ⟨"B", "m", [], .void⟩ = some ⟨1⟩ := by
  have hbuild : (Builder.ofList redeclaringProgram).build = .ok _ :=
    build_of_checks (by decide +kernel) (by decide +kernel)
  have hfound : (Builder.ofList redeclaringProgram).program.indexed.dispatch? (.cls "B")
      ⟨"B", "m", [], .void⟩ = some ⟨1⟩ := by decide +kernel
  have hnot : ¬ (Builder.ofList redeclaringProgram).program.indexed.AbstractFirst "m()" "B" := by
    decide +kernel
  have hnone : ∀ d ∈ (Builder.ofList redeclaringProgram).program.indexed.superclassChain "B",
      (Builder.ofList redeclaringProgram).program.indexed.declared? d "m()" = none := by
    decide +kernel
  have hagrees := resolve?_agrees (p := (Builder.ofList redeclaringProgram).program.indexed)
    (r := ⟨"B", "m", [], .void⟩) (by decide +kernel)
    (fun d hd n hn => absurd ((hnone d hd).symm.trans hn) (Option.some_ne_none n).symm)
  exact ⟨_, hbuild, hfound, hnot, (hagrees.1 _ hfound).2 hnot⟩

/-- On the class that names both, dispatch finds the method with a body, the reference resolves to
the abstract one, and special calls are dropped. -/
theorem resolve?_abstract :
    ∃ p, (Builder.ofList redeclaringProgram).build = .ok p ∧
      (∀ d ∈ p.superclassChain "A", p.declared? d "m()" = none) ∧
      p.dispatch? (.cls "A") ⟨"A", "m", [], .void⟩ = some ⟨1⟩ ∧
      p.resolve? ⟨"A", "m", [], .void⟩ = some ⟨0⟩ ∧ (p.method ⟨0⟩).isAbstract = true ∧
      ∀ heap call o, call.kind = .special → call.target = ⟨"A", "m", [], .void⟩ →
        receiverTarget? p heap call o = none := by
  have hbuild : (Builder.ofList redeclaringProgram).build = .ok _ :=
    build_of_checks (by decide +kernel) (by decide +kernel)
  have hdropped : (Builder.ofList redeclaringProgram).program.indexed.concrete?
      ((Builder.ofList redeclaringProgram).program.indexed.resolve? ⟨"A", "m", [], .void⟩) =
      none := by decide +kernel
  refine ⟨_, hbuild, by decide +kernel, by decide +kernel, by decide +kernel, by decide +kernel, ?_⟩
  intro heap call o hkind htarget
  unfold receiverTarget?
  rw [hkind, htarget]
  exact hdropped

end Program

end PointsTo
