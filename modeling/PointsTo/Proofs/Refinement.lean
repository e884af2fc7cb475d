import PointsTo.Proofs.LambdaFixpoint

/-!
# Comparing the results of two runs

The facts that a finished run finds are the least family that is closed under the rules.  Two
runs may number contexts and objects differently and may find their facts in different orders;
what they find is compared here without ids.

Main results:

- Theorem {lit}`Analysis.facts_le_of_entries`: more entry methods give more facts, and entry
  methods that are only permuted or repeated give the same facts.
- Theorem {lit}`Analysis.facts_le_insensitive`: once contexts are forgotten, an analysis that
  tells contexts apart finds no fact that the one without contexts does not find.
-/

namespace PointsTo

/-- The run came to its end. -/
def Verdict.isFinished : Verdict → Bool
  | .finished _ => true
  | .failed .. | .unfinished => false

theorem Verdict.exists_of_isFinished {v : Verdict} (h : v.isFinished = true) :
    ∃ result, v = .finished result := by
  cases v with
  | finished result => exact ⟨result, rfl⟩
  | failed | unfinished => cases h

namespace Analysis

variable {a b : Analysis} (ds : List Declaration) {p : Program} {steps steps' : Nat}
  {files files' : Reflection.Files} {entries entries' : List MethodId} {result result' : Result}

/-! ## Entry methods -/

/-- The facts of a run are among those of any run from more entry methods. -/
private theorem facts_le_of_subset (hreflection : a.options.reflection = false)
    (hextra : a.extra = []) (hbuild : (Builder.ofList ds).build = .ok p)
    (hsub : ∀ i ∈ entries, i ∈ entries')
    (hrun : a.runFrom steps p files entries = .finished result)
    (hrun' : a.runFrom steps' p files' entries' = .finished result') :
    result.lambdaFacts.Le result'.lambdaFacts := by
  have hclosed' := (a.least_with_lambdas hreflection hextra ds hbuild hrun').1
  exact (a.least_with_lambdas hreflection hextra ds hbuild hrun).2 _ (hclosed'.of_entries hsub)

/-- If every entry method of one finished run is also one of another, then every fact of the
first run is one of the second; if the entry methods are the same up to order and repetition,
then so are the facts. -/
theorem facts_le_of_entries (hreflection : a.options.reflection = false) (hextra : a.extra = [])
    (hbuild : (Builder.ofList ds).build = .ok p) (hsub : ∀ i ∈ entries, i ∈ entries')
    (hrun : a.runFrom steps p files entries = .finished result)
    (hrun' : a.runFrom steps' p files' entries' = .finished result') :
    result.lambdaFacts.Le result'.lambdaFacts ∧
      ((∀ i ∈ entries', i ∈ entries) → result.lambdaFacts = result'.lambdaFacts) := by
  have hle := facts_le_of_subset ds hreflection hextra hbuild hsub hrun hrun'
  exact ⟨hle, fun hsub' =>
    hle.antisymm (facts_le_of_subset ds hreflection hextra hbuild hsub' hrun' hrun)⟩

/-- The methods of the program with a captured object, in any order and with repetitions, give
the same facts. -/
theorem facts_le_of_entries_capturing :
    let a : Analysis := { options := oneCallSite true false }
    let p := (settingOf Lambda.capturingProgram a.options).program
    ∃ result result', a.runFrom 10 p (fun _ => none) [⟨2⟩, ⟨1⟩] = .finished result ∧
      a.runFrom 10 p (fun _ => none) [⟨1⟩, ⟨2⟩, ⟨1⟩] = .finished result' ∧
      result.lambdaFacts = result'.lambdaFacts := by
  intro a p
  obtain ⟨result, hrun⟩ := Verdict.exists_of_isFinished
    (v := a.runFrom 10 p (fun _ => none) [⟨2⟩, ⟨1⟩]) (by decide +kernel)
  obtain ⟨result', hrun'⟩ := Verdict.exists_of_isFinished
    (v := a.runFrom 10 p (fun _ => none) [⟨1⟩, ⟨2⟩, ⟨1⟩]) (by decide +kernel)
  refine ⟨result, result', hrun, hrun', ?_⟩
  exact (facts_le_of_entries Lambda.capturingProgram rfl rfl
    (Program.build_of_checks (by decide +kernel) (by decide +kernel)) (by decide) hrun hrun').2
    (by decide)

/-! ## Contexts -/

/-- Two analyses differ only in how they choose contexts, and the second one chooses none.  If
both finish, then every fact of the first one, with its contexts forgotten, is a fact of the
second one. -/
theorem facts_le_insensitive (hagree : b.options = { a.options with
      context := .insensitive, k := b.options.k, heapDepth := b.options.heapDepth })
    (hreflection : a.options.reflection = false) (ha : a.extra = []) (hb : b.extra = [])
    (hbuild : (Builder.ofList ds).build = .ok p)
    (hrun : a.runFrom steps p files entries = .finished result)
    (hrun' : b.runFrom steps' p files' entries = .finished result') :
    result.lambdaFacts.Le result'.lambdaFacts.coarsen := by
  have hlambda : b.options.lambda = a.options.lambda := by rw [hagree]
  have hreflection' : b.options.reflection = false := by rw [hagree, hreflection]
  have hcontext : b.options.context = .insensitive := by rw [hagree]
  have hclosed := (b.least_with_lambdas hreflection' hb ds hbuild hrun').1
  rw [hlambda] at hclosed
  exact (a.least_with_lambdas hreflection ha ds hbuild hrun).2 _
    (LambdaFacts.closed_coarsen hclosed hcontext)

/-- What calls on a captured object find under call sites is found without contexts. -/
theorem facts_le_insensitive_capturing :
    let a : Analysis := { options := oneCallSite true false }
    let b : Analysis := { options := { a.options with context := .insensitive, k := 0 } }
    let p := (settingOf Lambda.capturingProgram a.options).program
    ∃ result result', a.runFrom 10 p (fun _ => none) [⟨2⟩] = .finished result ∧
      b.runFrom 10 p (fun _ => none) [⟨2⟩] = .finished result' ∧
      result.lambdaFacts.Le result'.lambdaFacts.coarsen := by
  intro a b p
  obtain ⟨result, hrun⟩ := Verdict.exists_of_isFinished
    (v := a.runFrom 10 p (fun _ => none) [⟨2⟩]) (by decide +kernel)
  obtain ⟨result', hrun'⟩ := Verdict.exists_of_isFinished
    (v := b.runFrom 10 p (fun _ => none) [⟨2⟩]) (by decide +kernel)
  refine ⟨result, result', hrun, hrun', ?_⟩
  exact facts_le_insensitive Lambda.capturingProgram rfl rfl rfl rfl
    (Program.build_of_checks (by decide +kernel) (by decide +kernel)) hrun hrun'

end Analysis

end PointsTo
