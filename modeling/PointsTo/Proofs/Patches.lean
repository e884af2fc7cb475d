import PointsTo.Options.Document

/-!
# Patches that reproduce options

A patch is taken from options so that applying it gives these options back.  That works on most
bases, but not on all.  Three options may be unset, and a patch cannot unset them: what it does not
hold is left as the base has it.

Main results:

- {lit}`Options.UnsetWhere`: what some options leave unset is unset in others.
- Theorem {lit}`Patch.apply_ofOptions_iff`: the bases on which options are reproduced, what becomes
  of them on the others, and that no other patch does better.
- Theorem {lit}`Patch.not_reproduced`: a base on which they are not.
-/

namespace PointsTo

/-- What {lit}`o` leaves unset is unset in {lit}`b`, too. -/
structure Options.UnsetWhere (o b : Options) : Prop where
  reflectionLog : o.reflectionLog = none → b.reflectionLog = none
  reflectionInference : o.reflectionInference = none → b.reflectionInference = none
  maxWorkItems : o.maxWorkItems = none → b.maxWorkItems = none

namespace Patch

variable {α : Type} {o b : Options}

/-- A value that may be missing prevails over another if it is there or the other is missing. -/
theorem or_eq_left_iff {x y : Option α} : x.or y = x ↔ (x = none → y = none) := by
  cases x <;> simp

/-- Whatever a patch holds for it, an option that is set in the base stays set. -/
theorem eq_none_of_or_eq {x y z : Option α} (h : x.or y = z) (hz : z = none) : y = none := by
  subst hz
  exact (Option.or_eq_none_iff.1 h).2

/-- Only the options that may be unset are taken from the base, and only if they are unset. -/
theorem apply_ofOptions (o b : Options) : (ofOptions o).apply b =
    { o with
      reflectionLog := o.reflectionLog.or b.reflectionLog
      reflectionInference := o.reflectionInference.or b.reflectionInference
      maxWorkItems := o.maxWorkItems.or b.maxWorkItems } := rfl

theorem apply_ofOptions_eq_self_iff : (ofOptions o).apply b = o ↔ o.UnsetWhere b := by
  rw [apply_ofOptions]
  constructor
  · intro h
    exact ⟨or_eq_left_iff.1 (congrArg Options.reflectionLog h),
      or_eq_left_iff.1 (congrArg Options.reflectionInference h),
      or_eq_left_iff.1 (congrArg Options.maxWorkItems h)⟩
  · rintro ⟨hlog, hinference, hitems⟩
    rw [or_eq_left_iff.2 hlog, or_eq_left_iff.2 hinference, or_eq_left_iff.2 hitems]

/-- Options that some patch makes of a base have set whatever is set in the base. -/
theorem unsetWhere_of_apply {p : Patch} (h : p.apply b = o) : o.UnsetWhere b where
  reflectionLog := eq_none_of_or_eq (congrArg Options.reflectionLog h)
  reflectionInference := eq_none_of_or_eq (congrArg Options.reflectionInference h)
  maxWorkItems := eq_none_of_or_eq (congrArg Options.maxWorkItems h)

/-- The patch that is taken from options reproduces them exactly on the bases in which nothing is
set that they leave unset, and on no other base does any patch.  On any base the result differs from
the options in that alone. -/
theorem apply_ofOptions_iff (o b : Options) :
    ((ofOptions o).apply b = o ↔ o.UnsetWhere b) ∧
      ((∃ p : Patch, p.apply b = o) ↔ o.UnsetWhere b) ∧
      (ofOptions o).apply b =
        { o with
          reflectionLog := o.reflectionLog.or b.reflectionLog
          reflectionInference := o.reflectionInference.or b.reflectionInference
          maxWorkItems := o.maxWorkItems.or b.maxWorkItems } := by
  refine ⟨apply_ofOptions_eq_self_iff, ⟨?_, ?_⟩, apply_ofOptions o b⟩
  · rintro ⟨p, hp⟩
    exact unsetWhere_of_apply hp
  · intro hunset
    exact ⟨ofOptions o, apply_ofOptions_eq_self_iff.2 hunset⟩

/-- The standard options are not reproduced on those of the thorough preset, which names an
inference mode. -/
theorem not_reproduced :
    (ofOptions Options.standard).apply Preset.thorough.options ≠ Options.standard ∧
      ((ofOptions Options.standard).apply Preset.thorough.options).reflectionInference =
        some Inference.stringConstant.text := by
  decide

end Patch

end PointsTo
