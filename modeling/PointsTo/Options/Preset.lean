import PointsTo.Options

/-!
# Presets

Three sets of options under a name, from the fastest to the most precise.
-/

namespace PointsTo

/-- A named set of options. -/
inductive Preset where
  | fast
  | balanced
  | thorough
deriving DecidableEq

namespace Preset

/-- All presets, from the fastest on. -/
def all : List Preset := [fast, balanced, thorough]

/-- The preset in force when none is named. -/
def standard : Preset := balanced

def text : Preset → String
  | fast => "fast"
  | balanced => "balanced"
  | thorough => "thorough"

/-- The preset with exactly this written form. -/
def ofText? (s : String) : Option Preset := all.find? fun p => p.text == s

/-- The preset of a name in upper or lower case.  Names are made of ASCII
letters, and no other character has one of theirs as its lower case. -/
def parse (name : String) : Except ConfigError Preset :=
  match ofText? name.toLower with
  | some p => .ok p
  | none => .error (.unknownPreset name)

/-- The options of a preset. -/
def options : Preset → Options
  | fast =>
    { context := .insensitive
      k := 0
      heapDepth := 0
      reflectionLog := none
      reflectionInference := none
      lambda := true
      reflection := false
      maxWorkItems := some 1000000
      entryMethods := [] }
  | balanced =>
    { context := .callSite
      k := 1
      heapDepth := 0
      reflectionLog := none
      reflectionInference := none
      lambda := true
      reflection := true
      maxWorkItems := none
      entryMethods := [] }
  | thorough =>
    { context := .object
      k := 2
      heapDepth := 1
      reflectionLog := none
      reflectionInference := some Inference.stringConstant.text
      lambda := true
      reflection := true
      maxWorkItems := none
      entryMethods := [] }

/-- The name of a preset is read as that preset. -/
@[simp] theorem ofText?_text (p : Preset) : ofText? p.text = some p := by
  cases p <;> decide

/-- The options of every preset are valid. -/
theorem validate_options (p : Preset) : p.options.validate = .ok () := by
  cases p <;> rfl

end Preset

/-- The options in force when nothing is said. -/
def Options.standard : Options := Preset.standard.options

instance : Inhabited Options := ⟨Options.standard⟩

end PointsTo
