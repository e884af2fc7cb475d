import PointsTo.Options.Patch

/-!
# Documents of options

What is kept in a file of options: the version of its format, the preset to start
from, and a patch on it.  A document is turned into options in this order: its
version is checked, the preset is looked up, the patch is applied, and the options
that result are validated.

Main statement: {lit}`options_ofOptions`, by which the document of some options
stands for these options, if they are valid.
-/

namespace PointsTo

/-- The content of a file of options. -/
structure Document where
  version : Option Nat := none
  preset : Option String := none
  patch : Option Patch := none
deriving DecidableEq, Inhabited

namespace Document

/-- The versions that are understood. -/
def supportedVersions : List Nat := [1]

/-- The version is named and understood. -/
def checkVersion (d : Document) : Except ConfigError Unit :=
  match d.version with
  | none => .error .missingVersion
  | some v =>
    if v ∈ supportedVersions then .ok () else .error (.unsupportedVersion v supportedVersions)

/-- The options that the patch is applied to. -/
def base (d : Document) : Except ConfigError Options :=
  match d.preset with
  | some name => (Preset.parse name).map Preset.options
  | none => .ok Options.standard

/-- The options that a document stands for. -/
def options (d : Document) : Except ConfigError Options := do
  d.checkVersion
  let base ← d.base
  let options := (d.patch.getD {}).apply base
  options.validate
  return options

/-- The document that sets everything that is set in some options. -/
def ofOptions (o : Options) : Document :=
  { version := some 1, patch := some (.ofOptions o) }

/-- What some options leave unset is not set by default either. -/
theorem apply_ofOptions_standard (o : Options) :
    (Patch.ofOptions o).apply Options.standard = o := by
  cases o
  simp [Patch.ofOptions, Patch.apply, Options.standard, Preset.standard, Preset.options]

/-- The document of some options stands for them if they are valid, and fails as they
do if they are not. -/
theorem options_ofOptions (o : Options) :
    (ofOptions o).options = o.validate.map fun _ => o := by
  have h : (ofOptions o).options =
      ((Patch.ofOptions o).apply Options.standard).validate.map
        fun _ => (Patch.ofOptions o).apply Options.standard := rfl
  rw [h, apply_ofOptions_standard]

end Document

end PointsTo
