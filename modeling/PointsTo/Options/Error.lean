import PointsTo.Text.EditDistance

/-!
# Errors of the configuration

The ways in which options, presets and option documents are refused, and what is
said about each.
-/

namespace PointsTo

/-- Why a configuration is refused. -/
inductive ConfigError where
  /-- A number lies outside the range of its field. -/
  | range (field value min max hint : String)
  /-- No inference mode has this name; the nearest one is suggested. -/
  | unknownInference (value : String) (closest : Option String)
  /-- A log was given together with an inference mode that excludes it. -/
  | conflictingModels (log inference : String)
  | unknownPreset (name : String)
  | missingVersion
  | unsupportedVersion (found : Nat) (supported : List Nat)
  /-- The document could not be read from its file. -/
  | unreadable
  /-- The text is not a document of options. -/
  | malformedDocument
deriving DecidableEq

namespace ConfigError

/-- An unknown mode, with the nearest of the valid names as the suggestion. -/
def unknownInferenceOf (value : String) (valid : List String) : ConfigError :=
  unknownInference value (EditDistance.closest? value valid)

/-- The advice that ends the message about an unknown mode. -/
def suggestion : Option String → String
  | some closest => "Did you mean '" ++ closest ++ "'?"
  | none => "No valid values available"

/-- What is said about an error. -/
def message : ConfigError → String
  | range field value min max hint =>
    "Invalid range for field '" ++ field ++ "': " ++ value ++ " not in " ++ min ++ "..=" ++ max
      ++ ". " ++ hint
  | unknownInference value closest =>
    "Unknown reflection inference '" ++ value ++ "'. " ++ suggestion closest
  | conflictingModels log inference =>
    "Reflection log '" ++ log ++ "' cannot be combined with reflection inference '" ++ inference
      ++ "'. Fix: drop one of them"
  | unknownPreset name =>
    "Unknown preset '" ++ name ++ "'. Valid presets: fast, balanced, thorough"
  | missingVersion =>
    "Missing 'version' field in configuration file. "
      ++ "Add 'version: 1' to the top of your YAML file."
  | unsupportedVersion found supported =>
    "Unsupported configuration version " ++ toString found ++ ". Supported versions: "
      ++ ", ".intercalate (supported.map toString)
  | unreadable => "IO error: the file cannot be read"
  | malformedDocument => "YAML parsing error: the text is not a document of options"

end ConfigError

end PointsTo
