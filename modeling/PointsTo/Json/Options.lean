import PointsTo.Json.Codec
import PointsTo.Options.Document

/-!
# The JSON forms of options

Options, patches and documents of options.  None of these records lets a member of
another name pass.
-/

namespace PointsTo.Codec

open Fields

def strategy : Codec Strategy := named (Strategy.all.map fun s => (s.text, s))

def preset : Codec Preset := named (Preset.all.map fun p => (p.text, p))

/-- Options that are absent have their standard values. -/
def options : Codec Options := recordWith { closed := true, short := true } <|
  Options.mk <$> defaulted "context" (·.context) strategy Options.standard.context
    <*> defaulted "k" (·.k) nat64 Options.standard.k
    <*> defaulted "heap_depth" (·.heapDepth) nat64 Options.standard.heapDepth
    <*> omitted "reflection_log" (·.reflectionLog) string
    <*> omitted "reflection_inference" (·.reflectionInference) string
    <*> defaulted "lambda" (·.lambda) bool Options.standard.lambda
    <*> defaulted "reflection" (·.reflection) bool Options.standard.reflection
    <*> optional "max_work_items" (·.maxWorkItems) nat64
    <*> defaulted "entry_methods" (·.entryMethods) (list string) Options.standard.entryMethods

def patch : Codec Patch := closedRecord <|
  Patch.mk <$> omitted "context" (·.context) strategy
    <*> omitted "k" (·.k) nat64
    <*> omitted "heap_depth" (·.heapDepth) nat64
    <*> omitted "reflection_log" (·.reflectionLog) string
    <*> omitted "reflection_inference" (·.reflectionInference) string
    <*> omitted "lambda" (·.lambda) bool
    <*> omitted "reflection" (·.reflection) bool
    <*> omitted "max_work_items" (·.maxWorkItems) nat64
    <*> omitted "entry_methods" (·.entryMethods) (list string)

def document : Codec Document := closedRecord <|
  Document.mk <$> optional "version" (·.version) nat32
    <*> omitted "preset" (·.preset) string
    <*> omitted "pta" (·.patch) patch

end PointsTo.Codec
