import PointsTo.Options.Document

/-!
# Saved options

Options are saved as the text of their document, and restored from a text by reading the
document and turning it into options.  How documents are written and read is left open
here.

Main definitions:

- {lit}`Format`: a way to write documents and to read them.
- {lit}`Format.save`, {lit}`Format.restore`: options written and read.
-/

namespace PointsTo

/-- A way to write documents as texts, and to read them if they are well formed. -/
structure Format where
  write : Document → String
  read? : String → Option Document

namespace Format

/-- The text that options are saved as. -/
def save (F : Format) (o : Options) : String := F.write (.ofOptions o)

/-- The options that a text stands for. -/
def restore (F : Format) (s : String) : Except ConfigError Options :=
  match F.read? s with
  | some d => d.options
  | none => .error .malformedDocument

end Format

end PointsTo
