import PointsTo.Yaml.Node
import PointsTo.Yaml.Style

/-!
# Writing YAML

Maps and lists are written in block form, one entry a line, and in flow form when they
are empty.  Entries of an inner map are indented by two places; the dashes of a list
stand below the key that it belongs to.
-/

namespace PointsTo.Yaml

/-- The beginning of a line. -/
def margin (indent : Nat) : List Char := List.replicate indent ' '

namespace Node

mutual

/-- A value behind a key whose entry is indented by {lit}`indent`. -/
def writeValue (indent : Nat) : Node → List Char
  | word w => ' ' :: w.toList ++ ['\n']
  | text s => ' ' :: writeText (indent + 2) s
  | list [] => " []\n".toList
  | list (x :: xs) => '\n' :: margin indent ++ writeItems indent (x :: xs)
  | map [] => " \x7b\x7d\n".toList
  | map (e :: es) => '\n' :: margin (indent + 2) ++ writeEntries (indent + 2) (e :: es)

/-- A value behind a dash that is indented by {lit}`indent`. -/
def writeItem (indent : Nat) : Node → List Char
  | word w => ' ' :: w.toList ++ ['\n']
  | text s => ' ' :: writeText (indent + 2) s
  | list [] => " []\n".toList
  | list (x :: xs) => ' ' :: writeItems (indent + 2) (x :: xs)
  | map [] => " \x7b\x7d\n".toList
  | map (e :: es) => ' ' :: writeEntries (indent + 2) (e :: es)

/-- The items of a list; the first begins where the text has got to. -/
def writeItems (indent : Nat) : List Node → List Char
  | [] => []
  | [x] => '-' :: writeItem indent x
  | x :: xs => '-' :: writeItem indent x ++ margin indent ++ writeItems indent xs

/-- The entries of a map; the first begins where the text has got to. -/
def writeEntries (indent : Nat) : List (String × Node) → List Char
  | [] => []
  | [(key, x)] => key.toList ++ ':' :: writeValue indent x
  | (key, x) :: es =>
    key.toList ++ ':' :: writeValue indent x ++ margin indent ++ writeEntries indent es

end

/-- The text of a value; keys are taken to be plain words. -/
def render : Node → String
  | word w => w ++ "\n"
  | text s => String.ofList (writeText 2 s)
  | list [] => "[]\n"
  | list (x :: xs) => String.ofList (writeItems 0 (x :: xs))
  | map [] => "\x7b\x7d\n"
  | map (e :: es) => String.ofList (writeEntries 0 (e :: es))

end Node

end PointsTo.Yaml
