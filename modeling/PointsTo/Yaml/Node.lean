/-!
# YAML values

The values that a YAML text stands for, as far as they are needed here: scalars, lists
and maps.  A scalar that is written bare is a word, which may be read as a number, as a
truth value, as null or as the text that it is.  A scalar in quotes is a text and
nothing else.
-/

namespace PointsTo.Yaml

/-- A YAML value.  The entries of a map keep their order. -/
inductive Node where
  | word (w : String)
  | text (s : String)
  | list (items : List Node)
  | map (entries : List (String × Node))
deriving Inhabited

end PointsTo.Yaml
