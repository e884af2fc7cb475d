import PointsTo.Options.Format
import PointsTo.Yaml.Printer
import PointsTo.Yaml.Reader

/-!
# Options as YAML texts

The YAML form of documents of options.  Every entry of a document may be missing or null,
and then sets nothing; entries of other names, and two entries of one name, are refused.
Where a text is asked for, any scalar will do; where a number or a truth value is asked
for, only a bare one.

Main definitions:

- {lit}`Document.toNode`, {lit}`Document.ofNode?`: the form of a document.
- {lit}`Format.yaml`: documents written and read.
- {lit}`Options.toYaml`, {lit}`Options.ofYaml`: options written and read.
- {lit}`Options.load`: options from the content of a file.
-/

namespace PointsTo

namespace Yaml.Node

variable {α : Type}

/-! ## Values of a kind -/

/-- The text of a scalar. -/
def text? : Node → Option String
  | word w => some w
  | text s => some s
  | _ => none

/-- A whole number below a bound. -/
def nat? (bound : Nat) : Node → Option Nat
  | word w => Word.unsigned? bound w
  | _ => none

def bool? : Node → Option Bool
  | word w => Word.bool? w
  | _ => none

def texts? : Node → Option (List String)
  | list items => items.mapM text?
  | _ => none

/-- A number is written in decimal digits. -/
def nat (n : Nat) : Node := word (toString n)

def bool (b : Bool) : Node := word (if b then "true" else "false")

def texts (l : List String) : Node := list (l.map text)

/-- A null stands for no value, anything else for what it is read as. -/
def nullable (read : Node → Option α) : Node → Option (Option α)
  | word w => if Word.isNull w then some none else (read (word w)).map some
  | x => (read x).map some

/-! ## Entries of a map -/

/-- The value of an entry that may be missing. -/
def lookUp? (entries : List (String × Node)) (name : String) (read : Node → Option α) :
    Option (Option α) :=
  match entries.lookup name with
  | none => some none
  | some x => nullable read x

/-- An entry for a value, if there is one. -/
def entry (name : String) (write : α → Node) : Option α → List (String × Node)
  | some a => [(name, write a)]
  | none => []

/-- The entries of a map that has no others than the named ones, and none twice. -/
def entries? (names : List String) : Node → Option (List (String × Node))
  | map entries =>
    let found := entries.map Prod.fst
    if found.all names.contains && decide found.Nodup then some entries else none
  | _ => none

end Yaml.Node

open Yaml (Node)

/-! ## Documents -/

namespace Patch

/-- The names of the options. -/
def names : List String :=
  ["context", "k", "heap_depth", "reflection_log", "reflection_inference", "lambda",
    "reflection", "max_work_items", "entry_methods"]

/-- The entries of what a patch sets. -/
def toNode (p : Patch) : Node :=
  .map <| Node.entry "context" (fun s => .text s.text) p.context
    ++ Node.entry "k" Node.nat p.k
    ++ Node.entry "heap_depth" Node.nat p.heapDepth
    ++ Node.entry "reflection_log" Node.text p.reflectionLog
    ++ Node.entry "reflection_inference" Node.text p.reflectionInference
    ++ Node.entry "lambda" Node.bool p.lambda
    ++ Node.entry "reflection" Node.bool p.reflection
    ++ Node.entry "max_work_items" Node.nat p.maxWorkItems
    ++ Node.entry "entry_methods" Node.texts p.entryMethods

/-- Reads a patch, and refuses names that are not expected. -/
def ofNode? (x : Node) : Option Patch := do
  let entries ← Node.entries? names x
  return {
    context := ← Node.lookUp? entries "context" fun x => x.text?.bind Strategy.ofText?
    k := ← Node.lookUp? entries "k" (Node.nat? bound64)
    heapDepth := ← Node.lookUp? entries "heap_depth" (Node.nat? bound64)
    reflectionLog := ← Node.lookUp? entries "reflection_log" Node.text?
    reflectionInference := ← Node.lookUp? entries "reflection_inference" Node.text?
    lambda := ← Node.lookUp? entries "lambda" Node.bool?
    reflection := ← Node.lookUp? entries "reflection" Node.bool?
    maxWorkItems := ← Node.lookUp? entries "max_work_items" (Node.nat? bound64)
    entryMethods := ← Node.lookUp? entries "entry_methods" Node.texts? }

end Patch

namespace Document

/-- The names of the parts of a document. -/
def names : List String := ["version", "preset", "pta"]

/-- The version is written in any case, as null if there is none. -/
def toNode (d : Document) : Node :=
  .map <| ("version", (d.version.map Node.nat).getD (.word "null"))
    :: Node.entry "preset" Node.text d.preset
    ++ Node.entry "pta" Patch.toNode d.patch

/-- An empty text is an empty document. -/
def ofNode? (x : Node) : Option Document :=
  match x with
  | .word "" => some {}
  | x => do
    let entries ← Node.entries? names x
    return {
      version := ← Node.lookUp? entries "version" (Node.nat? bound32)
      preset := ← Node.lookUp? entries "preset" Node.text?
      patch := ← Node.lookUp? entries "pta" Patch.ofNode? }

/-- The text of a document. -/
def toYaml (d : Document) : String := d.toNode.render

/-- Reads a document from a text. -/
def ofYaml? (s : String) : Option Document := (Node.read? s).bind ofNode?

end Document

/-! ## Options -/

/-- Documents as YAML texts. -/
def Format.yaml : Format where
  write := Document.toYaml
  read? := Document.ofYaml?

namespace Options

/-- The text that options are saved as. -/
def toYaml (o : Options) : String := Format.yaml.save o

/-- The options that a text stands for. -/
def ofYaml (s : String) : Except ConfigError Options := Format.yaml.restore s

/-- Options in a file, given its content if it can be read. -/
def load : Option String → Except ConfigError Options
  | some content => ofYaml content
  | none => .error .unreadable

end Options

end PointsTo
