import PointsTo.Error
import PointsTo.Reflection.Api
import PointsTo.Text.Blank
import PointsTo.Text.Decimal

/-!
# Reflection logs

The record of a run of the program: one line per reflective call, with the name of
the call, its target, the calling method and the source line, separated by
semicolons.  Blank lines and lines that begin with {lit}`#` say nothing.

Main definitions:

- {lit}`LogEntry.parse`: one line.
- {lit}`Log.parse`: a whole log, or its first malformed line.
-/

namespace PointsTo.Reflection

/-- What one line of a log reports. -/
structure LogEntry where
  api : Api
  target : String
  caller : String
  line : Option Nat
deriving DecidableEq

/-- What is wrong with a line of a log. -/
inductive LogFault where
  | fieldCount (found : Nat)
  | unknownApi (name : String)
  | emptyField
  | invalidLine (text : String)
deriving DecidableEq

def LogFault.message : LogFault → String
  | fieldCount found => "expected 4 fields, found " ++ toString found
  | unknownApi name => "unknown reflective API '" ++ name ++ "'"
  | emptyField => "empty target or caller"
  | invalidLine text => "invalid line number '" ++ text ++ "'"

namespace LogEntry

/-- The source line of an entry; nothing and minus one both stand for none. -/
def parseLine (text : String) : Except LogFault (Option Nat) :=
  if text = "" ∨ text = "-1" then .ok none
  else
    match Text.unsigned? idBound text with
    | some n => .ok (some n)
    | none => .error (.invalidLine text)

/-- An entry from its four fields. -/
def ofFields (api target caller line : String) : Except LogFault LogEntry :=
  match Api.ofLogName? api with
  | none => .error (.unknownApi api)
  | some api =>
    if target = "" ∨ caller = "" then .error .emptyField
    else (parseLine line).map fun line => { api, target, caller, line }

/-- The entry of a line; blank lines and comments have none. -/
def parse (raw : String) : Except LogFault (Option LogEntry) :=
  let text := Text.trim raw
  if text = "" ∨ text.toList.head? = some '#' then .ok none
  else
    match (Text.pieces ';' text).map Text.trim with
    | [api, target, caller, line] => (ofFields api target caller line).map some
    | fields => .error (.fieldCount fields.length)

/-- The line that reports an entry. -/
def text (e : LogEntry) : String :=
  e.api.logName ++ ";" ++ e.target ++ ";" ++ e.caller ++ ";" ++
    match e.line with
    | some n => toString n
    | none => ""

end LogEntry

namespace Log

/-- Line number {lit}`n` of a log, a malformed one with its number. -/
def parseNumbered (n : Nat) (raw : String) : Except Error (Option LogEntry) :=
  (LogEntry.parse raw).mapError fun fault => .logLine n fault.message

/-- The entries of the lines from number {lit}`n` on. -/
def parseFrom (n : Nat) : List String → Except Error (List LogEntry)
  | [] => .ok []
  | raw :: rest => do
    let entry ← parseNumbered n raw
    let entries ← parseFrom (n + 1) rest
    return entry.toList ++ entries

/-- The entries of a log in the order of its lines, which are counted from one. -/
def parse (content : String) : Except Error (List LogEntry) :=
  parseFrom 1 (Text.pieces '\n' content)

end Log

end PointsTo.Reflection
