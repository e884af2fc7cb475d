import PointsTo.Options.Error
import PointsTo.Stmt

/-!
# Errors of an analysis

Why building a program, reading a log or running an analysis stops, and what is
said about it.
-/

namespace PointsTo

/-- Why an analysis stops without an answer. -/
inductive Error where
  /-- A lambda is implemented through a handle that is not a call. -/
  | unsupportedHandle (kind : HandleKind) (target : String)
  | config (e : ConfigError)
  /-- A line of a reflection log is malformed; lines are counted from one. -/
  | logLine (line : Nat) (reason : String)
  /-- The options name an entry method that the program does not have. -/
  | unknownEntry (signature : String)
  /-- More work items than the options allow. -/
  | budget (limit : Nat)
  /-- A statement uses a variable that was never created. -/
  | danglingVariable (v : VarId)
  /-- A program is refused for another reason, which a client states. -/
  | program (reason : String)
  /-- A table is full. -/
  | capacity (what : String)
  /-- A reflection log could not be read from its file. -/
  | unreadable
deriving DecidableEq

namespace Error

/-- What is said about an error. -/
def message : Error → String
  | unsupportedHandle kind target =>
    "Unsupported method handle kind " ++ kind.text ++ " for target " ++ target
  | config e => "Configuration error: " ++ e.message
  | logLine line reason => "Reflection log error at line " ++ toString line ++ ": " ++ reason
  | unknownEntry signature => "Unknown entry method: " ++ signature
  | budget limit =>
    "Work budget of " ++ toString limit ++ " items exhausted before fixpoint"
  | danglingVariable v => "Program error: dangling variable " ++ v.text
  | program reason => "Program error: " ++ reason
  | capacity what => "Too many " ++ what ++ " for 32-bit ids"
  | unreadable => "IO error: the file cannot be read"

end Error

/-- The position of the next entry of a table with {lit}`size` entries, if a
32-bit number can still address it. -/
def nextIndex (size : Nat) (what : String) : Except Error Nat :=
  if size < idBound then .ok size else .error (.capacity what)

end PointsTo
