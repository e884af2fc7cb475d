import PointsTo.Yaml.Cursor
import PointsTo.Yaml.Node

/-!
# Reading scalars

Bare words, quoted texts and blocks of lines.  A scalar may go on over several lines;
only one that does not can be the key of an entry.

Main definitions:

- {lit}`Scalar.read?`: a bare or quoted scalar.
- {lit}`Scalar.colon?`: the colon that makes a scalar a key.
- {lit}`readBlock?`: a block of lines.
-/

namespace PointsTo.Yaml

/-- A scalar that was read. -/
structure Scalar where
  node : Node
  text : List Char
  /-- It goes on over several lines, or only a new line ends it. -/
  broken : Bool
  next : Cursor

/-- Characters, whether there was a line end among them, and where they end. -/
abbrev Run := List Char × Bool × Cursor

/-! ## Bare words -/

/-- A bare word can begin here. -/
def beginsBare (inBrackets : Bool) : List Char → Bool
  | [] => false
  | c :: cs =>
    if isBlank c || isBreak c then false
    else if c = '-' then !atWordEnd cs
    else if c = '?' ∨ c = ':' then !inBrackets && !atWordEnd cs
    else !indicators.contains c

/-- The characters that end a word in brackets. -/
def brackets : List Char := [',', '[', ']', '\x7b', '\x7d']

/-- The word that begins here, and what follows.  In brackets no colon stands between a
word and one of their marks. -/
def bareRun (inBrackets : Bool) : List Char → Option (List Char × List Char)
  | [] => some ([], [])
  | c :: cs =>
    if isBlank c || isBreak c || (c == ':' && atWordEnd cs) then some ([], c :: cs)
    else if inBrackets && c == ':' && cs.head?.any fun d => ('?' :: brackets).contains d then none
    else if inBrackets && brackets.contains c then some ([], c :: cs)
    else (bareRun inBrackets cs).map fun (run, rest) => (c :: run, rest)

/-- Words that make up one scalar, from here on.  Outside of brackets each line of it goes
at least to column {lit}`floor`. -/
def bareFrom (inBrackets : Bool) (floor : Nat) : Nat → Cursor → Option Run
  | 0, _ => none
  | fuel + 1, c =>
    if c.isMark || c.rest.head? == some '#' then some ([], false, c)
    else do
      let (run, rest) ← bareRun inBrackets c.rest
      if run.isEmpty then return ([], false, c)
      let (gap, next) ← (c.goTo rest).gap floor
      if gap.blanks.isEmpty && !gap.isBroken then return (run, false, next)
      if !inBrackets && next.column < floor then return (run, gap.isBroken, next)
      let (more, broken, last) ← bareFrom inBrackets floor fuel next
      if more.isEmpty then return (run, gap.isBroken, last)
      return (run ++ gap.text ++ more, gap.isBroken || broken, last)

/-! ## Quoted texts -/

/-- The character that a code stands for. -/
def charOf? (n : Nat) : Option Char :=
  if h : n.isValidChar then some (Char.ofNatAux n h) else none

/-- The character of an escape that is written with a number of digits. -/
def numbered? (width : Nat) (cs : List Char) : Option (Char × List Char) := do
  if cs.length < width then none
  let n ← digitsIn? 16 (cs.take width)
  return (← charOf? n, cs.drop width)

/-- The character of the escape that follows a backslash. -/
def escaped? : List Char → Option (Char × List Char)
  | 'x' :: cs => numbered? 2 cs
  | 'u' :: cs => numbered? 4 cs
  | 'U' :: cs => numbered? 8 cs
  | ' ' :: cs => some (' ', cs)
  | '/' :: cs => some ('/', cs)
  | '\t' :: cs => some ('\t', cs)
  | letter :: cs =>
    (escapes.find? fun e => e.2 == letter).map fun e => (e.1, cs)
  | [] => none

/-- White space in quotes, which must not reach the end of the document. -/
def quotedGap (c : Cursor) : Option (Gap × Cursor) := do
  let (gap, next) ← c.gap 0
  if next.isMark then none else some (gap, next)

/-- A text from behind its opening quote on. -/
def quotedFrom (double : Bool) : Nat → Cursor → Option Run
  | 0, _ => none
  | fuel + 1, c =>
    let add (cs : List Char) (broken : Bool) (next : Cursor) : Option Run :=
      (quotedFrom double fuel next).map fun (more, b, last) => (cs ++ more, broken || b, last)
    match c.rest with
    | [] => none
    | '\'' :: cs =>
      if double then add ['\''] false (c.advance 1)
      else
        match cs with
        | '\'' :: _ => add ['\''] false (c.advance 2)
        | _ => some ([], false, c.advance 1)
    | '"' :: _ =>
      if double then some ([], false, c.advance 1) else add ['"'] false (c.advance 1)
    | a :: cs =>
      if isBlank a || isBreak a then do
        let (gap, next) ← quotedGap c
        add gap.text gap.isBroken next
      else if double && a == '\\' then
        if cs.head?.any isBreak then do
          let (gap, next) ← quotedGap (c.advance 1)
          add (gap.breaks.drop 1) true next
        else do
          let (e, rest) ← escaped? cs
          add [e] false (c.goTo rest)
      else add [a] false (c.advance 1)

/-! ## Scalars -/

namespace Scalar

/-- A bare or quoted scalar. -/
def read? (inBrackets : Bool) (floor : Nat) (c : Cursor) : Option Scalar :=
  let fuel := c.rest.length + 1
  let quoted (double : Bool) : Option Scalar :=
    (quotedFrom double fuel (c.advance 1)).map fun (text, broken, next) =>
      { node := .text (String.ofList text), text, broken, next }
  match c.rest with
  | '\'' :: _ => quoted false
  | '"' :: _ => quoted true
  | _ =>
    if beginsBare inBrackets c.rest then
      (bareFrom inBrackets floor fuel c).map fun (text, broken, next) =>
        { node := .word (String.ofList text), text, broken, next }
    else none

/-- A key and its colon are no longer than this. -/
def keyLimit : Nat := 1024

/-- Where the value begins, if a colon behind the scalar that begins at {lit}`start` makes
it a key. -/
def colon? (s : Scalar) (inBrackets : Bool) (start : Cursor) : Option Cursor :=
  let c := s.next.skipBlanks
  match c.rest with
  | ':' :: cs =>
    if !s.broken && (inBrackets || atWordEnd cs) && start.rest.length ≤ c.rest.length + keyLimit
    then some (c.advance 1)
    else none
  | _ => none

/-- The name that a scalar is as a key. -/
def name (s : Scalar) : String := String.ofList s.text

end Scalar

/-! ## Blocks of lines -/

/-- What is kept of the line ends behind a block. -/
inductive Chomp where
  | strip
  | clip
  | keep
deriving DecidableEq

/-- What stands behind the bar of a block: what is kept at its end, and how far it is
indented. -/
def blockHeader? : List Char → Option (Chomp × Option Nat × List Char)
  | '-' :: cs => withDigit .strip cs
  | '+' :: cs => withDigit .keep cs
  | d :: '-' :: cs => if d.isDigit then digit .strip d cs else some (.clip, none, d :: '-' :: cs)
  | d :: '+' :: cs => if d.isDigit then digit .keep d cs else some (.clip, none, d :: '+' :: cs)
  | cs => withDigit .clip cs
where
  /-- A block is indented by at least one column. -/
  digit (chomp : Chomp) (d : Char) (rest : List Char) : Option (Chomp × Option Nat × List Char) :=
    if d = '0' then none else some (chomp, digitIn? 10 d, rest)
  withDigit (chomp : Chomp) : List Char → Option (Chomp × Option Nat × List Char)
    | d :: cs => if d.isDigit then digit chomp d cs else some (chomp, none, d :: cs)
    | [] => some (chomp, none, [])

/-- Nothing but blanks and a comment stands on the rest of the line; what follows it. -/
def restOfLine? (cs : List Char) : Option (List Char) :=
  let cs := cs.dropWhile isBlank
  let cs := if cs.head? = some '#' then cs.dropWhile fun c => !isBreak c else cs
  match cs with
  | [] => some []
  | c :: cs => if isBreak c then some cs else none

/-- Empty lines, and the beginning of the line after them. -/
structure Margin where
  breaks : List Char
  /-- The greatest number of blanks that a line begins with. -/
  widest : Nat
  column : Nat
  rest : List Char

/-- Empty lines from here on, with the blanks of the next line up to column {lit}`limit`, if
there is one.  Tabs are no part of an indentation. -/
def marginFrom (limit : Option Nat) (column widest : Nat) (breaks : List Char) :
    List Char → Option Margin
  | [] => some ⟨breaks, max widest column, column, []⟩
  | c :: cs =>
    let inside := limit.all fun l => decide (column < l)
    if c = ' ' ∧ inside = true then marginFrom limit (column + 1) widest breaks cs
    else if c = '\t' ∧ inside = true then none
    else if isBreak c then marginFrom limit 0 (max widest column) (breaks ++ [c]) cs
    else some ⟨breaks, max widest column, column, c :: cs⟩

/-- The lines of a block that is indented by {lit}`indent`; {lit}`ending` is the line end
before the next of them. -/
def blockLines (indent : Nat) (chomp : Chomp) :
    Nat → (ending : List Char) → Margin → Option (List Char × Cursor)
  | 0, _, _ => none
  | fuel + 1, ending, m =>
    if m.column = indent ∧ m.rest ≠ [] then do
      let line := m.rest.takeWhile fun c => !isBreak c
      let behind := m.rest.dropWhile fun c => !isBreak c
      let next ← marginFrom (some indent) 0 0 [] (behind.drop 1)
      let (more, last) ← blockLines indent chomp fuel (behind.take 1) next
      return (ending ++ m.breaks ++ line ++ more, last)
    else
      let kept :=
        match chomp with
        | .strip => []
        | .clip => ending
        | .keep => ending ++ m.breaks
      some (kept, ⟨m.rest, m.column, true⟩)

/-- A block of lines, from its bar on.  It stands in a collection whose entries begin left
of column {lit}`floor`, and is indented at least that far. -/
def readBlock? (floor : Nat) (c : Cursor) : Option (Node × Cursor) := do
  let (chomp, depth, rest) ← blockHeader? (c.rest.drop 1)
  let rest ← restOfLine? rest
  let limit := depth.map fun d => floor - 1 + d
  let m ← marginFrom limit 0 0 [] rest
  let indent := limit.getD (max m.widest (max floor 1))
  let (text, next) ← blockLines indent chomp (rest.length + 1) [] m
  return (.text (String.ofList text), next)

end PointsTo.Yaml
