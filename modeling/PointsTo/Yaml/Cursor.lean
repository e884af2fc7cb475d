import PointsTo.Yaml.Character

/-!
# Positions in a YAML text

Reading goes through the characters of a text from left to right.  What is found at a
position may depend on its column and on whether an entry of a map or a list can begin
there, so a cursor knows these beside the characters that are left.

Main definitions:

- {lit}`Cursor`, {lit}`Cursor.skip`: go on to the next word.
- {lit}`Gap`, {lit}`Cursor.gap`: the white space inside a scalar of several lines.
-/

namespace PointsTo.Yaml

/-- A position in a text. -/
structure Cursor where
  rest : List Char
  column : Nat := 0
  /-- An entry may begin here: nothing else stands before it on its line than blanks and
  dashes of lists. -/
  atStart : Bool := true

/-- White space between two runs of characters: the blanks before the first line end, and
all line ends. -/
structure Gap where
  blanks : List Char := []
  breaks : List Char := []

/-- What white space inside a scalar stands for: blanks for themselves, a single line feed
for a space, and of several the first for nothing. -/
def Gap.text (g : Gap) : List Char :=
  match g.breaks with
  | [] => g.blanks
  | ['\n'] => [' ']
  | '\n' :: more => more
  | breaks => breaks

/-- The gap has a line end. -/
def Gap.isBroken (g : Gap) : Bool := !g.breaks.isEmpty

namespace Cursor

/-- Pass over some characters, none of which ends a line. -/
def advance (c : Cursor) (n : Nat) : Cursor :=
  { rest := c.rest.drop n, column := c.column + n, atStart := false }

/-- Go on to where {lit}`rest` begins, on the same line. -/
def goTo (c : Cursor) (rest : List Char) : Cursor := c.advance (c.rest.length - rest.length)

/-- A mark before or behind a document stands here. -/
def isMark (c : Cursor) : Bool :=
  c.column == 0 &&
    match c.rest with
    | '-' :: '-' :: '-' :: cs => atWordEnd cs
    | '.' :: '.' :: '.' :: cs => atWordEnd cs
    | _ => false

/-- The document ends here. -/
def atEnd (c : Cursor) : Bool := c.rest.isEmpty || c.isMark

/-- The dash of a list item stands here. -/
def isDash (c : Cursor) : Bool :=
  match c.rest with
  | '-' :: cs => atWordEnd cs
  | _ => false

/-- Pass over blanks, comments and line ends.  Outside of brackets a new line can begin an
entry, and where an entry can begin there are no tabs. -/
def skipFrom (inBrackets : Bool) (comment atStart : Bool) (column : Nat) : List Char → Cursor
  | [] => ⟨[], column, atStart⟩
  | c :: cs =>
    if isBreak c then skipFrom inBrackets false (atStart || !inBrackets) 0 cs
    else if comment then skipFrom inBrackets true atStart (column + 1) cs
    else if c = ' ' ∨ (c = '\t' ∧ (inBrackets || !atStart) = true) then
      skipFrom inBrackets false atStart (column + 1) cs
    else if c = '#' then skipFrom inBrackets true atStart (column + 1) cs
    else ⟨c :: cs, column, atStart⟩

/-- The cursor behind white space and comments. -/
def skip (c : Cursor) (inBrackets : Bool) : Cursor :=
  skipFrom inBrackets false c.atStart c.column c.rest

/-- Pass over blanks on the line. -/
def skipBlanks (c : Cursor) : Cursor := c.goTo (c.rest.dropWhile isBlank)

/-- The white space from here on.  A tab on a new line must not stand left of column
{lit}`floor`. -/
def gapFrom (floor column : Nat) (g : Gap) : List Char → Option (Gap × Cursor)
  | [] => some (g, ⟨[], column, g.isBroken⟩)
  | c :: cs =>
    if isBreak c then gapFrom floor 0 { g with breaks := g.breaks ++ [c] } cs
    else if isBlank c then
      if !g.isBroken then gapFrom floor (column + 1) { g with blanks := g.blanks ++ [c] } cs
      else if c = '\t' ∧ column < floor then none
      else gapFrom floor (column + 1) g cs
    else some (g, ⟨c :: cs, column, g.isBroken⟩)

/-- The white space at the cursor, and the cursor behind it. -/
def gap (c : Cursor) (floor : Nat) : Option (Gap × Cursor) := gapFrom floor c.column {} c.rest

end Cursor

end PointsTo.Yaml
