import PointsTo.Yaml.Word

/-!
# Writing texts

A text has up to four written forms.  It is written bare if it is read back as itself
then, in single quotes if that is needed, as a block of lines if it has several lines,
and in double quotes with escapes if nothing else can hold it.

Main definitions:

- {lit}`Style`, {lit}`styleOf`: the form of a text.
- {lit}`writeText`: the written text up to the end of its line.
-/

namespace PointsTo.Yaml

/-- The written forms of a text. -/
inductive Style where
  | bare
  | single
  | double
  | block
deriving DecidableEq

/-! ## Choosing a form -/

/-- Somewhere a character of one kind is followed by one of another. -/
def hasPair (p q : Char → Bool) : List Char → Bool
  | a :: b :: cs => (p a && q b) || hasPair p q (b :: cs)
  | _ => false

def isSpace (c : Char) : Bool := c == ' '

/-- Somewhere a colon ends a word, or a number sign begins one. -/
def hasMark (afterBlank : Bool) : List Char → Bool
  | [] => false
  | c :: cs =>
    (c == ':' && atWordEnd cs) || (c == '#' && afterBlank) ||
      hasMark (isBlank c || isBreak c) cs

/-- The beginning would be taken for something else than a word: a mark between documents,
an indicator, or a lone dash, question mark or colon. -/
def beginsOddly : List Char → Bool
  | '-' :: '-' :: '-' :: _ => true
  | '.' :: '.' :: '.' :: _ => true
  | c :: cs =>
    if c = '-' ∨ c = '?' ∨ c = ':' then atWordEnd cs else indicators.contains c
  | [] => false

/-- All characters can be written as they are, and no line ends with a blank. -/
def isClean (cs : List Char) : Bool := cs.all isPrintable && !hasPair isSpace isBreak cs

/-- The text can be written bare, if it is not ambiguous. -/
def fitsBare (cs : List Char) : Bool :=
  isClean cs && !cs.any isBreak && !beginsOddly cs && !hasMark true cs &&
    !cs.head?.any isSpace && !cs.getLast?.any isSpace

/-- The text can be written in single quotes: no line begins with a blank either. -/
def fitsSingle (cs : List Char) : Bool := isClean cs && !hasPair isBreak isSpace cs

/-- The text can be written as a block of lines. -/
def fitsBlock (cs : List Char) : Bool := isClean cs && !cs.getLast?.any isSpace

/-- The form that a text is written in. -/
def styleOf (s : String) : Style :=
  let cs := s.toList
  if cs.contains '\n' then
    if fitsBlock cs then .block else .double
  else if !Word.isAmbiguous s && fitsBare cs then .bare
  else if fitsSingle cs then .single
  else .double

/-! ## Writing -/

/-- Blanks in front of every line that is not empty, the first line excepted unless
{lit}`broken`. -/
def indentLines (indent : Nat) (broken : Bool) : List Char → List Char
  | [] => []
  | c :: cs =>
    (if broken && !isBreak c then List.replicate indent ' ' else []) ++
      c :: indentLines indent (isBreak c) cs

/-- A quote in single quotes is written twice. -/
def doubleQuotes : List Char → List Char
  | [] => []
  | c :: cs => if c = '\'' then c :: c :: doubleQuotes cs else c :: doubleQuotes cs

/-- The digits of a number in radix sixteen, filled up with zeros. -/
def hexDigits (width n : Nat) : List Char :=
  let digits := (Nat.toDigits 16 n).map Char.toUpper
  List.replicate (width - digits.length) '0' ++ digits

/-- A character in double quotes. -/
def escape (c : Char) : List Char :=
  if isPrintable c && !isBreak c && c != '"' && c != '\\' then [c]
  else
    match escapes.lookup c with
    | some letter => ['\\', letter]
    | none =>
      if c.toNat ≤ 0xFF then '\\' :: 'x' :: hexDigits 2 c.toNat
      else if c.toNat ≤ 0xFFFF then '\\' :: 'u' :: hexDigits 4 c.toNat
      else '\\' :: 'U' :: hexDigits 8 c.toNat

/-- How far a block is indented is stated if its first line does not show it. -/
def indentHint (cs : List Char) : List Char :=
  if cs.head?.any fun c => isSpace c || isBreak c then ['2'] else []

/-- How a block ends: without a line end, with one, or with several. -/
def endHint (cs : List Char) : List Char :=
  match cs.reverse with
  | a :: b :: _ => if isBreak a then (if isBreak b then ['+'] else []) else ['-']
  | [a] => if isBreak a then ['+'] else ['-']
  | [] => ['-']

/-- A block of lines, with the line end behind it. -/
def writeBlock (indent : Nat) (cs : List Char) : List Char :=
  '|' :: indentHint cs ++ endHint cs ++ '\n' :: indentLines indent true cs ++
    if cs.getLast?.any isBreak then [] else ['\n']

/-- The text between single quotes. -/
def writeSingle (indent : Nat) (cs : List Char) : List Char :=
  indentLines indent false (doubleQuotes cs) ++
    if cs.getLast?.any isBreak then List.replicate indent ' ' else []

/-- A text in its form, with the line end behind it; further lines are indented. -/
def writeText (indent : Nat) (s : String) : List Char :=
  let cs := s.toList
  match styleOf s with
  | .bare => cs ++ ['\n']
  | .single => '\'' :: writeSingle indent cs ++ ['\'', '\n']
  | .double => '"' :: cs.flatMap escape ++ ['"', '\n']
  | .block => writeBlock indent cs

end PointsTo.Yaml
