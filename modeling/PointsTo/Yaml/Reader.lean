import PointsTo.Yaml.Scalar

/-!
# Reading YAML

Values in block form, where the indentation shows what belongs together, and in flow
form, where brackets do.  Keys are scalars.  Anchors, tags, directives, folded blocks and
complex keys are not read.

A value is read together with the white space behind it; in block form a new line must
begin there, or the document must end.

Main definition: {lit}`Node.read?`, the value of a text.
-/

namespace PointsTo.Yaml

/-- Pass over white space behind a value in block form. -/
def settle (x : Node × Cursor) : Option (Node × Cursor) :=
  let c := x.2.skip false
  if c.atEnd || c.atStart then some (x.1, c) else none

/-! ## Flow form -/

mutual

/-- A value in brackets. -/
def readFlow (floor : Nat) : Nat → Cursor → Option (Node × Cursor)
  | 0, _ => none
  | fuel + 1, c =>
    match c.rest with
    | '[' :: _ => (readFlowItems floor fuel (c.advance 1)).map fun (xs, c) => (.list xs, c)
    | '\x7b' :: _ => (readFlowEntries floor fuel (c.advance 1)).map fun (es, c) => (.map es, c)
    | _ => (Scalar.read? true floor c).map fun s => (s.node, s.next)

/-- The items of a list up to its closing bracket; a comma may stand behind the last. -/
def readFlowItems (floor : Nat) : Nat → Cursor → Option (List Node × Cursor)
  | 0, _ => none
  | fuel + 1, c => do
    let c := c.skip true
    if c.rest.head? = some ']' then return ([], c.advance 1)
    let (x, c) ← readFlow floor fuel c
    let c := c.skip true
    match c.rest with
    | ']' :: _ => return ([x], c.advance 1)
    | ',' :: _ =>
      let (xs, c) ← readFlowItems floor fuel (c.advance 1)
      return (x :: xs, c)
    | _ => none

/-- The entries of a map up to its closing brace; a comma may stand behind the last.  A key
without a colon has the value null. -/
def readFlowEntries (floor : Nat) : Nat → Cursor → Option (List (String × Node) × Cursor)
  | 0, _ => none
  | fuel + 1, c => do
    let c := c.skip true
    if c.rest.head? = some '\x7d' then return ([], c.advance 1)
    let key ← Scalar.read? true floor c
    let (x, c) ←
      match key.colon? true c with
      | none => some (.word "", key.next)
      | some v => readFlowValue floor fuel v
    let c := c.skip true
    match c.rest with
    | '\x7d' :: _ => return ([(key.name, x)], c.advance 1)
    | ',' :: _ =>
      let (es, c) ← readFlowEntries floor fuel (c.advance 1)
      return ((key.name, x) :: es, c)
    | _ => none

/-- The value behind a colon, which may be missing. -/
def readFlowValue (floor : Nat) : Nat → Cursor → Option (Node × Cursor)
  | 0, _ => none
  | fuel + 1, c =>
    let c := c.skip true
    match c.rest with
    | ',' :: _ => some (.word "", c)
    | '\x7d' :: _ => some (.word "", c)
    | _ => readFlow floor fuel c

end

/-! ## Block form -/

mutual

/-- A value that begins here, in a collection whose entries begin left of column
{lit}`floor`. -/
def readNode : Nat → (floor : Nat) → Cursor → Option (Node × Cursor)
  | 0, _, _ => none
  | fuel + 1, floor, c =>
    if c.isDash then
      if c.atStart then (readItems fuel c.column c).map fun (xs, c) => (.list xs, c) else none
    else
      match c.rest with
      | '|' :: _ => (readBlock? floor c).bind settle
      | '[' :: _ => (readFlow floor (2 * c.rest.length) c).bind settle
      | '\x7b' :: _ => (readFlow floor (2 * c.rest.length) c).bind settle
      | _ => do
        let s ← Scalar.read? false floor c
        if c.atStart && (s.colon? false c).isSome then
          let (es, c) ← readEntries fuel c.column c
          return (.map es, c)
        settle (s.node, s.next)

/-- The items of a list whose dashes stand in column {lit}`indent`, from a dash on. -/
def readItems : Nat → (indent : Nat) → Cursor → Option (List Node × Cursor)
  | 0, _, _ => none
  | fuel + 1, indent, c => do
    let (x, c) ← readValue fuel indent false { c.advance 1 with atStart := true }
    if !c.atEnd && c.column == indent && c.isDash then
      let (xs, c) ← readItems fuel indent c
      return (x :: xs, c)
    return ([x], c)

/-- The entries of a map whose keys stand in column {lit}`indent`, from a key on. -/
def readEntries : Nat → (indent : Nat) → Cursor → Option (List (String × Node) × Cursor)
  | 0, _, _ => none
  | fuel + 1, indent, c => do
    let key ← Scalar.read? false (indent + 1) c
    let v ← key.colon? false c
    let (x, c) ← readValue fuel indent true v
    if !c.atEnd && c.column == indent then
      let (es, c) ← readEntries fuel indent c
      return ((key.name, x) :: es, c)
    return ([(key.name, x)], c)

/-- The value behind a colon or a dash; it is missing if the next line begins no further
right than the entry.  The dashes of a list may stand below the key that it belongs to. -/
def readValue : Nat → (indent : Nat) → (dashes : Bool) → Cursor → Option (Node × Cursor)
  | 0, _, _, _ => none
  | fuel + 1, indent, dashes, c =>
    let c := c.skip false
    if c.atEnd then some (.word "", c)
    else if indent < c.column then readNode fuel (indent + 1) c
    else if dashes && c.column == indent && c.isDash then
      (readItems fuel indent c).map fun (xs, c) => (.list xs, c)
    else some (.word "", c)

end

/-! ## Texts -/

/-- Nothing but marks that end documents, blanks and comments is left. -/
def isFinished : Nat → Cursor → Bool
  | 0, _ => false
  | fuel + 1, c =>
    match c.rest with
    | [] => true
    | '.' :: _ => c.isMark && isFinished fuel ((c.advance 3).skip false)
    | _ => false

/-- Where the document of a text begins: behind a mark, if there is one. -/
def documentStart (cs : List Char) : Cursor :=
  let c := (Cursor.mk cs 0 true).skip false
  if c.isMark && c.rest.head? == some '-' then (c.advance 3).skip false else c

/-- The value that a document consists of. -/
def readDocument (cs : List Char) : Option Node := do
  let c := documentStart cs
  let (x, c) ← if c.atEnd then some (.word "", c) else readNode (4 * cs.length + 4) 0 c
  if isFinished (cs.length + 1) c then some x else none

/-- The value of a text that holds at most one document.  Where nothing is written the
value is the empty word. -/
def Node.read? (s : String) : Option Node :=
  let cs := s.toList
  if cs.all isReadable then
    readDocument (unifyBreaks (if cs.head? = some byteOrderMark then cs.drop 1 else cs))
  else none

end PointsTo.Yaml
