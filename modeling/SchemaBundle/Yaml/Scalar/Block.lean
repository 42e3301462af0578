import SchemaBundle.Yaml.Cursor

/-!
# Block scalars

A block scalar is written on lines of its own. Its header says how the line breaks at its end are
chomped and, if need be, how far it is indented. A literal scalar keeps its line breaks; a folded
one joins lines with a space, except around lines that start with a blank.
-/

namespace SchemaBundle.Yaml.Block

/-- What becomes of the line breaks at the end. -/
inductive Chomping
  /-- The last one stays. -/
  | clip
  | strip
  | keep
  deriving DecidableEq

/-- The header of a block scalar. -/
structure Header where
  chomping : Chomping
  /-- Columns by which the scalar is indented against its parent; zero if not given. -/
  increment : Nat

/-- A chomping indicator. -/
def chomping? : Char → Option Chomping
  | '+' => some .keep
  | '-' => some .strip
  | _ => none

/-- Read the chomping and indentation indicators, in either order. -/
def readIndicators (c : Cursor) : Except YamlError (Header × Cursor) :=
  match c.rest with
  | d :: e :: _ =>
    match chomping? d with
    | some chomping =>
      if e = '0' then .error .malformedToken
      else if e.isDigit then .ok (⟨chomping, e.toNat - 48⟩, c.skip 2)
      else .ok (⟨chomping, 0⟩, c.skip 1)
    | none =>
      if d = '0' then .error .malformedToken
      else if d.isDigit then
        match chomping? e with
        | some chomping => .ok (⟨chomping, d.toNat - 48⟩, c.skip 2)
        | none => .ok (⟨.clip, d.toNat - 48⟩, c.skip 1)
      else .ok (⟨.clip, 0⟩, c)
  | [d] =>
    match chomping? d with
    | some chomping => .ok (⟨chomping, 0⟩, c.skip 1)
    | none =>
      if d = '0' then .error .malformedToken
      else if d.isDigit then .ok (⟨.clip, d.toNat - 48⟩, c.skip 1)
      else .ok (⟨.clip, 0⟩, c)
  | [] => .ok (⟨.clip, 0⟩, c)

/-- Read the header after its first character, up to the next line. -/
def readHeader (c : Cursor) : Except YamlError (Header × Cursor) := do
  let (header, c) ← readIndicators c
  let c := (c.skipWhile isBlank).skipComment
  if c.atLineEnd then return (header, c.skipBreak) else throw .malformedToken

/-- Indentation and empty lines before a line of content. -/
structure Margin where
  /-- The breaks of the empty lines. -/
  breaks : List Char
  /-- The deepest column reached. -/
  deepest : Nat
  cursor : Cursor

/-- Skip indentation up to a column, zero if it is not known yet, and empty lines. A tab within the
indentation is an error. -/
def readMargin (indent : Nat) :
    List Char → Nat → Nat → Nat → List Char → Nat → Except YamlError Margin
  | [], left, line, column, breaks, deepest =>
    .ok ⟨breaks, max deepest column, ⟨[], left, line, column⟩⟩
  | c :: rest, left, line, column, breaks, deepest =>
    let inMargin : Bool := indent = 0 || column < indent
    if inMargin && c == ' ' then
      readMargin indent rest (left - 1) line (column + 1) breaks deepest
    else if inMargin && c == '\t' then
      .error .malformedToken
    else if isBreak c then
      readMargin indent rest (left - 1) (line + 1) 0 (breaks ++ [c]) (max deepest column)
    else
      .ok ⟨breaks, max deepest column, ⟨c :: rest, left, line, column⟩⟩

/-- The margin at the cursor. -/
def margin (indent : Nat) (c : Cursor) : Except YamlError Margin :=
  readMargin indent c.rest c.left c.line c.column [] 0

/-- A block scalar under construction. -/
structure Lines where
  /-- The text, last character first. -/
  text : List Char
  /-- The break of the last line. -/
  lastBreak : List Char
  /-- The breaks of the empty lines after it. -/
  emptyLines : List Char
  /-- Whether the last line starts with a blank. -/
  startsBlank : Bool
  cursor : Cursor

/-- The text with the breaks before the next line, which starts with a blank or not. -/
def joinLines (folded : Bool) (lines : Lines) (startsBlank : Bool) : List Char :=
  let kept :=
    if folded && lines.lastBreak == ['\n'] && !lines.startsBlank && !startsBlank then
      if lines.emptyLines.isEmpty then [' '] else []
    else lines.lastBreak
  lines.emptyLines.reverse ++ kept.reverse ++ lines.text

/-- Read the lines at the indentation. Every round takes a character, so the number of characters
left is fuel enough. -/
def readLines (folded : Bool) (indent : Nat) : Nat → Lines → Except YamlError Lines
  | 0, lines => .ok lines
  | fuel + 1, lines => do
    let c := lines.cursor
    if c.column ≠ indent ∨ c.rest.isEmpty then
      return lines
    let startsBlank := c.head?.any isBlank
    let text := joinLines folded lines startsBlank
    let content := c.peekWhile fun d => !isBreak d
    let c := c.skip content.length
    let lastBreak := c.rest.take 1
    let found ← margin indent c.skipBreak
    readLines folded indent fuel
      ⟨content.reverse ++ text, lastBreak, found.breaks, startsBlank, found.cursor⟩

/-- The text of a scalar after chomping. -/
def chomp (chomping : Chomping) (lines : Lines) : List Char :=
  let text := lines.text.reverse
  match chomping with
  | .strip => text
  | .clip => text ++ lines.lastBreak
  | .keep => text ++ lines.lastBreak ++ lines.emptyLines

/-- Read the block scalar whose indicator is at the cursor, inside a parent at an indentation, `-1`
at the top. -/
def read (folded : Bool) (parent : Int) (c : Cursor) : Except YamlError (List Char × Cursor) := do
  let (header, c) ← readHeader (c.skip 1)
  let given := if header.increment = 0 then 0 else parent.toNat + header.increment
  let first ← margin given c
  let indent := if given = 0 then max first.deepest (max (parent + 1).toNat 1) else given
  let lines ← readLines folded indent (first.cursor.left + 1)
    ⟨[], [], first.breaks, false, first.cursor⟩
  return (chomp header.chomping lines, lines.cursor)

end SchemaBundle.Yaml.Block
