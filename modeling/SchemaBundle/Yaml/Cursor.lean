import SchemaBundle.Yaml.Text

/-!
# Places in a YAML text

A cursor is the rest of a text with the place where it starts. Reading moves it over characters of
one line (`Cursor.skip`) or over a line break (`Cursor.newLine`).
-/

namespace SchemaBundle.Yaml

/-- The rest of a text and the place where it starts. -/
structure Cursor where
  rest : List Char
  /-- The number of characters of the rest. -/
  left : Nat
  /-- Lines before this one. -/
  line : Nat
  /-- Characters before this place on its line. -/
  column : Nat

namespace Cursor

/-- The start of a text. A byte order mark there is skipped, and takes a column. -/
def start (text : List Char) : Cursor :=
  match text with
  | c :: rest => if c = '\ufeff' then ⟨rest, rest.length, 0, 1⟩ else ⟨text, text.length, 0, 0⟩
  | [] => ⟨[], 0, 0, 0⟩

/-- The character at the cursor. -/
def head? (c : Cursor) : Option Char :=
  c.rest.head?

/-- Move over characters of the same line. -/
def skip (n : Nat) (c : Cursor) : Cursor :=
  { c with rest := c.rest.drop n, left := c.left - n, column := c.column + n }

/-- Move over a line break. -/
def newLine (c : Cursor) : Cursor :=
  { rest := c.rest.drop 1, left := c.left - 1, line := c.line + 1, column := 0 }

/-- Move over the line break at the cursor, if there is one. -/
def skipBreak (c : Cursor) : Cursor :=
  match c.rest with
  | d :: _ => if isBreak d then c.newLine else c
  | [] => c

/-- Move over characters of one kind on the same line. -/
def skipWhile (p : Char → Bool) (c : Cursor) : Cursor :=
  c.skip (c.rest.takeWhile p).length

/-- The characters of one kind at the cursor. -/
def peekWhile (p : Char → Bool) (c : Cursor) : List Char :=
  c.rest.takeWhile p

/-- Move over a comment, if one starts here. -/
def skipComment (c : Cursor) : Cursor :=
  if c.head? = some '#' then c.skipWhile fun d => !isBreak d else c

/-- Whether the text ends here or a gap follows. -/
def atGap (c : Cursor) : Bool :=
  Yaml.atGap c.rest

/-- Whether the line or the text ends here. -/
def atLineEnd (c : Cursor) : Bool :=
  match c.rest with
  | [] => true
  | d :: _ => isBreak d

/-- Move over blanks, comments and line breaks up to the next token. A tab counts as a blank only
where no token may start a simple key; at a line break in block context one may. The number of
characters left is fuel enough. Gives the cursor, and whether a simple key may start. -/
def toToken (inFlow : Bool) : Nat → Bool → Cursor → Cursor × Bool
  | 0, keyAllowed, c => (c, keyAllowed)
  | fuel + 1, keyAllowed, c =>
    let c := c.skipWhile fun d => d == ' ' || ((inFlow || !keyAllowed) && d == '\t')
    let c := c.skipComment
    match c.rest with
    | d :: _ =>
      if isBreak d then toToken inFlow fuel (keyAllowed || !inFlow) c.newLine
      else (c, keyAllowed)
    | [] => (c, keyAllowed)

end Cursor

end SchemaBundle.Yaml
