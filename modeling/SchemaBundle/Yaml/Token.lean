import SchemaBundle.Yaml.Scalar.Quoted
import SchemaBundle.Yaml.Scalar.Plain
import SchemaBundle.Yaml.Scalar.Block
import SchemaBundle.Yaml.Tag

/-!
# The tokens of a YAML text

`Token.scan` cuts a text into tokens. Indentation becomes tokens of its own, which open and close
block collections. Whether a scalar is a key is known only when the colon behind it is found, so the
scanner remembers where a simple key may have started and puts the missing tokens in there.
-/

namespace SchemaBundle.Yaml

/-- The tokens of a YAML text. -/
inductive Token
  | directive (value : Directive)
  | documentStart
  | documentEnd
  | blockSequenceStart
  | blockMappingStart
  | blockEnd
  | flowSequenceStart
  | flowSequenceEnd
  | flowMappingStart
  | flowMappingEnd
  | blockEntry
  | flowEntry
  | key
  | value
  | alias (name : String)
  | anchor (name : String)
  | tag (text : TagText)
  | scalar (plain : Bool) (text : String)
  deriving DecidableEq, Repr

/-- A place where a simple key may have started. -/
structure KeyPlace where
  /-- Whether only a key can stand there. -/
  required : Bool
  /-- The number of tokens before it. -/
  position : Nat
  /-- The number of characters left there. -/
  left : Nat
  line : Nat
  column : Nat

/-- The state of the scanner. -/
structure Scanner where
  cursor : Cursor
  /-- The column of the innermost block collection, `-1` outside of all. -/
  indent : Int
  /-- The columns around it, the nearest first. -/
  outerIndents : List Int
  /-- Whether a simple key may start at the cursor. -/
  keyAllowed : Bool
  /-- For the block context and each pair of brackets around the cursor, the innermost first, where
  a simple key may have started. -/
  keyPlaces : List (Option KeyPlace)
  /-- The tokens found, the last one first. -/
  found : List Token
  /-- The number of tokens found. -/
  count : Nat
  /-- Whether the text has ended. -/
  ended : Bool

namespace Scanner

/-- The scanner before a text. -/
def start (text : List Char) : Scanner :=
  ⟨Cursor.start text, -1, [], true, [none], [], 0, false⟩

/-- Whether the cursor is inside brackets. -/
def inFlow (s : Scanner) : Bool :=
  1 < s.keyPlaces.length

/-- Add a token. -/
def emit (t : Token) (s : Scanner) : Scanner :=
  { s with found := t :: s.found, count := s.count + 1 }

/-- Add a token after the first `position` ones. -/
def emitAt (position : Nat) (t : Token) (s : Scanner) : Scanner :=
  let late := s.count - position
  { s with found := s.found.take late ++ t :: s.found.drop late, count := s.count + 1 }

/-- Move over characters. -/
def skip (n : Nat) (s : Scanner) : Scanner :=
  { s with cursor := s.cursor.skip n }

/-- Say whether a simple key may start at the cursor. -/
def allowKey (allowed : Bool) (s : Scanner) : Scanner :=
  { s with keyAllowed := allowed }

/-! ## Simple keys -/

/-- Give up the innermost place of a key; an error if a key had to stand there. -/
def dropKey (s : Scanner) : Except YamlError Scanner :=
  match s.keyPlaces with
  | some place :: outer =>
    if place.required then .error .malformedToken else .ok { s with keyPlaces := none :: outer }
  | _ => .ok s

/-- Remember that a simple key may start at the cursor. -/
def saveKey (s : Scanner) : Except YamlError Scanner :=
  if s.keyAllowed then do
    let required := !s.inFlow && s.indent == s.cursor.column
    let s ← s.dropKey
    return { s with
      keyPlaces := some ⟨required, s.count, s.cursor.left, s.cursor.line, s.cursor.column⟩
        :: s.keyPlaces.tail }
  else
    return s

/-- A simple key stands on one line and takes at most 1024 characters. -/
def isStale (c : Cursor) (place : KeyPlace) : Bool :=
  place.line < c.line || c.left + 1024 < place.left

/-- Give up every place that the cursor has left too far behind. -/
def dropStaleKeys (s : Scanner) : Except YamlError Scanner :=
  if s.keyPlaces.any fun place =>
      place.any fun place => isStale s.cursor place && place.required then
    .error .malformedToken
  else
    .ok { s with keyPlaces := s.keyPlaces.map (·.filter fun place => !isStale s.cursor place) }

/-! ## Indentation -/

/-- Open a block collection at a column, if that is deeper than the one the cursor is in. Its token
goes after the first `position` tokens, or to the end. -/
def openBlock (column : Nat) (position : Option Nat) (t : Token) (s : Scanner) : Scanner :=
  if !s.inFlow ∧ s.indent < column then
    let s := { s with outerIndents := s.indent :: s.outerIndents, indent := column }
    match position with
    | some n => s.emitAt n t
    | none => s.emit t
  else s

/-- Close the block collections that are deeper than a column. The indentations around the current
one bound their number. -/
def closeBlocksTo (column : Int) : List Int → Scanner → Scanner
  | [], s => s
  | outer :: more, s =>
    if column < s.indent then
      closeBlocksTo column more ({ s with indent := outer, outerIndents := more }.emit .blockEnd)
    else s

/-- Close the block collections that are deeper than a column, outside brackets. -/
def closeBlocks (column : Int) (s : Scanner) : Scanner :=
  if s.inFlow then s else closeBlocksTo column s.outerIndents s

/-! ## One token -/

/-- The end of the text. -/
def finish (s : Scanner) : Except YamlError Scanner := do
  let s := s.closeBlocks (-1)
  let s ← s.dropKey
  return { s with keyAllowed := false, ended := true }

/-- A directive. -/
def readDirective (s : Scanner) : Except YamlError Scanner := do
  let s ← (s.closeBlocks (-1)).dropKey
  let (directive, cursor) ← Directive.read s.cursor
  return { (s.allowKey false).emit (.directive directive) with cursor }

/-- A mark that starts or ends a document. -/
def readMark (t : Token) (s : Scanner) : Except YamlError Scanner := do
  let s ← (s.closeBlocks (-1)).dropKey
  return ((s.allowKey false).skip 3).emit t

/-- An opening bracket. -/
def openFlow (t : Token) (s : Scanner) : Except YamlError Scanner := do
  let s ← s.saveKey
  return (({ s with keyPlaces := none :: s.keyPlaces }.allowKey true).skip 1).emit t

/-- A closing bracket. -/
def closeFlow (t : Token) (s : Scanner) : Except YamlError Scanner := do
  let s ← s.dropKey
  let s := if s.inFlow then { s with keyPlaces := s.keyPlaces.tail } else s
  return ((s.allowKey false).skip 1).emit t

/-- A comma. -/
def flowEntry (s : Scanner) : Except YamlError Scanner := do
  let s ← s.dropKey
  return ((s.allowKey true).skip 1).emit .flowEntry

/-- A hyphen before an item. -/
def blockEntry (s : Scanner) : Except YamlError Scanner := do
  if !s.inFlow ∧ !s.keyAllowed then throw .malformedToken
  let s ← (s.openBlock s.cursor.column none .blockSequenceStart).dropKey
  return ((s.allowKey true).skip 1).emit .blockEntry

/-- A question mark before a key. -/
def explicitKey (s : Scanner) : Except YamlError Scanner := do
  if !s.inFlow ∧ !s.keyAllowed then throw .malformedToken
  let s ← (s.openBlock s.cursor.column none .blockMappingStart).dropKey
  return ((s.allowKey (!s.inFlow)).skip 1).emit .key

/-- A colon before a value. -/
def valueMark (s : Scanner) : Except YamlError Scanner :=
  match s.keyPlaces with
  | some place :: outer =>
    let s := s.emitAt place.position .key
    let s := s.openBlock place.column (some place.position) .blockMappingStart
    .ok ((({ s with keyPlaces := none :: outer }.allowKey false).skip 1).emit .value)
  | _ =>
    if !s.inFlow ∧ !s.keyAllowed then .error .malformedToken
    else
      let s := s.openBlock s.cursor.column none .blockMappingStart
      .ok (((s.allowKey (!s.inFlow)).skip 1).emit .value)

/-- An anchor or an alias. -/
def readName (t : String → Token) (s : Scanner) : Except YamlError Scanner := do
  let s ← s.saveKey
  let (name, cursor) ← readAnchor s.cursor
  return { (s.allowKey false).emit (t name) with cursor }

/-- A tag. -/
def readTag (s : Scanner) : Except YamlError Scanner := do
  let s ← s.saveKey
  let (tag, cursor) ← TagText.read s.inFlow s.cursor
  return { (s.allowKey false).emit (.tag tag) with cursor }

/-- A block scalar. -/
def readBlock (folded : Bool) (s : Scanner) : Except YamlError Scanner := do
  let s ← s.dropKey
  let (text, cursor) ← Block.read folded s.indent s.cursor
  return { (s.allowKey true).emit (.scalar false (String.ofList text)) with cursor }

/-- A quoted scalar. -/
def readQuoted (quote : Char) (s : Scanner) : Except YamlError Scanner := do
  let s ← s.saveKey
  let (text, cursor) ← Quoted.read quote s.cursor
  return { (s.allowKey false).emit (.scalar false (String.ofList text)) with cursor }

/-- A plain scalar. After a line break behind it a simple key may start again. -/
def readPlain (s : Scanner) : Except YamlError Scanner := do
  let s ← s.saveKey
  let read ← Plain.read s.inFlow (s.indent + 1).toNat s.cursor
  return { (s.allowKey read.crossedBreak).emit (.scalar true (String.ofList read.text.reverse)) with
    cursor := read.cursor }

/-- Characters that do not start a plain scalar. -/
def isIndicator (c : Char) : Bool :=
  ['-', '?', ':', ',', '[', ']', '\x7b', '\x7d', '#', '&', '*', '!', '|', '>', '\'', '"', '%', '@',
    '\x60'].contains c

/-- The token that starts with a character. -/
def readToken (c : Char) (rest : List Char) (s : Scanner) : Except YamlError Scanner :=
  let gapAfter := atGap rest
  if s.cursor.column = 0 ∧ c = '%' then s.readDirective
  else if s.cursor.column = 0 ∧ isDocumentMark '-' (c :: rest) then s.readMark .documentStart
  else if s.cursor.column = 0 ∧ isDocumentMark '.' (c :: rest) then s.readMark .documentEnd
  else if c = '[' then s.openFlow .flowSequenceStart
  else if c = '\x7b' then s.openFlow .flowMappingStart
  else if c = ']' then s.closeFlow .flowSequenceEnd
  else if c = '\x7d' then s.closeFlow .flowMappingEnd
  else if c = ',' then s.flowEntry
  else if c = '-' ∧ gapAfter then s.blockEntry
  else if c = '?' ∧ (s.inFlow ∨ gapAfter) then s.explicitKey
  else if c = ':' ∧ (s.inFlow ∨ gapAfter) then s.valueMark
  else if c = '*' then s.readName .alias
  else if c = '&' then s.readName .anchor
  else if c = '!' then s.readTag
  else if c = '|' ∧ !s.inFlow then s.readBlock false
  else if c = '>' ∧ !s.inFlow then s.readBlock true
  else if c = '\'' then s.readQuoted '\''
  else if c = '"' then s.readQuoted '"'
  else if !(isGap c || isIndicator c) || c == '-'
      || (!s.inFlow && (c == '?' || c == ':') && !gapAfter) then s.readPlain
  else .error .malformedToken

/-- Go to the next token and read it. -/
def step (s : Scanner) : Except YamlError Scanner := do
  let (cursor, keyAllowed) :=
    s.cursor.toToken s.inFlow (s.cursor.left + 1) s.keyAllowed
  let s ← { s with cursor, keyAllowed }.dropStaleKeys
  let s := s.closeBlocks s.cursor.column
  match s.cursor.rest with
  | [] => s.finish
  | c :: rest => s.readToken c rest

/-- Read tokens to the end of the text. Every step but the last takes a character, so the length of
the text is fuel enough. -/
def run : Nat → Scanner → Except YamlError Scanner
  | 0, s => .ok s
  | fuel + 1, s => do
    let s ← s.step
    if s.ended then return s else run fuel s

end Scanner

/-- The tokens of a text. -/
def Token.scan (text : List Char) : Except YamlError (List Token) := do
  let s ← Scanner.run (text.length + 2) (Scanner.start text)
  return s.found.reverse

end SchemaBundle.Yaml
