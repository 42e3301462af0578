import SchemaBundle.Yaml.Cursor

/-!
# Tags, anchors and directives

The names that may stand before a node or before a document. A tag is a handle with a suffix, such
as `!!` and `int`, or a whole tag between angle brackets, which has an empty handle.
-/

namespace SchemaBundle.Yaml

/-- A tag as written. -/
structure TagText where
  handle : String
  suffix : String
  deriving DecidableEq, Repr

/-- What stands before a document. -/
inductive Directive
  | version (major minor : Nat)
  | tag (handle start : String)
  deriving DecidableEq, Repr

namespace TagText

/-- Characters of a tag besides those of names. The brackets and the comma only stand in a whole
tag. -/
def isTagChar (whole : Bool) (c : Char) : Bool :=
  isWordChar c
    || [';', '/', '?', ':', '@', '&', '=', '+', '$', '.', '!', '~', '*', '\'', '(', ')'].contains c
    || (whole && [',', '[', ']'].contains c)

/-- The byte that two hexadecimal digits stand for. -/
def byte? (hi lo : Char) : Option UInt8 :=
  let value? (c : Char) : Option Nat :=
    if '0' ≤ c ∧ c ≤ '9' then some (c.toNat - 48)
    else if 'a' ≤ c ∧ c ≤ 'f' then some (c.toNat - 87)
    else if 'A' ≤ c ∧ c ≤ 'F' then some (c.toNat - 55)
    else none
  match value? hi, value? lo with
  | some h, some l => some (UInt8.ofNat (16 * h + l))
  | _, _ => none

/-- The escaped bytes at the start of a text, at most as many as asked for. -/
def escapedBytes? : Nat → List Char → Option (List UInt8)
  | 0, _ => some []
  | n + 1, '%' :: hi :: lo :: rest =>
    (byte? hi lo).bind fun b => (escapedBytes? n rest).map (b :: ·)
  | _, _ => none

/-- The number of bytes of a character that starts with a byte; zero if none does. -/
def widthFrom (b : UInt8) : Nat :=
  if b.toNat < 128 then 1
  else if b.toNat < 192 then 0
  else if b.toNat < 224 then 2
  else if b.toNat < 240 then 3
  else if b.toNat < 248 then 4
  else 0

/-- The character that the escaped bytes at the start of a text stand for, and their number. A long
form and a surrogate stand for the replacement character. -/
def escapedChar? (text : List Char) : Option (Char × Nat) :=
  match escapedBytes? 1 text with
  | some [first] =>
    match escapedBytes? (widthFrom first) text with
    | some (lead :: more) =>
      if more.all fun b => (continuation? b).isSome then
        match decodeUtf8? (lead :: more) with
        | some [c] => some (c, more.length + 1)
        | _ => some ('\ufffd', more.length + 1)
      else none
    | _ => none
  | _ => none

/-- The characters of a tag at the start of a text, and how many characters they take. -/
def readChars (whole : Bool) : Nat → List Char → Except YamlError (List Char × Nat)
  | 0, _ => .ok ([], 0)
  | fuel + 1, text =>
    match text with
    | [] => .ok ([], 0)
    | '%' :: _ =>
      match escapedChar? text with
      | some (c, width) =>
        (readChars whole fuel (text.drop (3 * width))).map fun (cs, n) => (c :: cs, n + 3 * width)
      | none => .error .malformedToken
    | c :: rest =>
      if isTagChar whole c then
        (readChars whole fuel rest).map fun (cs, n) => (c :: cs, n + 1)
      else .ok ([], 0)

/-- Read the characters of a tag at the cursor. -/
def readTagChars (whole : Bool) (c : Cursor) : Except YamlError (List Char × Cursor) := do
  let (chars, n) ← readChars whole c.left c.rest
  return (chars, c.skip n)

/-- Read a handle: an exclamation mark, a name, and perhaps another exclamation mark. -/
def readHandle (c : Cursor) : Except YamlError (List Char × Cursor) :=
  match c.rest with
  | '!' :: rest =>
    let name := rest.takeWhile isWordChar
    match rest.drop name.length with
    | '!' :: _ => .ok ('!' :: (name ++ ['!']), c.skip (name.length + 2))
    | _ => .ok ('!' :: name, c.skip (name.length + 1))
  | _ => .error .malformedToken

/-- Read the tag at the cursor. It ends at a gap, or inside brackets at a comma. -/
def read (inFlow : Bool) (c : Cursor) : Except YamlError (TagText × Cursor) := do
  let (tag, c) ←
    match c.rest with
    | '!' :: '<' :: _ => do
      let (chars, c) ← readTagChars true (c.skip 2)
      if chars.isEmpty ∨ c.head? ≠ some '>' then throw .malformedToken
      pure (⟨"", String.ofList chars⟩, c.skip 1)
    | _ => do
      let (handle, c) ← readHandle c
      let (chars, c) ← readTagChars false c
      if 1 < handle.length ∧ handle.getLast? = some '!' then
        if chars.isEmpty then throw .malformedToken
        pure (⟨String.ofList handle, String.ofList chars⟩, c)
      else
        match handle.tail ++ chars with
        | [] => pure (⟨"", "!"⟩, c)
        | suffix => pure (⟨"!", String.ofList suffix⟩, c)
  if c.atGap ∨ (inFlow ∧ c.head? = some ',') then return (tag, c) else throw .malformedToken

end TagText

/-- Read the name of an anchor or alias after its indicator. -/
def readAnchor (c : Cursor) : Except YamlError (String × Cursor) :=
  let name := (c.skip 1).peekWhile isWordChar
  let c := c.skip (name.length + 1)
  let ends :=
    match c.rest with
    | [] => true
    | d :: _ => isGap d || ['?', ':', ',', ']', '\x7d', '%', '@', '\x60'].contains d
  if name.isEmpty ∨ !ends then .error .malformedToken else .ok (String.ofList name, c)

namespace Directive

/-- Read a number of at most nine digits. -/
def readNumber (c : Cursor) : Except YamlError (Nat × Cursor) :=
  let digits := c.peekWhile Char.isDigit
  if digits.isEmpty ∨ 9 < digits.length then .error .malformedToken
  else .ok (digits.foldl (fun n d => 10 * n + (d.toNat - 48)) 0, c.skip digits.length)

/-- Read the value of a version directive. -/
def readVersion (c : Cursor) : Except YamlError (Directive × Cursor) := do
  let (major, c) ← readNumber (c.skipWhile isBlank)
  if c.head? ≠ some '.' then throw .malformedToken
  let (minor, c) ← readNumber (c.skip 1)
  return (.version major minor, c)

/-- Read the value of a tag directive: a handle and what it stands for. -/
def readTag (c : Cursor) : Except YamlError (Directive × Cursor) := do
  let (handle, c) ← TagText.readHandle (c.skipWhile isBlank)
  if 1 < handle.length ∧ handle.getLast? ≠ some '!' then throw .malformedToken
  if !c.head?.any isBlank then throw .malformedToken
  let (chars, c) ← TagText.readTagChars true (c.skipWhile isBlank)
  if chars.isEmpty ∨ !c.atGap then throw .malformedToken
  return (.tag (String.ofList handle) (String.ofList chars), c)

/-- Read the directive at the cursor, with the rest of its line. -/
def read (c : Cursor) : Except YamlError (Directive × Cursor) := do
  let name := (c.skip 1).peekWhile isWordChar
  let c := c.skip (name.length + 1)
  if name.isEmpty ∨ !c.atGap then throw .malformedToken
  let (directive, c) ←
    if name = ['Y', 'A', 'M', 'L'] then readVersion c
    else if name = ['T', 'A', 'G'] then readTag c
    else throw .malformedToken
  let c := (c.skipWhile isBlank).skipComment
  if c.atLineEnd then return (directive, c.skipBreak) else throw .malformedToken

end Directive

end SchemaBundle.Yaml
