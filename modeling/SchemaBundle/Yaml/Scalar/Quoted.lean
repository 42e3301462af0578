import SchemaBundle.Yaml.Gap

/-!
# Quoted scalars

Between single quotes every character stands for itself, and two quotes for one. Between double
quotes a backslash starts an escape sequence, or joins a line to the next.
-/

namespace SchemaBundle.Yaml.Quoted

/-- What follows a backslash. -/
inductive Escape
  | char (c : Char)
  /-- A code point in this many hexadecimal digits. -/
  | code (digits : Nat)

/-- The escape sequence that a character after a backslash starts. -/
def escape? : Char → Option Escape
  | '0' => some (.char '\x00')
  | 'a' => some (.char '\x07')
  | 'b' => some (.char '\x08')
  | 't' => some (.char '\t')
  | '\t' => some (.char '\t')
  | 'n' => some (.char '\n')
  | 'v' => some (.char '\x0b')
  | 'f' => some (.char '\x0c')
  | 'r' => some (.char '\r')
  | 'e' => some (.char '\x1b')
  | ' ' => some (.char ' ')
  | '"' => some (.char '"')
  | '/' => some (.char '/')
  | '\\' => some (.char '\\')
  | 'N' => some (.char '\u0085')
  | '_' => some (.char '\u00a0')
  | 'L' => some (.char '\u2028')
  | 'P' => some (.char '\u2029')
  | 'x' => some (.code 2)
  | 'u' => some (.code 4)
  | 'U' => some (.code 8)
  | _ => none

/-- The value of a hexadecimal digit. -/
def hexValue? (c : Char) : Option Nat :=
  if '0' ≤ c ∧ c ≤ '9' then some (c.toNat - 48)
  else if 'a' ≤ c ∧ c ≤ 'f' then some (c.toNat - 87)
  else if 'A' ≤ c ∧ c ≤ 'F' then some (c.toNat - 55)
  else none

/-- The character with a code point in this many hexadecimal digits at the start of a text. -/
def codePoint? (digits : Nat) (text : List Char) : Option Char :=
  let ds := text.take digits
  if ds.length < digits then none
  else
    match ds.mapM hexValue? with
    | some values => charOf? 0 (values.foldl (fun n d => 16 * n + d) 0)
    | none => none

/-- What the characters up to the next gap or the closing quote add to a text. -/
structure Run where
  /-- The text, last character first. -/
  text : List Char
  cursor : Cursor
  /-- Whether the run ends with an escaped line break. -/
  escapedBreak : Bool

/-- Read up to the next gap or the closing single quote. -/
def singleRun : Nat → List Char → Cursor → Run
  | 0, text, c => ⟨text, c, false⟩
  | fuel + 1, text, c =>
    match c.rest with
    | '\'' :: '\'' :: _ => singleRun fuel ('\'' :: text) (c.skip 2)
    | '\'' :: _ => ⟨text, c, false⟩
    | d :: _ => if isGap d then ⟨text, c, false⟩ else singleRun fuel (d :: text) (c.skip 1)
    | [] => ⟨text, c, false⟩

/-- Read up to the next gap or the closing double quote. -/
def doubleRun : Nat → List Char → Cursor → Except YamlError Run
  | 0, text, c => .ok ⟨text, c, false⟩
  | fuel + 1, text, c =>
    match c.rest with
    | '"' :: _ => .ok ⟨text, c, false⟩
    | '\\' :: d :: rest =>
      if isBreak d then
        .ok ⟨text, (c.skip 1).newLine, true⟩
      else
        match escape? d with
        | some (.char e) => doubleRun fuel (e :: text) (c.skip 2)
        | some (.code n) =>
          match codePoint? n rest with
          | some e => doubleRun fuel (e :: text) (c.skip (2 + n))
          | none => .error .malformedToken
        | none => .error .malformedToken
    | ['\\'] => .error .malformedToken
    | d :: _ => if isGap d then .ok ⟨text, c, false⟩ else doubleRun fuel (d :: text) (c.skip 1)
    | [] => .ok ⟨text, c, false⟩

/-- Read words and gaps up to the closing quote. No line inside may look like a document mark. Every
round takes a character, so the number of characters left is fuel enough. -/
def readWords (quote : Char) : Nat → List Char → Cursor → Except YamlError (List Char × Cursor)
  | 0, _, _ => .error .malformedToken
  | fuel + 1, text, c => do
    if (c.column = 0 ∧ startsWithDocumentMark c.rest) ∨ c.rest.isEmpty then
      throw .malformedToken
    let run ←
      if quote = '\'' then pure (singleRun c.left text c)
      else doubleRun c.left text c
    if run.cursor.head? = some quote then
      return (run.text.reverse, run.cursor.skip 1)
    let (gap, c) ← Gap.read 0 (if run.escapedBreak then .escapedBreak else .empty) run.cursor
    readWords quote fuel (gap.fold.reverse ++ run.text) c

/-- Read the scalar whose opening quote is at the cursor. -/
def read (quote : Char) (c : Cursor) : Except YamlError (List Char × Cursor) :=
  let inside := c.skip 1
  readWords quote (inside.left + 1) [] inside

end SchemaBundle.Yaml.Quoted
