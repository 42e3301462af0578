import SchemaBundle.Yaml.Gap

/-!
# Plain scalars

A scalar without quotes ends where a colon is followed by a gap, before a comment, on a line that is
not indented enough, and inside brackets also at commas and brackets.
-/

namespace SchemaBundle.Yaml.Plain

/-- Characters that have a meaning of their own inside brackets. -/
def isFlowIndicator (c : Char) : Bool :=
  [',', '[', ']', '\x7b', '\x7d'].contains c

/-- The number of characters that go on with a word. Inside brackets a colon right before another
indicator is an error. -/
def wordLength (inFlow : Bool) : List Char → Except YamlError Nat
  | [] => .ok 0
  | c :: rest =>
    if isGap c then .ok 0
    else if inFlow && c == ':' && rest.head?.any (fun d => isFlowIndicator d || d == '?') then
      .error .malformedToken
    else if (c == ':' && atGap rest) || (inFlow && isFlowIndicator c) then .ok 0
    else (wordLength inFlow rest).map (· + 1)

/-- A plain scalar as read. -/
structure Read where
  /-- The text, last character first. -/
  text : List Char
  cursor : Cursor
  /-- Whether a line break was crossed after the last word. -/
  crossedBreak : Bool

/-- Read words after a gap. Lines after the first are indented by at least `least`. Every round but
the last takes a character, so the number of characters left is fuel enough. -/
def readWords (inFlow : Bool) (least : Nat) :
    Nat → List Char → Gap → Cursor → Except YamlError Read
  | 0, text, gap, c => .ok ⟨text, c, gap.broken⟩
  | fuel + 1, text, gap, c => do
    if (c.column = 0 ∧ startsWithDocumentMark c.rest) ∨ c.head? = some '#' then
      return ⟨text, c, gap.broken⟩
    let n ← wordLength inFlow c.rest
    if n = 0 then
      return ⟨text, c, gap.broken⟩
    let text := (c.rest.take n).reverse ++ gap.fold.reverse ++ text
    let c := c.skip n
    match c.rest with
    | d :: _ =>
      if isGap d then
        let (gap, c) ← Gap.read least .empty c
        if !inFlow ∧ c.column < least then return ⟨text, c, gap.broken⟩
        else readWords inFlow least fuel text gap c
      else
        return ⟨text, c, false⟩
    | [] => return ⟨text, c, false⟩

/-- Read the plain scalar at the cursor. -/
def read (inFlow : Bool) (least : Nat) (c : Cursor) : Except YamlError Read :=
  readWords inFlow least (c.left + 1) [] .empty c

end SchemaBundle.Yaml.Plain
