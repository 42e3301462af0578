import SchemaBundle.Yaml.Cursor

/-!
# Gaps inside scalars

Between the words of a plain or quoted scalar stand blanks and line breaks. `Gap.fold` says what
they contribute to its text: blanks within a line stay, one line feed becomes a space, and of
several line feeds all but the first stay.
-/

namespace SchemaBundle.Yaml

/-- Blanks and line breaks between two words. -/
structure Gap where
  /-- The blanks before any line break. -/
  spaces : List Char
  /-- Whether the words stand on different lines. -/
  broken : Bool
  /-- The first line break, unless it was escaped. -/
  firstBreak : Option Char
  /-- The line breaks after the first. -/
  moreBreaks : List Char

namespace Gap

/-- No gap. -/
def empty : Gap :=
  ⟨[], false, none, []⟩

/-- A line break that does not count. -/
def escapedBreak : Gap :=
  ⟨[], true, none, []⟩

/-- What a gap contributes to the text. -/
def fold (gap : Gap) : List Char :=
  if gap.broken then
    match gap.firstBreak with
    | none => gap.moreBreaks
    | some '\n' => if gap.moreBreaks.isEmpty then [' '] else gap.moreBreaks
    | some c => c :: gap.moreBreaks
  else
    gap.spaces

/-- The gap with one more blank; blanks at the start of a line do not count. -/
def addBlank (gap : Gap) (c : Char) : Gap :=
  if gap.broken then gap else { gap with spaces := gap.spaces ++ [c] }

/-- The gap with one more line break; blanks before the first do not count. -/
def addBreak (gap : Gap) (c : Char) : Gap :=
  if gap.broken then { gap with moreBreaks := gap.moreBreaks ++ [c] }
  else ⟨[], true, some c, []⟩

/-- Extend a gap by the blanks and breaks at the start of a text that begins at a place. A tab
before the column `least` of a later line is an error. -/
def readFrom (least : Nat) : List Char → Nat → Nat → Nat → Gap → Except YamlError (Gap × Cursor)
  | [], left, line, column, gap => .ok (gap, ⟨[], left, line, column⟩)
  | c :: rest, left, line, column, gap =>
    if isBlank c then
      if gap.broken ∧ column < least ∧ c = '\t' then .error .malformedToken
      else readFrom least rest (left - 1) line (column + 1) (gap.addBlank c)
    else if isBreak c then
      readFrom least rest (left - 1) (line + 1) 0 (gap.addBreak c)
    else
      .ok (gap, ⟨c :: rest, left, line, column⟩)

/-- Extend a gap by the blanks and breaks at the cursor. -/
def read (least : Nat) (gap : Gap) (c : Cursor) : Except YamlError (Gap × Cursor) :=
  readFrom least c.rest c.left c.line c.column gap

end Gap

end SchemaBundle.Yaml
