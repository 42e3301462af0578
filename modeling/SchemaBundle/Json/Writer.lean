import SchemaBundle.Json.Value

/-!
# JSON text

The two layouts in which values are written. `Json.compact` has no spaces at all; `Json.pretty`
puts every item and member on a line of its own, two spaces deeper than its container, and keeps
empty containers closed up. Strings are written by `quoted`, which escapes quotation marks,
backslashes and the control characters below U+0020 and nothing else.
-/

namespace SchemaBundle

namespace Json

/-- Numbers carry the sign of their exponent. -/
def numberLayout : Decimal.Layout := ⟨true⟩

/-- A digit of a number below sixteen, in lower case. -/
def hexDigit (n : Nat) : Char :=
  Nat.digitChar (n % 16)

/-- One character inside quotation marks. -/
def escapedChar (c : Char) : List Char :=
  if c = '"' then ['\\', '"']
  else if c = '\\' then ['\\', '\\']
  else if c = '\x08' then ['\\', 'b']
  else if c = '\t' then ['\\', 't']
  else if c = '\n' then ['\\', 'n']
  else if c = '\x0c' then ['\\', 'f']
  else if c = '\r' then ['\\', 'r']
  else if c.toNat < 32 then ['\\', 'u', '0', '0', hexDigit (c.toNat / 16), hexDigit c.toNat]
  else [c]

/-- A string in quotation marks. -/
def quoted (s : String) : List Char :=
  '"' :: (s.toList.flatMap escapedChar ++ ['"'])

/-- A whole number in decimal digits. -/
def integerChars (n : Int) : List Char :=
  if n < 0 then '-' :: Decimal.digitChars n.natAbs else Decimal.digitChars n.natAbs

/-- A value that is neither a list nor an object; those have layouts of their own. -/
def scalarChars : Json → List Char
  | .null => ['n', 'u', 'l', 'l']
  | .bool true => ['t', 'r', 'u', 'e']
  | .bool false => ['f', 'a', 'l', 's', 'e']
  | .int n => integerChars n
  | .float x => x.chars numberLayout
  | .str s => quoted s
  | .arr _ => []
  | .obj _ => []

/-! ## Without spaces -/

mutual

/-- The text of a value without spaces. -/
def compactChars : Json → List Char
  | .arr [] => ['[', ']']
  | .arr (x :: xs) => '[' :: (compactChars x ++ (compactItems xs ++ [']']))
  | .obj [] => ['\x7b', '\x7d']
  | .obj ((key, x) :: xs) =>
    '\x7b' :: (quoted key ++ ':' :: (compactChars x ++ (compactMembers xs ++ ['\x7d'])))
  | .null => scalarChars .null
  | .bool b => scalarChars (.bool b)
  | .int n => scalarChars (.int n)
  | .float x => scalarChars (.float x)
  | .str s => scalarChars (.str s)

/-- The items after the first, each behind a comma. -/
def compactItems : List Json → List Char
  | [] => []
  | x :: xs => ',' :: (compactChars x ++ compactItems xs)

/-- The members after the first, each behind a comma. -/
def compactMembers : List (String × Json) → List Char
  | [] => []
  | (key, x) :: xs => ',' :: (quoted key ++ ':' :: (compactChars x ++ compactMembers xs))

end

/-- The text of a value without spaces. -/
def compact (value : Json) : String :=
  String.ofList (compactChars value)

/-! ## On lines of their own -/

/-- The start of a line at a depth. -/
def lineStart (depth : Nat) : List Char :=
  '\n' :: List.replicate (2 * depth) ' '

mutual

/-- The text of a value at a depth, one item or member per line. -/
def prettyChars (depth : Nat) : Json → List Char
  | .arr [] => ['[', ']']
  | .arr (x :: xs) =>
    '[' :: (lineStart (depth + 1) ++ prettyChars (depth + 1) x ++ prettyItems depth xs
      ++ lineStart depth ++ [']'])
  | .obj [] => ['\x7b', '\x7d']
  | .obj ((key, x) :: xs) =>
    '\x7b' :: (lineStart (depth + 1) ++ quoted key ++ ':' :: ' ' :: (prettyChars (depth + 1) x
      ++ prettyMembers depth xs ++ lineStart depth ++ ['\x7d']))
  | .null => scalarChars .null
  | .bool b => scalarChars (.bool b)
  | .int n => scalarChars (.int n)
  | .float x => scalarChars (.float x)
  | .str s => scalarChars (.str s)

/-- The items after the first, in a list at a depth. -/
def prettyItems (depth : Nat) : List Json → List Char
  | [] => []
  | x :: xs => ',' :: (lineStart (depth + 1) ++ prettyChars (depth + 1) x ++ prettyItems depth xs)

/-- The members after the first, in an object at a depth. -/
def prettyMembers (depth : Nat) : List (String × Json) → List Char
  | [] => []
  | (key, x) :: xs =>
    ',' :: (lineStart (depth + 1) ++ quoted key ++ ':' :: ' ' :: (prettyChars (depth + 1) x
      ++ prettyMembers depth xs))

end

/-- The text of a value, one item or member per line. -/
def pretty (value : Json) : String :=
  String.ofList (prettyChars 0 value)

end Json

end SchemaBundle
