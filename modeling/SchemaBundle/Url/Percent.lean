/-!
# Percent encoding

Characters outside ASCII, and the ASCII characters that a part of a URL does not admit, are
written as a percent sign and two hexadecimal digits for each byte of their UTF-8 form. The sets
of refused characters grow from `isControl` for opaque text to `inUserinfo` for credentials.
-/

namespace SchemaBundle.Percent

/-- Control characters, refused everywhere. -/
def isControl (c : Char) : Bool :=
  c.toNat < 32 || c.toNat == 127

/-- Refused in fragments. -/
def inFragment (c : Char) : Bool :=
  isControl c || [' ', '"', '<', '>', '\x60'].contains c

/-- Refused in the query of a URL whose scheme is not special. -/
def inQuery (c : Char) : Bool :=
  isControl c || [' ', '"', '#', '<', '>'].contains c

/-- Refused in the query of a URL with a special scheme. -/
def inSpecialQuery (c : Char) : Bool :=
  inQuery c || c == '\''

/-- Refused in path segments. -/
def inPath (c : Char) : Bool :=
  inFragment c || ['#', '?', '\x7b', '\x7d'].contains c

/-- Refused in user names and passwords. -/
def inUserinfo (c : Char) : Bool :=
  inPath c || ['/', ':', ';', '=', '@', '[', '\\', ']', '^', '|'].contains c

/-- An upper-case hexadecimal digit. -/
def upperHexDigit (n : Nat) : Char :=
  (Nat.digitChar (n % 16)).toUpper

/-- A byte as a percent sign and two digits. -/
def encodeByte (b : UInt8) : List Char :=
  ['%', upperHexDigit (b.toNat / 16), upperHexDigit b.toNat]

/-- A character in a part of a URL that refuses some. -/
def encodeChar (refused : Char → Bool) (c : Char) : List Char :=
  if 128 ≤ c.toNat || refused c then (String.utf8EncodeChar c).flatMap encodeByte else [c]

/-- A text in a part of a URL that refuses some characters. -/
def encode (refused : Char → Bool) (text : List Char) : String :=
  String.ofList (text.flatMap (encodeChar refused))

/-- The value of a hexadecimal digit. -/
def hexValue? (c : Char) : Option Nat :=
  if '0' ≤ c ∧ c ≤ '9' then some (c.toNat - 48)
  else if 'a' ≤ c ∧ c ≤ 'f' then some (c.toNat - 87)
  else if 'A' ≤ c ∧ c ≤ 'F' then some (c.toNat - 55)
  else none

/-- The bytes that an encoded text stands for. A percent sign without two digits after it stands
for itself. -/
def decode : List Char → List UInt8
  | [] => []
  | '%' :: hi :: lo :: rest =>
    match hexValue? hi, hexValue? lo with
    | some h, some l => UInt8.ofNat (16 * h + l) :: decode rest
    | _, _ => 37 :: decode (hi :: lo :: rest)
  | c :: rest => String.utf8EncodeChar c ++ decode rest

end SchemaBundle.Percent
