import SchemaBundle.Yaml.Error

/-!
# The characters of a YAML text

A YAML text is UTF-8. Control characters other than tabs and line breaks are not admitted, and
every kind of line break except the Unicode line and paragraph separators is read as a line feed.
-/

namespace SchemaBundle.Yaml

/-- The six payload bits of a continuation byte. -/
def continuation? (b : UInt8) : Option Nat :=
  if 128 ≤ b.toNat ∧ b.toNat < 192 then some (b.toNat - 128) else none

/-- A character of a code point within bounds; no surrogates. -/
def charOf? (least n : Nat) : Option Char :=
  if least ≤ n ∧ (n < 0xd800 ∨ (0xdfff < n ∧ n < 0x110000)) then some (Char.ofNat n) else none

/-- The characters that bytes encode in UTF-8, in front of those found before, last one first. -/
def decodeOnto (found : List Char) : List UInt8 → Option (List Char)
  | [] => some found
  | a :: rest =>
    if a.toNat < 128 then decodeOnto (Char.ofNat a.toNat :: found) rest
    else
      match rest with
      | [] => none
      | b :: rest₁ =>
        if 192 ≤ a.toNat ∧ a.toNat < 224 then
          match (continuation? b).bind fun x => charOf? 0x80 (64 * (a.toNat - 192) + x) with
          | some c => decodeOnto (c :: found) rest₁
          | none => none
        else
          match rest₁ with
          | [] => none
          | c :: rest₂ =>
            if 224 ≤ a.toNat ∧ a.toNat < 240 then
              match (continuation? b).bind fun x => (continuation? c).bind fun y =>
                  charOf? 0x800 (4096 * (a.toNat - 224) + 64 * x + y) with
              | some d => decodeOnto (d :: found) rest₂
              | none => none
            else
              match rest₂ with
              | [] => none
              | d :: rest₃ =>
                if 240 ≤ a.toNat ∧ a.toNat < 248 then
                  match (continuation? b).bind fun x => (continuation? c).bind fun y =>
                      (continuation? d).bind fun z =>
                        charOf? 0x10000
                          (262144 * (a.toNat - 240) + 4096 * x + 64 * y + z) with
                  | some e => decodeOnto (e :: found) rest₃
                  | none => none
                else none

/-- The characters that bytes encode in UTF-8. -/
def decodeUtf8? (bytes : List UInt8) : Option (List Char) :=
  (decodeOnto [] bytes).map List.reverse

/-- Whether a character may stand in a text. -/
def isAdmitted (c : Char) : Bool :=
  let n := c.toNat
  n == 9 || n == 10 || n == 13 || (32 ≤ n && n ≤ 126) || n == 0x85 || (0xa0 ≤ n && n ≤ 0xd7ff)
    || (0xe000 ≤ n && n ≤ 0xfffd) || (0x10000 ≤ n && n ≤ 0x10ffff)

/-- Read every line break but the Unicode separators as a line feed. -/
def normalizeBreaks : List Char → List Char
  | [] => []
  | '\r' :: '\n' :: rest => '\n' :: normalizeBreaks rest
  | c :: rest => (if c = '\r' ∨ c = '\u0085' then '\n' else c) :: normalizeBreaks rest

/-- The characters of a text, if it is one. -/
def readText (bytes : List UInt8) : Except YamlError (List Char) :=
  match decodeUtf8? bytes with
  | some chars =>
    if chars.all isAdmitted then .ok (normalizeBreaks chars) else .error .invalidText
  | none => .error .invalidText

/-! ## Classes of characters -/

/-- A space or a tab. -/
def isBlank (c : Char) : Bool :=
  c == ' ' || c == '\t'

/-- The end of a line. -/
def isBreak (c : Char) : Bool :=
  c == '\n' || c == '\u2028' || c == '\u2029'

/-- What separates words. -/
def isGap (c : Char) : Bool :=
  isBlank c || isBreak c

/-- Characters of names: ASCII letters and digits, the underscore and the hyphen. -/
def isWordChar (c : Char) : Bool :=
  ('a' ≤ c && c ≤ 'z') || ('A' ≤ c && c ≤ 'Z') || ('0' ≤ c && c ≤ '9') || c == '_' || c == '-'

/-- Whether a text is at its end or goes on with a gap. -/
def atGap : List Char → Bool
  | [] => true
  | c :: _ => isGap c

/-- Whether a line that starts here is a document mark made of three equal characters. -/
def isDocumentMark (mark : Char) : List Char → Bool
  | a :: b :: c :: rest => a == mark && b == mark && c == mark && atGap rest
  | _ => false

/-- Whether a line that starts here separates documents. -/
def startsWithDocumentMark (text : List Char) : Bool :=
  isDocumentMark '-' text || isDocumentMark '.' text

end SchemaBundle.Yaml
