import SchemaBundle.Json.Value
import SchemaBundle.Text.Split

/-!
# JSON Pointers

A pointer is empty, or a slash before each of its segments. Within a segment `~0` stands for a
tilde and `~1` for a slash. `Pointer.unescape_escape` says that every text survives the way into
a segment and back, and `Json.select?` follows a pointer through a value.
-/

namespace SchemaBundle

namespace Pointer

/-- The characters of a text as they stand in a segment. -/
def escapeChars : List Char → List Char
  | [] => []
  | c :: rest =>
    if c = '~' then '~' :: '0' :: escapeChars rest
    else if c = '/' then '~' :: '1' :: escapeChars rest
    else c :: escapeChars rest

/-- The characters that a segment stands for. A tilde before anything but `0` or `1` stands for
itself. -/
def unescapeChars : List Char → List Char
  | [] => []
  | '~' :: '0' :: rest => '~' :: unescapeChars rest
  | '~' :: '1' :: rest => '/' :: unescapeChars rest
  | c :: rest => c :: unescapeChars rest

theorem unescapeChars_escapeChars (s : List Char) : unescapeChars (escapeChars s) = s := by
  induction s with
  | nil => rfl
  | cons c rest ih =>
    by_cases ht : c = '~'
    · simp [escapeChars, unescapeChars, ht, ih]
    · by_cases hs : c = '/'
      · simp [escapeChars, unescapeChars, hs, ih]
      · simp only [escapeChars, ht, hs, if_false]
        rw [unescapeChars, ih]
        · intro _ h; exact absurd h ht
        · intro _ h; exact absurd h ht

/-- A text as a segment. -/
def escape (text : String) : String :=
  String.ofList (escapeChars text.toList)

/-- The text that a segment stands for. -/
def unescape (segment : String) : String :=
  String.ofList (unescapeChars segment.toList)

theorem unescape_escape (text : String) : unescape (escape text) = text := by
  simp [unescape, escape, unescapeChars_escapeChars]

/-- The text of the last segment; `none` if it is empty or there is no segment. -/
def lastSegment? (pointer : String) : Option String :=
  match Text.splitLast? '/' pointer.toList with
  | some (_, c :: segment) => some (String.ofList (unescapeChars (c :: segment)))
  | _ => none

/-- The unescaped segments of a pointer; `none` if it is neither empty nor starts with a slash. -/
def segments? : List Char → Option (List (List Char))
  | [] => some []
  | '/' :: rest => some ((Text.pieces '/' rest).map unescapeChars)
  | _ => none

/-- A segment as a position in a list: decimal digits without a leading zero. -/
def position? : List Char → Option Nat
  | [] => none
  | c :: rest =>
    if c = '0' ∧ rest ≠ [] then none
    else if (c :: rest).all Char.isDigit then
      some ((c :: rest).foldl (fun n d => 10 * n + (d.toNat - 48)) 0)
    else none

end Pointer

namespace Json

/-- The item at a position, or the member of a name. -/
def child? (segment : List Char) : Json → Option Json
  | .obj members => Entries.find? (String.ofList segment) members
  | .arr items => (Pointer.position? segment).bind fun i => items[i]?
  | _ => none

/-- Follow segments into a value. -/
def descend? (value : Json) : List (List Char) → Option Json
  | [] => some value
  | segment :: rest => (child? segment value).bind fun inner => descend? inner rest

/-- The value that a pointer selects. -/
def select? (value : Json) (pointer : String) : Option Json :=
  (Pointer.segments? pointer.toList).bind (descend? value)

end Json

end SchemaBundle
