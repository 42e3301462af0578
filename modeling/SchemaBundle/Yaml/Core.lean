import SchemaBundle.Yaml.Error
import SchemaBundle.Yaml.Value
import SchemaBundle.Text.Split

/-!
# What scalars mean

An unquoted scalar without tag is null, a truth value, a whole number or a binary number if it is
written like one, and a string otherwise. Whole numbers are decimal, or hexadecimal, octal or binary
after `0x`, `0o` and `0b`; a decimal one has no leading zero. The tags of the core schema ask for
one kind and refuse everything else.
-/

namespace SchemaBundle.Yaml.Core

/-- A sign at the start of a text, and what follows. -/
def isSign (c : Char) : Bool :=
  c == '+' || c == '-'

/-- Whether a text spells null. -/
def isNull (text : List Char) : Bool :=
  [['n', 'u', 'l', 'l'], ['N', 'u', 'l', 'l'], ['N', 'U', 'L', 'L'], ['~']].contains text

/-- The truth value that a text spells. -/
def bool? (text : List Char) : Option Bool :=
  if [['t', 'r', 'u', 'e'], ['T', 'r', 'u', 'e'], ['T', 'R', 'U', 'E']].contains text then
    some true
  else if [['f', 'a', 'l', 's', 'e'], ['F', 'a', 'l', 's', 'e'],
      ['F', 'A', 'L', 'S', 'E']].contains text then
    some false
  else none

/-! ## Whole numbers -/

/-- The value of a digit in any base up to sixteen. -/
def digit? (c : Char) : Option Nat :=
  if '0' ≤ c ∧ c ≤ '9' then some (c.toNat - 48)
  else if 'a' ≤ c ∧ c ≤ 'f' then some (c.toNat - 87)
  else if 'A' ≤ c ∧ c ≤ 'F' then some (c.toNat - 55)
  else none

/-- The number that digits of a base write; at least one digit. -/
def natural? (base : Nat) : List Char → Option Nat
  | [] => none
  | digits =>
    digits.foldl
      (fun acc c =>
        match acc, digit? c with
        | some n, some d => if d < base then some (base * n + d) else none
        | _, _ => none)
      (some 0)

/-- Digits that are no decimal number because of a leading zero. -/
def hasLeadingZero (text : List Char) : Bool :=
  let digits :=
    match text with
    | c :: rest => if isSign c then rest else text
    | [] => []
  match digits with
  | '0' :: d :: rest => (d :: rest).all Char.isDigit
  | _ => false

/-- A magnitude: digits after the mark of a base, or decimal digits. -/
def magnitude? (whole text : List Char) : Option Nat :=
  match text with
  | '0' :: 'x' :: digits => natural? 16 digits
  | '0' :: 'o' :: digits => natural? 8 digits
  | '0' :: 'b' :: digits => natural? 2 digits
  | _ => if hasLeadingZero whole then none else natural? 10 text

/-- The whole number that a text writes. -/
def integer? (text : List Char) : Option Int :=
  match text with
  | '+' :: rest => (magnitude? text rest).map Int.ofNat
  | '-' :: rest => (magnitude? text rest).map fun n => -(n : Int)
  | _ => (magnitude? text text).map Int.ofNat

/-- The range of whole numbers that values can hold. -/
def isInRange (n : Int) : Bool :=
  -(Nat.pow 2 63 : Int) ≤ n && n < Nat.pow 2 64

/-- The wider range in which a whole number is still read as one, and refused. -/
def isInWideRange (n : Int) : Bool :=
  -(Nat.pow 2 127 : Int) ≤ n && n < Nat.pow 2 128

/-! ## Binary numbers -/

/-- The exponent behind its mark. -/
def exponent? : List Char → Option Int
  | [] => some 0
  | c :: rest =>
    if c = 'e' ∨ c = 'E' then
      match rest with
      | '+' :: digits => (natural? 10 digits).map Int.ofNat
      | '-' :: digits => (natural? 10 digits).map fun n => -(n : Int)
      | digits => (natural? 10 digits).map Int.ofNat
    else none

/-- A decimal with digits before or after its point, and perhaps an exponent, rounded to the nearest
binary number; `none` if it is not written so, or too large. -/
def decimal? (negative : Bool) (text : List Char) : Option Binary64 :=
  let whole := text.takeWhile Char.isDigit
  let rest := text.dropWhile Char.isDigit
  let (fraction, rest) :=
    match rest with
    | '.' :: after => (after.takeWhile Char.isDigit, after.dropWhile Char.isDigit)
    | _ => ([], rest)
  match natural? 10 (whole ++ fraction), exponent? rest with
  | some digits, some e => Binary64.ofDecimal negative digits (e - fraction.length)
  | _, _ => none

/-- The binary number that a text writes, an infinity or not-a-number among them. -/
def float? (text : List Char) : Option Number :=
  let unsigned :=
    match text with
    | '+' :: rest => rest
    | _ => text
  if text.head? = some '+' ∧ unsigned.head?.any isSign then none
  else if [['.', 'i', 'n', 'f'], ['.', 'I', 'n', 'f'], ['.', 'I', 'N', 'F']].contains unsigned then
    some (.infinity false)
  else if [['-', '.', 'i', 'n', 'f'], ['-', '.', 'I', 'n', 'f'],
      ['-', '.', 'I', 'N', 'F']].contains text then
    some (.infinity true)
  else if [['.', 'n', 'a', 'n'], ['.', 'N', 'a', 'N'], ['.', 'N', 'A', 'N']].contains text then
    some .notANumber
  else
    match unsigned with
    | '-' :: rest => (decimal? true rest).map .float
    | _ => (decimal? false unsigned).map .float

/-! ## Scalars -/

/-- The whole number of a text as a value. One beyond the range of values is refused unless it is
far beyond, where it is no whole number at all (`none`). -/
def integerValue? (text : List Char) : Option (Except YamlError Value) :=
  match integer? text with
  | some n =>
    if isInRange n then some (.ok (.number (.int n)))
    else if isInWideRange n then some (.error .invalidScalar)
    else none
  | none => none

/-- What an unquoted scalar without tag means. -/
def untagged (text : List Char) : Except YamlError Value :=
  if text.isEmpty || isNull text then .ok .null
  else
    match bool? text, integerValue? text with
    | some b, _ => .ok (.bool b)
    | none, some found => found
    | none, none =>
      match if hasLeadingZero text then none else float? text with
      | some x => .ok (.number x)
      | none => .ok (.str (String.ofList text))

/-- The tags of the core schema start so. -/
def tagStart : String := "tag:yaml.org,2002:"

/-- What a scalar with a resolved tag, or without one, means. Tags outside the core schema make it a
string. -/
def scalar (tag : Option String) (plain : Bool) (text : List Char) : Except YamlError Value :=
  match tag with
  | none => if plain then untagged text else .ok (.str (String.ofList text))
  | some t =>
    if t = tagStart ++ "bool" then
      match bool? text with
      | some b => .ok (.bool b)
      | none => .error .invalidScalar
    else if t = tagStart ++ "int" then
      (integerValue? text).getD (.error .invalidScalar)
    else if t = tagStart ++ "float" then
      match float? text with
      | some x => .ok (.number x)
      | none => .error .invalidScalar
    else if t = tagStart ++ "null" then
      if isNull text then .ok .null else .error .invalidScalar
    else .ok (.str (String.ofList text))

end SchemaBundle.Yaml.Core
