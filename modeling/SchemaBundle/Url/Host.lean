import SchemaBundle.Url.Percent
import SchemaBundle.Url.Error
import SchemaBundle.Text.Split

/-!
# Hosts

The host of a special scheme is an IPv6 address in brackets, an IPv4 address in any of its
spellings, or a domain name in lower case; `Host.normalize` gives the one form in which it is
written. Other schemes keep their host as text (`Host.keep`). Domain names are ASCII here: a name
that would need the international encoding is refused, and one that is in this encoding already, with
a label that begins with `xn--`, is taken as it stands.
-/

namespace SchemaBundle.Host

/-! ## IPv4 -/

/-- A number in digits of a base, if all characters are digits of it. -/
def number? (base : Nat) (digits : List Char) : Option Nat :=
  digits.foldl
    (fun acc c =>
      match acc, Percent.hexValue? c with
      | some n, some d => if d < base then some (base * n + d) else none
      | _, _ => none)
    (some 0)

/-- A part of an IPv4 address: hexadecimal after `0x`, octal after `0`, else decimal. -/
def ipv4Number? : List Char → Option Nat
  | [] => none
  | '0' :: 'x' :: rest => number? 16 rest
  | '0' :: 'X' :: rest => number? 16 rest
  | '0' :: c :: rest => number? 8 (c :: rest)
  | digits => number? 10 digits

/-- Whether a domain has to be an IPv4 address, because its last label is a number. -/
def endsInNumber (domain : List Char) : Bool :=
  let isNumber (label : List Char) : Bool :=
    (!label.isEmpty && label.all Char.isDigit) || (ipv4Number? label).isSome
  match (Text.pieces '.' domain).reverse with
  | [] :: label :: _ => isNumber label
  | [] :: [] => false
  | label :: _ => isNumber label
  | [] => false

/-- The number that the parts of an address stand for: all but the last are bytes, and the last
fills the rest. -/
def ipv4Value? (parts : List Nat) : Option Nat :=
  match parts.reverse with
  | [] => none
  | last :: front =>
    let rest := Nat.pow 256 (4 - front.length)
    if 3 < front.length ∨ rest ≤ last ∨ front.any (255 < ·) then none
    else some (front.foldr (fun byte n => 256 * n + byte) 0 * rest + last)

/-- An IPv4 address in dotted decimal form. -/
def ipv4Text (n : Nat) : String :=
  String.ofList <| List.intercalate ['.']
    ([n / 16777216 % 256, n / 65536 % 256, n / 256 % 256, n % 256].map (Nat.toDigits 10))

/-- Read a domain that ends in a number as an IPv4 address. -/
def ipv4 (domain : List Char) : Except UrlError String :=
  let labels := Text.pieces '.' domain
  let labels := if labels.getLast? = some [] then labels.dropLast else labels
  match (labels.mapM ipv4Number?).bind ipv4Value? with
  | some n => .ok (ipv4Text n)
  | none => .error .invalidIpv4Address

/-! ## IPv6 -/

/-- The 16-bit groups read so far, and where a double colon stands among them. -/
structure Groups where
  values : List Nat
  gap : Option Nat

/-- The four bytes at the end of an IPv6 address, as two groups. -/
def ipv4Groups? (text : List Char) : Option (List Nat) :=
  let byte? (label : List Char) : Option Nat :=
    match label with
    | [] => none
    | c :: rest =>
      if (c = '0' ∧ rest ≠ []) ∨ 3 < label.length ∨ !label.all Char.isDigit then none
      else (number? 10 label).bind fun n => if n ≤ 255 then some n else none
  match (Text.pieces '.' text).mapM byte? with
  | some [a, b, c, d] => some [256 * a + b, 256 * c + d]
  | _ => none

/-- Read groups until the text ends. Every step takes at least one character, so the length of
the text is fuel enough. -/
def groups? : Nat → List Char → Groups → Option Groups
  | _, [], g => some g
  | 0, _ :: _, _ => none
  | fuel + 1, c :: rest, g =>
    if 8 ≤ g.values.length then none
    else if c = ':' then
      if g.gap.isSome then none
      else groups? fuel rest ⟨g.values ++ [0], some (g.values.length + 1)⟩
    else
      let digits := ((c :: rest).take 4).takeWhile fun d => (Percent.hexValue? d).isSome
      match (c :: rest).drop digits.length, number? 16 digits with
      | [], some n => some { g with values := g.values ++ [n] }
      | ':' :: after, some n =>
        if after.isEmpty then none else groups? fuel after { g with values := g.values ++ [n] }
      | '.' :: _, _ =>
        if digits.isEmpty ∨ 6 < g.values.length then none
        else (ipv4Groups? (c :: rest)).map fun tail => { g with values := g.values ++ tail }
      | _, _ => none

/-- The eight groups of an address. -/
def ipv6Groups? (text : List Char) : Option (List Nat) :=
  let found :=
    match text with
    | ':' :: ':' :: rest => groups? rest.length rest ⟨[0], some 1⟩
    | ':' :: _ => none
    | [] => none
    | [_] => none
    | _ => groups? text.length text ⟨[], none⟩
  found.bind fun g =>
    match g.gap with
    | some at_ =>
      some (g.values.take at_ ++ List.replicate (8 - g.values.length) 0 ++ g.values.drop at_)
    | none => if g.values.length = 8 then some g.values else none

/-- The length of the run of zeros at the start. -/
def zerosAtStart : List Nat → Nat
  | 0 :: rest => zerosAtStart rest + 1
  | _ => 0

/-- Start and length of the first longest run of zeros. -/
def longestZeros (groups : List Nat) : Nat × Nat :=
  (List.range groups.length).foldl
    (fun best i =>
      let n := zerosAtStart (groups.drop i)
      if best.2 < n then (i, n) else best)
    (0, 0)

/-- An IPv6 address in brackets: lower-case groups without leading zeros, and a double colon for
the first longest run of at least two zero groups. -/
def ipv6Text (groups : List Nat) : String :=
  let hex (gs : List Nat) : List Char := List.intercalate [':'] (gs.map (Nat.toDigits 16))
  let (start, n) := longestZeros groups
  let inner :=
    if 2 ≤ n then hex (groups.take start) ++ ':' :: ':' :: hex (groups.drop (start + n))
    else hex groups
  String.ofList ('[' :: (inner ++ [']']))

/-- A host that starts with a bracket. -/
def bracketed (host : List Char) : Except UrlError String :=
  if host.getLast? = some ']' then
    match ipv6Groups? (host.tail.dropLast) with
    | some groups => .ok (ipv6Text groups)
    | none => .error .invalidIpv6Address
  else
    .error .invalidIpv6Address

/-! ## Domains and plain hosts -/

/-- Characters that no domain name has. -/
def isForbiddenInDomain (c : Char) : Bool :=
  c.toNat ≤ 32 || 127 ≤ c.toNat ||
    ['%', '#', '/', ':', '<', '>', '?', '@', '[', '\\', ']', '^', '|'].contains c

/-- The host of a special scheme in the form in which it is written. -/
def normalize (host : List Char) : Except UrlError String :=
  if host.head? = some '[' then
    bracketed host
  else
    let domain := (Percent.decode host).map fun b => (Char.ofNat b.toNat).toLower
    if domain.any isForbiddenInDomain then .error .invalidDomainName
    else if domain.isEmpty then .error .emptyHost
    else if endsInNumber domain then ipv4 domain
    else .ok (String.ofList domain)

/-- Characters that no host of any scheme has. -/
def isForbidden (c : Char) : Bool :=
  ['\x00', '\t', '\n', '\r', ' ', '#', '/', ':', '<', '>', '?', '@', '[', '\\', ']', '^',
    '|'].contains c

/-- The host of a scheme that is not special: kept, with control characters and characters outside
ASCII encoded. -/
def keep (host : List Char) : Except UrlError String :=
  if host.head? = some '[' then bracketed host
  else if host.any isForbidden then .error .invalidDomainCharacter
  else .ok (Percent.encode Percent.isControl host)

end SchemaBundle.Host
