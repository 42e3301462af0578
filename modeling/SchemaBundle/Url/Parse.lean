import SchemaBundle.Url.Basic
import SchemaBundle.Url.Percent
import SchemaBundle.Url.Host

/-!
# Reading URLs

`Url.parse` reads an absolute URL and `Url.join` resolves a reference against a base, after the
common standard for URLs: blanks around the text and tabs and line breaks in it are dropped, schemes
and special hosts are put in lower case, the number that a scheme implies is dropped, and the
segments `.` and `..` of a path are carried out. `Url.resolve` is the function behind both.
-/

namespace SchemaBundle

namespace Url

/-! ## Pieces of the text -/

/-- The text without blanks and control characters around it, and without tabs and line breaks. -/
def cleaned (text : List Char) : List Char :=
  let isBlank (c : Char) : Bool := c.toNat ≤ 32
  let trimmed := ((text.dropWhile isBlank).reverse.dropWhile isBlank).reverse
  trimmed.filter fun c => !(c == '\t' || c == '\n' || c == '\r')

/-- A letter of ASCII. -/
def isAsciiLetter (c : Char) : Bool :=
  ('a' ≤ c && c ≤ 'z') || ('A' ≤ c && c ≤ 'Z')

/-- A character of a scheme after its first letter. -/
def isSchemeChar (c : Char) : Bool :=
  isAsciiLetter c || ('0' ≤ c && c ≤ '9') || c == '+' || c == '-' || c == '.'

/-- The scheme in lower case and the text after its colon. -/
def scheme? (text : List Char) : Option (String × List Char) :=
  match text with
  | c :: _ =>
    if isAsciiLetter c then
      match text.dropWhile isSchemeChar with
      | ':' :: rest => some (String.ofList ((text.takeWhile isSchemeChar).map Char.toLower), rest)
      | _ => none
    else none
  | [] => none

/-- Whether a character separates the segments of a path. -/
def isSlash (kind : SchemeKind) (c : Char) : Bool :=
  c == '/' || (kind.isSpecial && c == '\\')

/-- Whether a character ends the path. -/
def endsPath (c : Char) : Bool :=
  c == '?' || c == '#'

/-- A letter and a colon or a bar: what names a drive at the start of a file path. -/
def isDrive : List Char → Bool
  | [c, d] => isAsciiLetter c && (d == ':' || d == '|')
  | _ => false

/-- A drive as it is written in a path. -/
def isWrittenDrive (segment : String) : Bool :=
  match segment.toList with
  | [c, ':'] => isAsciiLetter c
  | _ => false

/-- Whether the text starts with a whole segment that names a drive. -/
def startsWithDrive : List Char → Bool
  | c :: d :: rest =>
    isDrive [c, d] &&
      (match rest with
        | [] => true
        | e :: _ => e == '/' || e == '\\' || endsPath e)
  | _ => false

/-! ## Query and fragment -/

/-- The query and the fragment of what follows a path. -/
def tailParts (kind : SchemeKind) : List Char → Option String × Option String
  | '?' :: rest =>
    let refused := if kind.isSpecial then Percent.inSpecialQuery else Percent.inQuery
    let query := Percent.encode refused (rest.takeWhile (· != '#'))
    match rest.dropWhile (· != '#') with
    | _ :: fragment => (some query, some (Percent.encode Percent.inFragment fragment))
    | [] => (some query, none)
  | '#' :: fragment => (none, some (Percent.encode Percent.inFragment fragment))
  | _ => (none, none)

/-! ## Paths -/

/-- A segment that names the directory itself. -/
def isSingleDot (segment : String) : Bool :=
  [".", "%2e", "%2E"].contains segment

/-- A segment that names the directory above. -/
def isDoubleDot (segment : String) : Bool :=
  ["..", "%2e%2e", "%2e%2E", "%2E%2e", "%2E%2E", "%2e.", "%2E.", ".%2e", ".%2E"].contains segment

/-- The directory above. A drive has none. -/
def parent (done : List String) : List String :=
  match done.getLast? with
  | some segment => if isDrive segment.toList then done else done.dropLast
  | none => []

/-- Segments of a path under construction. -/
structure Walked where
  segments : List String
  /-- Whether a drive was met in the first place, which leaves no room for a host. -/
  metDrive : Bool

/-- Carry out the pieces of a path after the segments `done`. -/
def walk (kind : SchemeKind) (done : List String) (metDrive : Bool) : List (List Char) → Walked
  | [] => ⟨done, metDrive⟩
  | piece :: rest =>
    let segment := Percent.encode Percent.inPath piece
    if isDoubleDot segment then
      if rest.isEmpty then ⟨parent done ++ [""], metDrive⟩
      else walk kind (parent done) metDrive rest
    else if isSingleDot segment then
      if rest.isEmpty then ⟨done ++ [""], metDrive⟩ else walk kind done metDrive rest
    else
      match kind, done, piece with
      | .file, [], [c, d] =>
        if isDrive [c, d] then walk kind [String.ofList [c, ':']] true rest
        else walk kind [segment] metDrive rest
      | _, _, _ => walk kind (done ++ [segment]) metDrive rest

/-- A file path has no empty segments at its start. -/
def withoutEmptyStart (segments : List String) : List String :=
  match segments.dropWhile (· = "") with
  | [] => [""]
  | rest => rest

/-- The path that a text adds to the segments `done`. -/
def extendPath (kind : SchemeKind) (done : List String) (text : List Char) : Walked :=
  let slashed := text.map fun c => if isSlash kind c then '/' else c
  let walked := walk kind done false (Text.pieces '/' slashed)
  match kind with
  | .file => { walked with segments := withoutEmptyStart walked.segments }
  | _ => walked

/-- The path that follows an authority. -/
def pathAfterAuthority (kind : SchemeKind) (text : List Char) : List String :=
  match text with
  | c :: rest =>
    if isSlash kind c then (extendPath kind [] rest).segments
    else (extendPath kind [] text).segments
  | [] => if kind.isSpecial then [""] else []

/-! ## Authorities -/

/-- User name and password as they are written. -/
def userinfo (text : List Char) : String :=
  match Text.splitFirst? ':' text with
  | some (name, []) => Percent.encode Percent.inUserinfo name
  | some (name, password) =>
    Percent.encode Percent.inUserinfo name ++ ":" ++ Percent.encode Percent.inUserinfo password
  | none => Percent.encode Percent.inUserinfo text

/-- The host at the start of a text: up to a colon that is not inside brackets. -/
def hostChars (kind : SchemeKind) (inBrackets : Bool) : List Char → List Char
  | [] => []
  | c :: rest =>
    if (c == ':' && !inBrackets) || isSlash kind c || endsPath c then []
    else
      let inBrackets := if c == '[' then true else if c == ']' then false else inBrackets
      c :: hostChars kind inBrackets rest

/-- A number behind a colon, and the text after it. The number that the scheme implies is left
out. -/
def portNumber (scheme : String) (text : List Char) : Except UrlError (Option Nat × List Char) :=
  let digits := text.takeWhile Char.isDigit
  let rest := text.dropWhile Char.isDigit
  let value := digits.foldl (fun n d => 10 * n + (d.toNat - 48)) 0
  let atEnd :=
    match rest with
    | [] => true
    | c :: _ => c == '/' || c == '\\' || endsPath c
  if 65535 < value ∨ !atEnd then .error .invalidPortNumber
  else if digits.isEmpty ∨ impliedPortNumber? scheme = some value then .ok (none, rest)
  else .ok (some value, rest)

/-- What follows the two slashes of a URL that is not a file: the authority, the path, and the
rest. -/
def afterSlashes (scheme : String) (text : List Char) : Except UrlError Url := do
  let kind := SchemeKind.ofScheme scheme
  let isEnd (c : Char) : Bool := isSlash kind c || endsPath c
  let authority := text.takeWhile fun c => !isEnd c
  let beyond := text.dropWhile fun c => !isEnd c
  let (user, afterUser) :=
    match Text.splitLast? '@' authority with
    | some (user, rest) => (some user, rest)
    | none => (none, authority)
  if user = some [] ∧ afterUser.isEmpty ∧ !beyond.isEmpty then
    throw .emptyHost
  let userText := userinfo (user.getD [])
  let hostText := hostChars kind false afterUser
  if hostText.isEmpty ∧ kind.isSpecial then
    throw .emptyHost
  let host ← if kind.isSpecial then Host.normalize hostText else Host.keep hostText
  let rest := afterUser.drop hostText.length ++ beyond
  let (number, rest) ←
    match rest with
    | ':' :: digits =>
      if host = "" then throw .emptyHost else portNumber scheme digits
    | _ => pure (none, rest)
  if host = "" ∧ userText ≠ "" then
    throw .emptyHost
  let path := pathAfterAuthority kind (rest.takeWhile fun c => !endsPath c)
  let (query, fragment) := tailParts kind (rest.dropWhile fun c => !endsPath c)
  return ⟨scheme, some ⟨userText, host, number⟩, .rooted path, query, fragment⟩

/-! ## File URLs -/

/-- A file URL on a host, empty for this machine, with a path and what follows it. -/
def fileUrl (host : String) (segments : List String) (tail : List Char) : Url :=
  let (query, fragment) := tailParts .file tail
  ⟨"file", some ⟨"", host, none⟩, .rooted segments, query, fragment⟩

/-- The host of a base, empty if there is none. -/
def hostOf (base : Option Url) : String :=
  match base with
  | some ⟨_, some a, _, _, _⟩ => a.host
  | _ => ""

/-- The first segment of a base, if it is a drive. -/
def driveOf (base : Option Url) : Option String :=
  match base with
  | some ⟨_, _, .rooted (s :: _), _, _⟩ => if isWrittenDrive s then some s else none
  | _ => none

/-- What follows the two slashes of a file URL: a host, then a path. A path that starts with a drive
has no host. -/
def fileAfterSlashes (text : List Char) : Except UrlError Url := do
  let isEnd (c : Char) : Bool := isSlash .file c || endsPath c
  let hostText := text.takeWhile fun c => !isEnd c
  let host ← if hostText.isEmpty ∨ isDrive hostText then pure "" else Host.normalize hostText
  let rest := if isDrive hostText then text else text.drop hostText.length
  let path := rest.takeWhile fun c => !endsPath c
  let tail := rest.dropWhile fun c => !endsPath c
  if host = "" ∨ host = "localhost" then
    return fileUrl "" (extendPath .file [] path).segments tail
  else
    let path :=
      match path with
      | c :: after => if isSlash .file c then after else path
      | [] => []
    let walked := extendPath .file [] path
    return fileUrl (if walked.metDrive then "" else host) walked.segments tail

/-- The segments that a relative file path starts from: the base without its last segment, unless
that is a drive. -/
def fileDirectory (segments : List String) : List String :=
  match segments.getLast? with
  | some s => if isWrittenDrive s then segments else segments.dropLast
  | none => []

/-- What follows the scheme of a file URL, or a reference against a file base. -/
def file (base : Option Url) (text : List Char) : Except UrlError Url :=
  let path := text.takeWhile fun c => !endsPath c
  let tail := text.dropWhile fun c => !endsPath c
  match text, base with
  | c :: rest, _ =>
    if isSlash .file c then
      match rest with
      | d :: after =>
        if isSlash .file d then fileAfterSlashes after
        else slashed c rest
      | [] => slashed c rest
    else
      match base with
      | some b => relative b path tail
      | none => .ok (fileUrl "" (extendPath .file [] path).segments tail)
  | [], some b => .ok { b with fragment := none }
  | [], none => .ok (fileUrl "" [""] [])
where
  /-- One slash: the drive of the base, or its host, stays. -/
  slashed (_ : Char) (rest : List Char) : Except UrlError Url :=
    let path := rest.takeWhile fun c => !endsPath c
    let tail := rest.dropWhile fun c => !endsPath c
    if startsWithDrive rest then
      .ok (fileUrl "" (extendPath .file [] path).segments tail)
    else
      match driveOf base with
      | some drive => .ok (fileUrl "" (extendPath .file [drive] path).segments tail)
      | none => .ok (fileUrl (hostOf base) (extendPath .file [] path).segments tail)
  /-- No slash: the directory of the base. -/
  relative (b : Url) (path tail : List Char) : Except UrlError Url :=
    let (query, fragment) := tailParts .file tail
    match path with
    | [] => .ok { b with query := if tail.head? = some '?' then query else b.query, fragment }
    | _ =>
      if startsWithDrive (path ++ tail) then
        .ok (fileUrl "" (extendPath .file [] path).segments tail)
      else
        match b.path with
        | .rooted segments =>
          .ok { b with
            path := .rooted (extendPath .file (fileDirectory segments) path).segments
            query, fragment }
        | .plain _ => .error .relativeToOpaqueBase

/-! ## Relative references -/

/-- A reference against a base that is neither a file nor opaque. -/
def relative (base : Url) (text : List Char) : Except UrlError Url :=
  let kind := base.kind
  let path := text.takeWhile fun c => !endsPath c
  let tail := text.dropWhile fun c => !endsPath c
  let (query, fragment) := tailParts kind tail
  match path with
  | [] => .ok { base with query := if tail.head? = some '?' then query else base.query, fragment }
  | c :: rest =>
    if c = '/' ∨ c = '\\' then
      match rest with
      | d :: _ =>
        if d = '/' ∨ d = '\\' then
          let after :=
            if c = '/' ∧ d = '/' then text.drop 2
            else text.dropWhile fun e => e == '/' || e == '\\'
          afterSlashes base.scheme after
        else
          .ok { base with path := .rooted (extendPath kind [] rest).segments, query, fragment }
      | [] => .ok { base with path := .rooted (extendPath kind [] rest).segments, query, fragment }
    else
      match base.path with
      | .rooted segments =>
        .ok { base with
          path := .rooted (extendPath kind segments.dropLast path).segments
          query, fragment }
      | .plain _ => .error .relativeToOpaqueBase

/-! ## Absolute URLs -/

/-- What follows a scheme that is not special: an authority, a path, or text without structure. -/
def afterOtherScheme (scheme : String) (text : List Char) : Except UrlError Url :=
  let path := text.takeWhile fun c => !endsPath c
  let tail := text.dropWhile fun c => !endsPath c
  let (query, fragment) := tailParts .other tail
  match text with
  | '/' :: '/' :: rest => afterSlashes scheme rest
  | '/' :: _ =>
    .ok ⟨scheme, none, .rooted (extendPath .other [] path.tail).segments, query, fragment⟩
  | _ => .ok ⟨scheme, none, .plain (Percent.encode Percent.isControl path), query, fragment⟩

/-- What follows a scheme. A special scheme equal to that of the base, with fewer than two slashes
after it, is a relative reference. -/
def afterScheme (base : Option Url) (scheme : String) (text : List Char) : Except UrlError Url :=
  match SchemeKind.ofScheme scheme with
  | .file => file (base.filter fun b => b.scheme = "file") text
  | .special =>
    let slashes := text.takeWhile fun c => c == '/' || c == '\\'
    match base with
    | some b =>
      if slashes.length < 2 ∧ b.scheme = scheme then relative b text
      else afterSlashes scheme (text.drop slashes.length)
    | none => afterSlashes scheme (text.drop slashes.length)
  | .other => afterOtherScheme scheme text

/-- Read a text as a URL, against a base if there is one. -/
def resolve (base : Option Url) (text : List Char) : Except UrlError Url :=
  let text := cleaned text
  match scheme? text, base with
  | some (scheme, rest), _ => afterScheme base scheme rest
  | none, none => .error .relativeWithoutBase
  | none, some b =>
    match text with
    | '#' :: fragment =>
      .ok { b with fragment := some (Percent.encode Percent.inFragment fragment) }
    | _ =>
      if b.isOpaque then .error .relativeToOpaqueBase
      else
        match b.kind with
        | .file => file (some b) text
        | _ => relative b text

/-- Read an absolute URL. -/
def parse (text : String) : Except UrlError Url :=
  resolve none text.toList

/-- Resolve a reference against a base. -/
def join (base : Url) (reference : String) : Except UrlError Url :=
  resolve (some base) reference.toList

end Url

end SchemaBundle
