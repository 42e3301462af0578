import SchemaBundle.Url.Parse

/-!
# File URLs and paths

`Url.filePath?` is the path on this machine that a file URL names, and `Url.ofFilePath` the URL of
an absolute path. Paths are bytes; the system does not ask for a character encoding.
-/

namespace SchemaBundle.Url

/-- The bytes of a path. A path that ends with a drive gets a slash after it. -/
def pathBytes (segments : List String) : List UInt8 :=
  let bytes := segments.flatMap fun segment => 47 :: Percent.decode segment.toList
  match bytes.reverse with
  | last :: letter :: _ :: _ =>
    let isLetter := isAsciiLetter (Char.ofNat letter.toNat)
    if isLetter && (last == 58 || last == 124) then bytes ++ [47] else bytes
  | _ => bytes

/-- The path of a URL without host. -/
def filePath? (url : Url) : Option (List UInt8) :=
  match url.authority, url.segments? with
  | some a, some segments => if a.host = "" then some (pathBytes segments) else none
  | none, some segments => some (pathBytes segments)
  | _, none => none

/-- Characters that a segment of a file URL does not admit. -/
def inFileSegment (c : Char) : Bool :=
  Percent.inPath c || ['/', '%', '\\'].contains c

/-- A name of a path as a segment. -/
def fileSegment (name : List UInt8) : List Char :=
  name.flatMap fun byte =>
    let c := Char.ofNat byte.toNat
    if 128 ≤ byte.toNat || inFileSegment c then Percent.encodeByte byte else [c]

/-- The text of the URL of an absolute path, given by its names. -/
def ofFilePath (names : List (List UInt8)) : String :=
  match names with
  | [] => "file:///"
  | _ => "file://" ++ String.ofList (names.flatMap fun name => '/' :: fileSegment name)

end SchemaBundle.Url
