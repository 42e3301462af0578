import SchemaBundle.Text.Split

/-!
# Absolute URLs

An absolute URL in its parts, each already in the form in which it is written. `Url.text` puts the
parts together. A path is a list of segments, or one opaque text for schemes such as `urn`, whose
URLs are no base for relative references.
-/

namespace SchemaBundle

/-- The part between the two slashes and the path. -/
structure Authority where
  /-- User name and password, empty when there are none. -/
  userinfo : String
  host : String
  /-- Only where it differs from the one that the scheme implies. -/
  portNumber : Option Nat
  deriving DecidableEq, Repr

/-- The path of a URL. -/
inductive UrlPath
  /-- Text without structure. -/
  | plain (text : String)
  /-- Segments with a slash before each. -/
  | rooted (segments : List String)
  deriving DecidableEq, Repr

/-- An absolute URL. -/
structure Url where
  scheme : String
  authority : Option Authority
  path : UrlPath
  query : Option String
  fragment : Option String
  deriving DecidableEq, Repr

/-- Schemes fall into three kinds with different rules. -/
inductive SchemeKind
  /-- Local files. -/
  | file
  /-- Schemes that always have a host, and in which a backslash is a slash. -/
  | special
  | other
  deriving DecidableEq

namespace SchemeKind

/-- The kind of a scheme in lower case. -/
def ofScheme (scheme : String) : SchemeKind :=
  if scheme = "file" then .file
  else if ["http", "https", "ws", "wss", "ftp"].contains scheme then .special
  else .other

/-- Whether a backslash is a slash. -/
def isSpecial : SchemeKind → Bool
  | .other => false
  | _ => true

end SchemeKind

/-- The number that a scheme implies. -/
def impliedPortNumber? (scheme : String) : Option Nat :=
  if scheme = "http" || scheme = "ws" then some 80
  else if scheme = "https" || scheme = "wss" then some 443
  else if scheme = "ftp" then some 21
  else none

namespace Authority

/-- An authority as written, without the slashes before it. -/
def text (a : Authority) : String :=
  (if a.userinfo = "" then "" else a.userinfo ++ "@") ++ a.host ++
    (match a.portNumber with
      | some n => ":" ++ String.ofList (Nat.toDigits 10 n)
      | none => "")

end Authority

namespace UrlPath

/-- A path as written. -/
def text : UrlPath → String
  | plain t => t
  | rooted segments => segments.foldl (fun t s => t ++ "/" ++ s) ""

end UrlPath

namespace Url

/-- The kind of the scheme. -/
def kind (u : Url) : SchemeKind :=
  SchemeKind.ofScheme u.scheme

/-- Whether the URL is no base for relative references. -/
def isOpaque (u : Url) : Bool :=
  match u.path with
  | .plain _ => true
  | .rooted _ => false

/-- The segments of the path; `none` if it has no structure or is empty. -/
def segments? (u : Url) : Option (List String) :=
  match u.path with
  | .rooted (s :: rest) => some (s :: rest)
  | _ => none

/-- What keeps a path that starts with two slashes from being read as an authority. -/
def pathGuard (u : Url) : String :=
  match u.authority, u.path with
  | none, .rooted ("" :: _ :: _) => "/."
  | _, _ => ""

/-- A URL as written. -/
def text (u : Url) : String :=
  u.scheme ++ ":" ++
    (match u.authority with
      | some a => "//" ++ a.text
      | none => u.pathGuard) ++
    u.path.text ++
    (match u.query with
      | some q => "?" ++ q
      | none => "") ++
    (match u.fragment with
      | some f => "#" ++ f
      | none => "")

instance : ToString Url := ⟨text⟩

/-- Text without the spaces at its end. -/
def trimSpaces (s : String) : String :=
  String.ofList ((s.toList.reverse.dropWhile (· = ' ')).reverse)

/-- The URL without its fragment. Spaces that then end a path without structure go with it. -/
def withoutFragment (u : Url) : Url :=
  match u.path, u.query with
  | .plain t, none => { u with path := .plain (trimSpaces t), fragment := none }
  | _, _ => { u with fragment := none }

end Url

end SchemaBundle
