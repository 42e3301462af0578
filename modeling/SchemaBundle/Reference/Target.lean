import SchemaBundle.Error
import SchemaBundle.Json.Pointer
import SchemaBundle.Url.Parse

/-!
# What an external reference points at

A target is an absolute document location and a pointer into the document. `Target.locate` reads a
reference that was written in a document at a base; `Target.key` identifies the target, and
`Target.absoluteReference` is a reference to it that means the same in every document.
-/

namespace SchemaBundle

/-- Identity of a fragment: the text of its document's location and its pointer. -/
structure TargetKey where
  location : String
  fragment : String
  deriving DecidableEq, Repr

/-- A key as it is shown. -/
def TargetKey.text (key : TargetKey) : String :=
  key.location ++ "#" ++ key.fragment

/-- A fragment of an external document. -/
structure Target where
  /-- The document, without fragment. -/
  location : Url
  /-- The pointer into the document; `none` for the whole of it. -/
  fragment : Option String
  deriving DecidableEq, Repr

namespace Target

/-- The pointer that stands behind the hash of a reference, if anything does. -/
def pointer? (reference : String) : Option (List Char) → Except ResolveError (Option String)
  | none => .ok none
  | some fragment =>
    if fragment.contains '#' then
      .error (.malformedReference reference .severalHashes)
    else if fragment = [] ∨ fragment = ['/'] then
      .ok none
    else if fragment.head? = some '/' then
      .ok (some (String.ofList fragment))
    else
      .error (.malformedReference reference (.notAPointer (String.ofList fragment)))

/-- The target of a reference that is written in the document at `base`. A reference without a file
part points into that document. -/
def locate (reference : String) (base : Url) : Except ResolveError Target :=
  let (file, behind) :=
    match Text.splitFirst? '#' reference.toList with
    | some (file, fragment) => (file, some fragment)
    | none => (reference.toList, none)
  match pointer? reference behind with
  | .error e => .error e
  | .ok fragment =>
    match Url.resolve (some base) file with
    | .error e => .error (.malformedReference reference (.notAUrl e))
    | .ok location => .ok ⟨location.withoutFragment, fragment⟩

/-- The identity of a target. -/
def key (target : Target) : TargetKey :=
  ⟨target.location.text, target.fragment.getD ""⟩

/-- A reference to the target that is valid in any document. -/
def absoluteReference (target : Target) : String :=
  match target.fragment with
  | some fragment => target.location.text ++ "#" ++ fragment
  | none => target.location.text

/-- The name of a file without its last extension; `none` if nothing is left. -/
def stem? (file : String) : Option String :=
  let stem :=
    match Text.splitLast? '.' file.toList with
    | some (before, _) => before
    | none => file.toList
  if stem.isEmpty then none else some (String.ofList stem)

/-- The name that the fragment would take in a registry: the last segment of its pointer, else the
stem of its file's name. -/
def definitionName? (target : Target) : Option String :=
  match target.fragment.bind Pointer.lastSegment? with
  | some name => some name
  | none => target.location.segments?.bind fun segments => segments.getLast?.bind stem?

/-- The value that the target selects in its document. -/
def select (target : Target) (document : Json) : Except ResolveError Json :=
  match target.fragment with
  | none => .ok document
  | some fragment =>
    match document.select? fragment with
    | some value => .ok value
    | none => .error (.fragmentNotFound target.location.text fragment)

end Target

end SchemaBundle
