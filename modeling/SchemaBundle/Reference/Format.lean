import SchemaBundle.Layout

/-!
# Kinds of references

A reference text is classified by its characters alone. A bare name such as `Pet` is internal and
stands for the registry entry of that name, so `Reference.normalize` writes it as a local
reference.
-/

namespace SchemaBundle

/-- Where a reference points. -/
inductive RefFormat
  /-- Into the document itself. -/
  | internal
  /-- To a file relative to the document. -/
  | relativeFile
  /-- To an absolute URL. -/
  | url
  deriving DecidableEq, Repr

/-- Whether a reference of this kind leaves the document. -/
def RefFormat.isExternal : RefFormat → Bool
  | internal => false
  | _ => true

namespace Reference

/-- Endings of file names by which a reference is taken for a file. -/
def fileEndings : List (List Char) :=
  [['.', 'j', 's', 'o', 'n'], ['.', 'y', 'a', 'm', 'l'], ['.', 'y', 'm', 'l']]

/-- The kind of a reference text. -/
def classify (reference : String) : RefFormat :=
  let text := reference.toList
  if Text.hasPart [':', '/', '/'] text then .url
  else if text.head? = some '#' then .internal
  else if text.head? = some '.' ∨ text.head? = some '/' ∨ text.contains '#'
      ∨ fileEndings.any (fun ending => Text.hasEnding ending text) then .relativeFile
  else .internal

/-- The kind of a reference, and its text with a bare name written as a local reference. -/
def normalize (reference : String) (layout : Layout) : String × RefFormat :=
  let format := classify reference
  if format = .internal ∧ reference.toList.head? ≠ some '#' then
    (layout.localRef reference, format)
  else
    (reference, format)

end Reference

end SchemaBundle
