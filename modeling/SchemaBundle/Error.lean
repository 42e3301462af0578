import SchemaBundle.Url.Error

/-!
# What can go wrong

The causes of failure and their wording. `FetchError` and `ResolveError` concern one reference and
never end a pass; `DocumentError` concerns the text of a whole document. What a computation gives if
nothing goes wrong is compared by `Except.toOption`.
-/

namespace SchemaBundle

/-- What the operating system says about a file. -/
inductive FileError
  | notFound
  | isDirectory
  | notDirectory
  | nameTooLong
  | invalidName
  | other (text : String)
  deriving DecidableEq, Repr

/-- The wording of a file error. -/
def FileError.message : FileError → String
  | notFound => "No such file or directory (os error 2)"
  | isDirectory => "Is a directory (os error 21)"
  | notDirectory => "Not a directory (os error 20)"
  | nameTooLong => "File name too long (os error 36)"
  | invalidName => "file name contained an unexpected NUL byte"
  | other text => text

/-- Why the bytes of a location could not be had. -/
inductive FetchError
  | io (location : String) (cause : FileError)
  | unsupportedScheme (location scheme : String)
  | notFound (location : String)
  | invalidPath (location : String)
  deriving DecidableEq, Repr

/-- The wording of a fetch error. -/
def FetchError.message : FetchError → String
  | io location cause => "I/O error reading " ++ location ++ ": " ++ cause.message
  | unsupportedScheme location scheme =>
    "Unsupported scheme \x60" ++ scheme ++ "\x60 for " ++ location
  | notFound location => "No document registered at " ++ location
  | invalidPath location => location ++ " does not map to a local file path"

/-- Why a reference cannot be followed whatever the documents hold. -/
inductive ReferenceFault
  | severalHashes
  | notAPointer (fragment : String)
  | notAUrl (error : UrlError)
  | rootWithoutFragment
  | nameless
  /-- A fault in other words. -/
  | stated (text : String)
  deriving DecidableEq, Repr

/-- The wording of a fault. -/
def ReferenceFault.message : ReferenceFault → String
  | severalHashes => "more than one \x60#\x60"
  | notAPointer fragment => "fragment \x60" ++ fragment ++ "\x60 is not a JSON Pointer"
  | notAUrl error => error.message
  | rootWithoutFragment => "reference to the root document needs a fragment"
  | nameless => "no definition name"
  | stated text => text

/-- Why one reference could not be resolved. -/
inductive ResolveError
  | malformedReference (reference : String) (fault : ReferenceFault)
  | fetch (location message : String)
  /-- The text at a location is no document. The reader's own words are given only where they are
  known. -/
  | parse (location : String) (detail : Option String)
  | fragmentNotFound (location fragment : String)
  | invalidBaseUri (uri : String) (fault : ReferenceFault)
  deriving DecidableEq, Repr

/-- The wording of a resolve error. -/
def ResolveError.message : ResolveError → String
  | malformedReference reference fault =>
    "Malformed reference " ++ reference ++ ": " ++ fault.message
  | fetch location message => "Failed to fetch " ++ location ++ ": " ++ message
  | parse location none => "Failed to parse " ++ location
  | parse location (some detail) => "Failed to parse " ++ location ++ ": " ++ detail
  | fragmentNotFound location fragment => "Fragment " ++ fragment ++ " not found in " ++ location
  | invalidBaseUri uri fault => "Invalid base URI " ++ uri ++ ": " ++ fault.message

/-- Why a text is no document. -/
inductive DocumentError
  | parse
  | notAMapping (found : String)
  deriving DecidableEq, Repr

/-- The wording of a document error. What the reader says of the text is left out. -/
def DocumentError.message : DocumentError → String
  | parse => "YAML/JSON parsing error"
  | notAMapping found => "Document root must be a mapping (found: " ++ found ++ ")"

/-! ## Results -/

theorem eq_ok_of_toOption {ε α : Type} {x : Except ε α} {a : α} (h : x.toOption = some a) :
    x = .ok a := by
  cases x with
  | error e => cases h
  | ok b => exact congrArg Except.ok (Option.some.inj h)

/-- What is computed of a value that need not be there. -/
theorem exists_of_toOption_map {ε α β : Type} {x : Except ε α} {f : α → β} {b : β}
    (h : x.toOption.map f = some b) : ∃ a, x = .ok a ∧ f a = b := by
  obtain ⟨a, here, same⟩ := Option.map_eq_some_iff.1 h
  exact ⟨a, eq_ok_of_toOption here, same⟩

end SchemaBundle
