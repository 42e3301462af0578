import SchemaBundle.Entries
import SchemaBundle.Error
import SchemaBundle.Url.FilePath

/-!
# Where the bytes of documents come from

A fetcher answers requests for locations. Its answer may depend on how many requests came before;
the fetchers of this library, documents in memory and files, do not use that. With it comes what is
said of bytes that cannot be read, which is worded outside of this library.
-/

namespace SchemaBundle

/-- The contents of a file. -/
abbrev Bytes := List UInt8

/-- What the reader of texts says of bytes in which it finds no document, if its words are known.
They hang on the bytes alone. -/
abbrev ReaderWords := Bytes → Option String

/-- The words of a reader of which none are known. -/
def ReaderWords.unknown : ReaderWords := fun _ => none

/-- Where documents come from. -/
structure Fetcher where
  /-- The answers to requests: the first argument counts the requests made before. -/
  answer : Nat → Url → Except FetchError Bytes
  /-- What is said of answers that cannot be read. -/
  words : ReaderWords := .unknown

namespace Fetcher

/-- A fetcher whose answers depend on the location alone. -/
def ofFunction (f : Url → Except FetchError Bytes) (words : ReaderWords := .unknown) : Fetcher :=
  ⟨fun _ location => f location, words⟩

/-- Documents registered under the texts of their locations. -/
def inMemory (documents : Entries Bytes) : Fetcher :=
  ofFunction fun location =>
    match Entries.find? location.text documents with
    | some bytes => .ok bytes
    | none => .error (.notFound location.text)

/-- Files, which are opened by their paths. What else opening gives is of no interest here. -/
def ofFiles {α : Type} (openFile : Bytes → Except FileError (α × Bytes))
    (words : ReaderWords := .unknown) : Fetcher :=
  ofFunction
    (fun location =>
      if location.scheme = "file" then
        match location.filePath? with
        | some path =>
          match openFile path with
          | .ok (_, bytes) => .ok bytes
          | .error cause => .error (.io location.text cause)
        | none => .error (.invalidPath location.text)
      else .error (.unsupportedScheme location.text location.scheme))
    words

end Fetcher

end SchemaBundle
