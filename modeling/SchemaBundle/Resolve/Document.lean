import SchemaBundle.Resolve.Walk

/-!
# Resolving a document

`Document.resolve` runs one pass over the registry of a document. It fails only if the location of
the document is no absolute URL; whatever goes wrong with single references is in the report.
-/

namespace SchemaBundle

/-- What a pass leaves. -/
structure Resolved where
  document : Document
  report : Report
  /-- The cache at the end. -/
  cache : Cache

namespace Document

/-- Run a pass over the registry of a document, with a cache that may have been used before. -/
def resolveWith (fetcher : Fetcher) (options : Options) (cache : Cache) (document : Document) :
    Resolved :=
  let setting : Setting := ⟨document.layout, fetcher, options⟩
  let (_, pass) := (Walk.resolveDefinitions setting).run (Pass.start document.definitions cache)
  { document := { document with definitions := pass.definitions }
    report := ⟨pass.warnings, pass.merged, pass.cache.fetches⟩
    cache := pass.cache }

/-- Resolve every reference of a document. -/
def resolve (fetcher : Fetcher) (options : Options) (document : Document) :
    Except ResolveError Resolved := do
  return document.resolveWith fetcher options (Cache.empty (← options.rootUrl))

end Document

end SchemaBundle
