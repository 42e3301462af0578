/-!
# Why a text is not a YAML document
-/

namespace SchemaBundle

/-- Why a text is not one YAML document of this reader. -/
inductive YamlError
  /-- The bytes are not UTF-8, or a character is not admitted. -/
  | invalidText
  /-- Characters that make no token where they stand. -/
  | malformedToken
  /-- Tokens in an order that makes no document. -/
  | malformedStructure
  | severalDocuments
  | unknownAnchor (name : String)
  | duplicateKey
  /-- A value that its tag does not admit, or a number that is too large. -/
  | invalidScalar
  | emptyTag
  | tooDeep
  | tooManyAliases
  deriving DecidableEq, Repr

end SchemaBundle
