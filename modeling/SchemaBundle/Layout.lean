import SchemaBundle.Json.Pointer

/-!
# Where a document keeps its definitions

Two generations of the format keep their registry of named schemas in different places. A local
reference names a definition by the place of the registry and the name as a pointer segment;
`Layout.localName?_localRef` says that the name can be read back.
-/

namespace SchemaBundle

/-- The place of the definitions registry. -/
inductive Layout
  /-- Under `definitions`. -/
  | swagger2
  /-- Under `schemas` in `components`. -/
  | openApi3
  deriving DecidableEq, Repr

namespace Layout

/-- What every local reference to a definition starts with. -/
def start : Layout → String
  | swagger2 => "#/definitions/"
  | openApi3 => "#/components/schemas/"

/-- The local reference to a definition. -/
def localRef (layout : Layout) (name : String) : String :=
  layout.start ++ Pointer.escape name

/-- The definition that a reference names, if it points directly at a registry entry. -/
def localName? (layout : Layout) (reference : String) : Option String :=
  match Text.afterStart? layout.start.toList reference.toList with
  | some segment =>
    if segment.isEmpty ∨ segment.contains '/' then none
    else some (String.ofList (Pointer.unescapeChars segment))
  | none => none

theorem slash_notMem_escapeChars (s : List Char) : '/' ∉ Pointer.escapeChars s := by
  induction s with
  | nil => simp [Pointer.escapeChars]
  | cons c rest ih =>
    by_cases ht : c = '~'
    · simp [Pointer.escapeChars, ht, ih]
    · by_cases hs : c = '/'
      · simp [Pointer.escapeChars, hs, ih]
      · simp [Pointer.escapeChars, ht, hs, ih, Ne.symm hs]

theorem escapeChars_eq_nil {s : List Char} : Pointer.escapeChars s = [] ↔ s = [] := by
  cases s with
  | nil => simp [Pointer.escapeChars]
  | cons c rest =>
    by_cases ht : c = '~'
    · simp [Pointer.escapeChars, ht]
    · by_cases hs : c = '/' <;> simp [Pointer.escapeChars, ht, hs]

theorem localName?_localRef (layout : Layout) {name : String} (h : name ≠ "") :
    layout.localName? (layout.localRef name) = some name := by
  have hne : name.toList ≠ [] := by simpa [String.toList_eq_nil_iff] using h
  simp only [localName?, localRef, Pointer.escape, String.toList_append, String.toList_ofList,
    Text.afterStart?_append]
  rw [if_neg, Pointer.unescapeChars_escapeChars, String.ofList_toList]
  simp [escapeChars_eq_nil, hne, slash_notMem_escapeChars]

end Layout

end SchemaBundle
