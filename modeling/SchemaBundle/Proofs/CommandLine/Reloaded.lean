import SchemaBundle.CommandLine.Run
import SchemaBundle.Proofs.Resolve.Positions
import SchemaBundle.Proofs.Resolve.ReadBack
import SchemaBundle.Proofs.Schema.Outline
import SchemaBundle.Proofs.Yaml.Loading

/-!
# Loading the output of the program

In what the program reads no name comes twice in an object and whole numbers are in range. A bundle
is put together of such values, with other texts in its references, and has these properties again
(`Document.exists_toJson_of_resolve`). So only its nesting and the characters of its texts decide
whether what is written of it is loaded as it was (`resolve_reloads_iff`). Each of the two can fail
(`resolve_loses`).
-/

namespace SchemaBundle

/-! ## Bundles that can be loaded -/

namespace Json

variable {members : Members}

theorem Loadable.insert {value : Json} (loadable : (Json.obj members).Loadable) (key : String)
    (inner : value.Loadable) : (Json.obj (Entries.insert key value members)).Loadable := by
  obtain ⟨distinct, all⟩ := loadable_obj_iff.1 loadable
  refine loadable_obj_iff.2 ⟨Entries.distinct_insert distinct key value, fun entry member => ?_⟩
  rcases Entries.mem_insert member with rfl | member
  · exact inner
  · exact all entry member

theorem Loadable.of_find? {key : String} {value : Json} (loadable : (Json.obj members).Loadable)
    (found : Entries.find? key members = some value) : value.Loadable :=
  (loadable_obj_iff.1 loadable).2 _ (Entries.mem_of_find? found)

end Json

namespace Document

variable {layout : Layout} {root : Members} {value : Json} {document : Document}

theorem loadable_withRegistry (loadable : (Json.obj root).Loadable) (inner : value.Loadable) :
    (Json.obj (withRegistry layout root value)).Loadable := by
  cases layout with
  | swagger2 => exact loadable.insert _ inner
  | openApi3 =>
    simp only [withRegistry]
    split
    · have single : (Json.obj [("schemas", value)]).Loadable :=
        Json.loadable_obj_iff.2 ⟨List.nodup_singleton _, by simpa using inner⟩
      exact loadable.insert _ single
    · rename_i components present
      exact loadable.insert _ ((loadable.of_find? present).insert _ inner)
    · exact loadable

theorem loadable_of_registryValue (loadable : (Json.obj root).Loadable)
    (present : registryValue layout root = some value) : value.Loadable := by
  rcases cases_of_registryValue present with ⟨-, found⟩ | ⟨-, components, found, inner⟩
  · exact loadable.of_find? found
  · exact (loadable.of_find? found).of_find? inner

theorem loadable_rest (loadable : (Json.obj root).Loadable)
    (read : ofJson (.obj root) = .ok document) : (Json.obj document.rest).Loadable := by
  obtain rfl := Except.ok.inj read
  dsimp only
  split
  · exact loadable_withRegistry loadable trivial
  · exact loadable

/-- A document that was read from bytes was loaded. -/
theorem exists_root_of_ofBytes {bytes : Bytes} (read : ofBytes bytes = .ok document) :
    ∃ root, (Json.obj root).Loadable ∧ ofJson (.obj root) = .ok document := by
  unfold ofBytes at read
  split at read
  · rename_i value loaded
    cases value with
    | obj root => exact ⟨root, loadable_of_loadJson loaded, read⟩
    | _ => cases read
  · cases read

/-- A document is written as a value that can be loaded if its definitions are. -/
theorem exists_toJson_eq_obj (rest : (Json.obj document.rest).Loadable)
    (distinct : document.definitions.Distinct)
    (each : ∀ entry ∈ document.definitions, entry.2.toJson.Loadable) :
    ∃ members, document.toJson = .obj members ∧ (Json.obj members).Loadable := by
  have registry : (Json.obj document.definitions.toMembers).Loadable := by
    refine Json.loadable_obj_iff.2 ⟨?_, fun entry member => ?_⟩
    · simpa [Definitions.toMembers, Entries.Distinct, Entries.keys, Function.comp_def] using distinct
    · obtain ⟨definition, isDefinition, rfl⟩ := List.mem_map.1 member
      exact each definition isDefinition
  unfold toJson
  split
  · exact ⟨_, rfl, loadable_withRegistry rest registry⟩
  · exact ⟨_, rfl, rest⟩

end Document

/-- The output of a pass over a document that was loaded is a value that can be loaded. -/
theorem Document.exists_toJson_of_resolve {bytes : Bytes} {document : Document}
    (read : Document.ofBytes bytes = .ok document) {fetcher : Fetcher} {options : Options}
    {result : Resolved} (resolved : document.resolve fetcher options = .ok result) :
    ∃ members, result.document.toJson = .obj members ∧ (Json.obj members).Loadable := by
  obtain ⟨root, loadable, read⟩ := exists_root_of_ofBytes read
  obtain ⟨location, known⟩ := Document.exists_rootUrl_of_resolve fetcher options document resolved
  obtain ⟨copies, done, bundled⟩ :=
    document.lastPass_bundled fetcher options (Options.isLocation_of_rootUrl known)
  rw [Document.resolve_of_rootUrl fetcher options document known, Except.ok.injEq] at resolved
  subst resolved
  generalize document.lastPass fetcher options location = q at *
  have rest : (Json.obj document.rest).Loadable := loadable_rest loadable read
  refine exists_toJson_eq_obj rest
    (bundled.merges.distinct_definitions (distinct_of_ofJson loadable.wellFormed read))
    fun entry member => ?_
  -- A definition is written as its source but for the texts of references.
  obtain ⟨source, isSource, room, related⟩ := forall₂_right bundled.forall₂_sources member
  rw [← (alike_of_relWithin bundled.sound related).loadable_toJson_iff]
  rcases mem_bundleSources.1 isSource with ⟨before, isDefinition, rfl⟩ | ⟨copy, isCopy, rfl⟩
  · obtain ⟨schemas, part, present, isSchema, same⟩ := exists_schema_of_mem read isDefinition
    have registry := loadable_of_registryValue loadable present
    rw [same]
    exact loadable_toJson_ofJson _ ((Json.loadable_obj_iff.1 registry).2 _ isSchema)
  · obtain ⟨part, loadable, same⟩ :=
      ((bundled.merges.faithful copy isCopy).isRead bundled.sound).exists_value
    rw [same]
    exact loadable_toJson_ofJson _ loadable

/-! ## Loading the output -/

namespace CommandLine

open Yaml

/-- A written value is its text in one of the two layouts, and a line break. -/
theorem ResolveCommand.exists_spacing (command : ResolveCommand) (destination : Option String)
    (value : Json) : ∃ sp, Spacious sp ∧
      (command.writing destination value).text.toList = value.laidOut sp 0 ++ ['\n'] := by
  rw [writing]
  cases command.format with
  | pretty =>
    refine ⟨.lines, spacious_lines, ?_⟩
    simp [OutputFormat.text, Json.pretty, Json.laidOut_lines]
  | compact =>
    refine ⟨.none, spacious_none, ?_⟩
    simp [OutputFormat.text, Json.compact, Json.laidOut_none]

theorem ResolveCommand.loadJson_writing_iff (command : ResolveCommand)
    (destination : Option String) {members : Members} (loadable : (Json.obj members).Loadable) :
    loadJson (command.writing destination (.obj members)).text.toUTF8.toList = .ok (.obj members) ↔
      (Json.obj members).Reloads := by
  obtain ⟨sp, spacious, text⟩ := command.exists_spacing destination (.obj members)
  exact loadJson_laidOut_iff spacious loadable text

/-- **Which output is read back.** A document is loaded and resolved, with whatever other documents
and options, and written in either layout. The text is loaded as the value that was written, with its
members in the same order, exactly if the nesting of this value is within the bound of the reader,
the reader admits its characters, its keys are short and on one line, and its strings have no breaks
that a reader folds. No number, no reference and no change that a pass makes to a schema keeps the
text from being read back. -/
theorem resolve_reloads_iff {bytes : Bytes} {document : Document}
    (read : Document.ofBytes bytes = .ok document) {fetcher : Fetcher} {options : Options}
    {result : Resolved} (resolved : document.resolve fetcher options = .ok result)
    (command : ResolveCommand) (destination : Option String) :
    loadJson (command.writing destination result.document.toJson).text.toUTF8.toList
      = .ok result.document.toJson ↔ result.document.toJson.Reloads := by
  obtain ⟨members, written, loadable⟩ := Document.exists_toJson_of_resolve read resolved
  rw [written]
  exact command.loadJson_writing_iff destination loadable

end CommandLine

/-- What a pass leaves of a document that is loaded. -/
def Document.bundle? (bytes : Bytes) (fetcher : Fetcher) : Option Resolved := do
  let document ← (Document.ofBytes bytes).toOption
  (document.resolve fetcher .default).toOption

theorem Document.exists_of_bundle? {bytes : Bytes} {fetcher : Fetcher} {α : Type}
    {f : Resolved → α} {x : α} (h : (Document.bundle? bytes fetcher).map f = some x) :
    ∃ document result, Document.ofBytes bytes = .ok document ∧
      document.resolve fetcher .default = .ok result ∧ f result = x := by
  obtain ⟨result, found, same⟩ := Option.map_eq_some_iff.1 h
  obtain ⟨document, read, resolved⟩ := Option.bind_eq_some_iff.1 found
  exact ⟨document, result, eq_ok_of_toOption read, eq_ok_of_toOption resolved, same⟩

/-- The document with the definition that stands in another document, before it is loaded. -/
def Sample.documentBytes : Bytes :=
  "definitions: \x7bStart: \x7b$ref: 'pets.yaml#/definitions/Pet'\x7d\x7d".toUTF8.toList

/-- The bundle of two documents is read back, however it is written. -/
theorem CommandLine.resolve_reloads_iff_sample : ∃ document result,
    Document.ofBytes Sample.documentBytes = .ok document ∧
    document.resolve Sample.fetcher .default = .ok result ∧
    Entries.keys result.document.definitions = ["Start", "Tag", "Pet"] ∧
    ∀ (command : ResolveCommand) (destination : Option String),
      loadJson (command.writing destination result.document.toJson).text.toUTF8.toList
        = .ok result.document.toJson := by
  have run : (Document.bundle? Sample.documentBytes Sample.fetcher).map (fun result =>
      (Entries.keys result.document.definitions, decide result.document.toJson.Reloads))
      = some (["Start", "Tag", "Pet"], true) := by
    decide +kernel
  obtain ⟨document, result, read, resolved, facts⟩ := Document.exists_of_bundle? run
  obtain ⟨names, reloads⟩ := Prod.mk.inj facts
  refine ⟨document, result, read, resolved, names, fun command destination => ?_⟩
  exact (resolve_reloads_iff read resolved command destination).2 (of_decide_eq_true reloads)

/-! ## Output that is not read back -/

namespace Sample

/-- A document with a definition that stands in another one. -/
def shallow : Bytes :=
  "definitions: \x7bDeep: \x7b$ref: deep.yaml\x7d\x7d".toUTF8.toList

/-- The other document: a list nested as deep as can be loaded, each item on the line of its list. -/
def deep : Fetcher :=
  .inMemory [("file:///deep.yaml", (List.replicate Yaml.maxNesting "- ".toUTF8.toList).flatten)]

/-- A document with a control character, which has to be escaped in it. -/
def control : Bytes :=
  "info: \"\\x7F\"".toUTF8.toList

/-- A document with a line break, which has to be escaped in it. -/
def nextLine : Bytes :=
  "info: \"\\N\"".toUTF8.toList

end Sample

/-- A document that is loaded and resolved, and written in no layout so that it is read back. -/
def CommandLine.IsLost (bytes : Bytes) (fetcher : Fetcher) : Prop :=
  ∃ document result, Document.ofBytes bytes = .ok document ∧
    document.resolve fetcher .default = .ok result ∧
    ∀ (command : ResolveCommand) (destination : Option String),
      loadJson (command.writing destination result.document.toJson).text.toUTF8.toList
        ≠ .ok result.document.toJson

theorem CommandLine.isLost_of_bundle? {bytes : Bytes} {fetcher : Fetcher}
    (h : (Document.bundle? bytes fetcher).map (fun result =>
      decide result.document.toJson.Reloads) = some false) : IsLost bytes fetcher := by
  obtain ⟨document, result, read, resolved, lost⟩ := Document.exists_of_bundle? h
  refine ⟨document, result, read, resolved, fun command destination loaded => ?_⟩
  obtain ⟨members, written, loadable⟩ := Document.exists_toJson_of_resolve read resolved
  rw [written] at loaded lost
  exact of_decide_eq_false lost ((command.loadJson_writing_iff destination loadable).1 loaded)

/-- A document that was loaded is copied to where it is nested too deep, a control character is
written as it is and not admitted there, and a line break is written as it is and folded. -/
theorem CommandLine.resolve_loses : IsLost Sample.shallow Sample.deep ∧
    IsLost Sample.control Sample.fetcher ∧ IsLost Sample.nextLine Sample.fetcher :=
  ⟨isLost_of_bundle? (by decide +kernel), isLost_of_bundle? (by decide +kernel),
    isLost_of_bundle? (by decide +kernel)⟩

end SchemaBundle
