import SchemaBundle.Proofs.Reference.Located
import SchemaBundle.Proofs.Schema.Members

/-!
# Paths as references

A path of keys leads to a part of a value (`Json.atPath?`). Each key becomes a segment of a pointer,
with its tildes and slashes escaped, and the pointer stands behind the hash of a reference
(`Pointer.ofPath`). Four readers meet there: the reference is cut at its hash, the pointer is cut at
its slashes, its segments are unescaped and followed into the value, and the last segment is taken
for a name. They take the reference apart as it was put together (`Target.locate_ofPath`): the
target selects the part that the path leads to, and nothing where the path leaves the value; and its
name is the last key.
-/

namespace SchemaBundle

/-- The pointer that leads along a path of keys. -/
def Pointer.ofPath : List String → String
  | [] => ""
  | key :: rest => "/" ++ Pointer.escape key ++ Pointer.ofPath rest

namespace Json

/-- The part of a value that a path of keys leads to, through objects alone. -/
def atPath? (value : Json) : List String → Option Json
  | [] => some value
  | key :: rest => (value.member? key).bind fun inner => inner.atPath? rest

/-- On the way along a path, a key is not there: what comes before it leads to an object that does
not have it. -/
def Lacks (value : Json) (path : List String) : Prop :=
  ∃ before key rest members, path = before ++ key :: rest ∧
    value.atPath? before = some (.obj members) ∧ key ∉ Entries.keys members

end Json

/-! ## The characters of a pointer -/

namespace Pointer

theorem toList_ofPath_cons (key : String) (rest : List String) :
    (ofPath (key :: rest)).toList = '/' :: (escapeChars key.toList ++ (ofPath rest).toList) := by
  simp [ofPath, escape]

theorem ofPath_append (before after : List String) :
    ofPath (before ++ after) = ofPath before ++ ofPath after := by
  induction before with
  | nil => simp [ofPath]
  | cons key rest ih => rw [List.cons_append, ofPath, ofPath, ih, ← String.append_assoc]

/-- Escaping brings no other characters in than those of the escapes. -/
theorem mem_of_mem_escapeChars {c : Char} {text : List Char} (h : c ∈ escapeChars text)
    (other : c ∉ ['~', '0', '1']) : c ∈ text := by
  simp only [List.mem_cons, List.not_mem_nil, or_false, not_or] at other
  induction text with
  | nil => exact h
  | cons d rest ih =>
    unfold escapeChars at h
    split at h
    · simp only [List.mem_cons, other, false_or] at h
      exact List.mem_cons_of_mem _ (ih h)
    · split at h
      · simp only [List.mem_cons, other, false_or] at h
        exact List.mem_cons_of_mem _ (ih h)
      · rcases List.mem_cons.1 h with rfl | h
        · exact List.mem_cons_self
        · exact List.mem_cons_of_mem _ (ih h)

theorem hash_notMem_ofPath {path : List String} (h : ∀ key ∈ path, '#' ∉ key.toList) :
    '#' ∉ (ofPath path).toList := by
  induction path with
  | nil => simp [ofPath]
  | cons key rest ih =>
    rw [List.forall_mem_cons] at h
    have noKey : '#' ∉ escapeChars key.toList := fun member =>
      h.1 (mem_of_mem_escapeChars member (by decide))
    rw [toList_ofPath_cons, List.mem_cons, List.mem_append]
    rintro (isSlash | member | member)
    · exact absurd isSlash (by decide)
    · exact noKey member
    · exact ih h.2 member

/-- A path that names anything is a pointer as it stands in a reference. -/
theorem isPointer_ofPath {path : List String} (nonempty : path ≠ []) (proper : path ≠ [""])
    (h : ∀ key ∈ path, '#' ∉ key.toList) : Target.IsPointer (ofPath path) where
  noHash := hash_notMem_ofPath h
  slash := by
    obtain ⟨key, rest, rfl⟩ := List.exists_cons_of_ne_nil nonempty
    rw [toList_ofPath_cons]
    rfl
  ne_slash := by
    obtain ⟨key, rest, rfl⟩ := List.exists_cons_of_ne_nil nonempty
    intro isSlash
    have chars := congrArg String.toList isSlash
    rw [toList_ofPath_cons] at chars
    obtain ⟨noKey, noRest⟩ := List.append_eq_nil_iff.1 (List.cons.inj chars).2
    rw [Layout.escapeChars_eq_nil, String.toList_eq_nil_iff] at noKey
    cases rest with
    | nil => exact proper (by rw [noKey])
    | cons next rest =>
      rw [toList_ofPath_cons] at noRest
      cases noRest

/-- The pointer is cut into its keys, and each is unescaped. -/
theorem segments?_ofPath (path : List String) :
    segments? (ofPath path).toList = some (path.map String.toList) := by
  induction path with
  | nil => rfl
  | cons key rest ih =>
    have noSlash := Layout.slash_notMem_escapeChars key.toList
    have same := unescapeChars_escapeChars key.toList
    rw [toList_ofPath_cons]
    cases rest with
    | nil =>
      simp [segments?, ofPath, Text.pieces_of_notMem noSlash, same]
    | cons next rest =>
      rw [toList_ofPath_cons] at ih ⊢
      rw [segments?, Text.pieces_append noSlash, List.map_cons, same, List.map_cons]
      simpa [segments?] using ih

/-- The last segment, unescaped, is the last key. -/
theorem lastSegment?_ofPath (before : List String) {key : String} (nonempty : key ≠ "") :
    lastSegment? (ofPath (before ++ [key])) = some key := by
  have chars : (ofPath (before ++ [key])).toList
      = (ofPath before).toList ++ '/' :: escapeChars key.toList := by
    rw [ofPath_append, String.toList_append, toList_ofPath_cons]
    simp [ofPath]
  have noSlash := Layout.slash_notMem_escapeChars key.toList
  have some' : escapeChars key.toList ≠ [] := by
    rwa [ne_eq, Layout.escapeChars_eq_nil, String.toList_eq_nil_iff]
  obtain ⟨c, segment, isCons⟩ := List.exists_cons_of_ne_nil some'
  have same := unescapeChars_escapeChars key.toList
  rw [lastSegment?, chars, Text.splitLast?_append noSlash, isCons]
  rw [isCons] at same
  simp [same]

end Pointer

/-! ## Following a path -/

namespace Json

variable {value node : Json} {path : List String}

/-- A path that leads somewhere leads where its pointer does. -/
theorem descend?_of_atPath? (h : value.atPath? path = some node) :
    value.descend? (path.map String.toList) = some node := by
  induction path generalizing value with
  | nil => exact h
  | cons key rest ih =>
    obtain ⟨inner, found, inside⟩ := Option.bind_eq_some_iff.1 h
    cases value with
    | obj members =>
      have child : child? key.toList (.obj members) = some inner := by
        rw [child?, String.ofList_toList]
        exact found
      rw [List.map_cons, descend?, child]
      exact ih inside
    | _ => cases found

theorem descend?_append (value : Json) (before after : List (List Char)) :
    value.descend? (before ++ after)
      = (value.descend? before).bind fun inner => inner.descend? after := by
  induction before generalizing value with
  | nil => rfl
  | cons segment rest ih =>
    rw [List.cons_append, descend?, descend?, Option.bind_assoc]
    exact Option.bind_congr fun inner _ => ih inner

/-- A path that leaves the value leads nowhere. -/
theorem descend?_of_lacks (h : value.Lacks path) :
    value.descend? (path.map String.toList) = none := by
  obtain ⟨before, key, rest, members, rfl, found, absent⟩ := h
  have missing : child? key.toList (.obj members) = none := by
    rw [child?, String.ofList_toList]
    exact Entries.find?_eq_none_iff.2 absent
  rw [List.map_append, List.map_cons, descend?_append, descend?_of_atPath? found, Option.bind_some,
    descend?, missing]
  rfl

theorem select?_ofPath (value : Json) (path : List String) :
    value.select? (Pointer.ofPath path) = value.descend? (path.map String.toList) := by
  rw [select?, Pointer.segments?_ofPath, Option.bind_some]

end Json

namespace Target

/-- **A path is followed as it was written.** Behind the hash of a reference, the escaped keys of a
path give a target with this pointer in the document that the file part leads to. It selects the
part of the document that the path leads to, and refuses a path that leaves the document; and its
name is the last key, unless that is empty. -/
theorem locate_ofPath {base location : Url} {file : String}
    (joined : Url.join base file = .ok location) (noHash : '#' ∉ file.toList) {path : List String}
    (nonempty : path ≠ []) (proper : path ≠ [""]) (keys : ∀ key ∈ path, '#' ∉ key.toList)
    (document : Json) :
    ∃ t, locate (file ++ "#" ++ Pointer.ofPath path) base = .ok t ∧
      t.location = location.withoutFragment ∧ t.fragment = some (Pointer.ofPath path) ∧
      (∀ node, document.atPath? path = some node → t.select document = .ok node) ∧
      (∀ key, path.getLast? = some key → key ≠ "" → t.definitionName? = some key) ∧
      (document.Lacks path →
        t.select document
          = .error (.fragmentNotFound location.withoutFragment.text (Pointer.ofPath path))) := by
  have isPointer := Pointer.isPointer_ofPath nonempty proper keys
  refine ⟨⟨location.withoutFragment, some (Pointer.ofPath path)⟩, ?_, rfl, rfl, ?_, ?_, ?_⟩
  · rw [locate_pointer noHash isPointer, ← Url.join, joined]
    rfl
  · intro node found
    have selected : document.select? (Pointer.ofPath path) = some node := by
      rw [Json.select?_ofPath, Json.descend?_of_atPath? found]
    simp [select, selected]
  · intro key last named
    obtain ⟨before, rfl⟩ := List.getLast?_eq_some_iff.1 last
    simp [definitionName?, Pointer.lastSegment?_ofPath before named]
  · intro lacks
    have missing : document.select? (Pointer.ofPath path) = none := by
      rw [Json.select?_ofPath, Json.descend?_of_lacks lacks]
    simp [select, missing]

/-! ## Keys that need escapes -/

namespace Sample

/-- Keys that are made of what pointers are made of, and an empty one between them. -/
def path : List String :=
  ["~1/", "", "~01~"]

/-- A document with this path, as far as its last key and with it. -/
def document : Json :=
  .obj [("/~1", .null), ("~1/", .obj [("", .obj [("~01~", .bool true), ("~1~", .null)])])]

end Sample

/-- The path is found and names its last key; with a key that the last object does not have, it is
not found. -/
theorem locate_ofPath_escaped :
    Pointer.ofPath Sample.path = "/~01~1//~001~0" ∧
    (∃ t, locate "pets.yaml#/~01~1//~001~0"
        ⟨"file", some ⟨"", "", none⟩, .rooted ["swagger.yaml"], none, none⟩ = .ok t ∧
      t.select Sample.document = .ok (.bool true) ∧ t.definitionName? = some "~01~") ∧
    ∃ t, locate "pets.yaml#/~01~1//~0"
        ⟨"file", some ⟨"", "", none⟩, .rooted ["swagger.yaml"], none, none⟩ = .ok t ∧
      t.select Sample.document = .error (.fragmentNotFound "file:///pets.yaml" "/~01~1//~0") := by
  have joined : Url.join ⟨"file", some ⟨"", "", none⟩, .rooted ["swagger.yaml"], none, none⟩
      "pets.yaml" = .ok ⟨"file", some ⟨"", "", none⟩, .rooted ["pets.yaml"], none, none⟩ := rfl
  have proper : Sample.path ≠ [] ∧ Sample.path ≠ [""] ∧ ∀ key ∈ Sample.path, '#' ∉ key.toList := by
    decide
  have proper' : ["~1/", "", "~"] ≠ [] ∧ ["~1/", "", "~"] ≠ [""] ∧
      ∀ key ∈ ["~1/", "", "~"], '#' ∉ key.toList := by
    decide
  obtain ⟨t, located, -, -, selected, named, -⟩ :=
    locate_ofPath joined (by decide) proper.1 proper.2.1 proper.2.2 Sample.document
  obtain ⟨u, located', -, -, -, -, refused⟩ :=
    locate_ofPath joined (by decide) proper'.1 proper'.2.1 proper'.2.2 Sample.document
  refine ⟨by decide, ⟨t, located, selected _ rfl, named _ rfl (by decide)⟩, u, located',
    refused ⟨["~1/", ""], "~", [], _, rfl, rfl, by decide⟩⟩

end Target

end SchemaBundle
