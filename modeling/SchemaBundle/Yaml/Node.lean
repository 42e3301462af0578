import SchemaBundle.Entries
import SchemaBundle.Yaml.Token

/-!
# The nodes of a YAML document

`Tree.ofTokens` reads the tokens of a text as one document: a tree of scalars, sequences,
mappings and aliases, and a table of the anchored nodes. A text without tokens has no root. The
readers of the pieces take the tokens that begin a piece and leave the rest in the state; a token is
taken at least in every third call, which bounds the fuel.
-/

namespace SchemaBundle.Yaml

/-- A node of a document. Tags are resolved; the tag `!` of a scalar says nothing and is dropped. -/
inductive Node
  | scalar (tag : Option String) (plain : Bool) (text : String)
  | sequence (tag : Option String) (items : List Node)
  | mapping (tag : Option String) (entries : List (Node × Node))
  /-- Another use of the node that an anchor marks. -/
  | alias (target : Nat)
  deriving Inhabited

/-- An anchored node. -/
structure Anchored where
  /-- The number of the anchor. -/
  target : Nat
  /-- The number of anchored nodes that start before this one. -/
  order : Nat
  node : Node

/-- A document: its root, and the anchored nodes. -/
structure Tree where
  root : Option Node
  anchored : List Anchored

/-- The node that aliases to a number use: of several with that number the one that starts last. -/
def Tree.find? (tree : Tree) (target : Nat) : Option Node :=
  (tree.anchored.foldl
    (fun best a =>
      if a.target = target then
        match best with
        | some (b : Anchored) => if b.order < a.order then some a else best
        | none => some a
      else best)
    none).map (·.node)

/-! ## Size -/

mutual

/-- The number of events by which a node is announced: one for a scalar or an alias, and a start and
an end for a collection around those of its parts. -/
def Node.size : Node → Nat
  | .scalar _ _ _ => 1
  | .alias _ => 1
  | .sequence _ items => 2 + Node.sizeOfItems items
  | .mapping _ entries => 2 + Node.sizeOfEntries entries

/-- The size of items. -/
def Node.sizeOfItems : List Node → Nat
  | [] => 0
  | node :: rest => Node.size node + Node.sizeOfItems rest

/-- The size of entries. -/
def Node.sizeOfEntries : List (Node × Node) → Nat
  | [] => 0
  | (key, value) :: rest => Node.size key + Node.size value + Node.sizeOfEntries rest

end

/-! ## Reading tokens -/

/-- What is left to read, and what is known by name. -/
structure Reader where
  tokens : List Token
  /-- What the tag handles of the document stand for. -/
  handles : Entries String
  /-- The number that each anchor name stands for at this point. -/
  names : Entries Nat
  /-- The number of anchored nodes that have started. -/
  started : Nat
  anchored : List Anchored

/-- Reading with the possibility of failure. -/
abbrev ReadM := StateT Reader (Except YamlError)

namespace ReadM

/-- The next token. -/
def peek : ReadM (Option Token) := do
  return (← get).tokens.head?

/-- Drop the next token. -/
def drop : ReadM Unit :=
  modify fun r => { r with tokens := r.tokens.tail }

/-- Fail. -/
def fail {α : Type} (e : YamlError) : ReadM α :=
  throw e

end ReadM

/-- The anchor and the tag before a node. -/
structure Marks where
  anchor : Option String
  tag : Option String

/-- A scalar that is not written. -/
def emptyScalar : Node :=
  .scalar none true ""

/-- What a tag stands for. -/
def resolveTag (tag : TagText) : ReadM String := do
  if tag.handle = "" then return tag.suffix
  match Entries.find? tag.handle (← get).handles with
  | some start => return start ++ tag.suffix
  | none => ReadM.fail .malformedStructure

/-- Read an anchor and a tag, in either order. -/
def readMarks : ReadM Marks := do
  match ← ReadM.peek with
  | some (.anchor name) =>
    ReadM.drop
    match ← ReadM.peek with
    | some (.tag text) => do
      ReadM.drop
      return ⟨some name, some (← resolveTag text)⟩
    | _ => return ⟨some name, none⟩
  | some (.tag text) =>
    ReadM.drop
    match ← ReadM.peek with
    | some (.anchor name) => do
      ReadM.drop
      return ⟨some name, some (← resolveTag text)⟩
    | _ => return ⟨none, some (← resolveTag text)⟩
  | _ => return ⟨none, none⟩

/-- Give the number of an anchor that starts here. A new name takes the number of names known so
far; so does a known name, which is why numbers may be taken twice. -/
def startAnchor : Option String → ReadM (Option (Nat × Nat))
  | none => return none
  | some name => do
    let r ← get
    let target := r.names.length
    set { r with names := Entries.insert name target r.names, started := r.started + 1 }
    return some (target, r.started)

/-- Enter an anchored node into the table. -/
def finishAnchor (place : Option (Nat × Nat)) (node : Node) : ReadM Node :=
  match place with
  | none => return node
  | some (target, order) => do
    modify fun r => { r with anchored := ⟨target, order, node⟩ :: r.anchored }
    return node

/-- Whether a token may follow where an item of a sequence without indentation is left out. -/
def endsItem : Option Token → Bool
  | some .blockEntry | some .key | some .value | some .blockEnd => true
  | _ => false

/-- Whether a token may follow where the key or value of a block mapping is left out. -/
def endsBlockPart : Option Token → Bool
  | some .key | some .value | some .blockEnd => true
  | _ => false

/-- Whether a token may follow where a part of a mapping in braces is left out. -/
def endsFlowPart : Option Token → Bool
  | some .value | some .flowEntry | some .flowMappingEnd => true
  | _ => false

/-- Whether a token may follow where a part of a pair in brackets is left out. -/
def endsPairPart : Option Token → Bool
  | some .value | some .flowEntry | some .flowSequenceEnd => true
  | _ => false

mutual

/-- Read a node. Block collections are admitted only in block context, and a sequence that is not
indented only as the value of a mapping. -/
def readNode (fuel : Nat) (block unindented : Bool) : ReadM Node :=
  match fuel with
  | 0 => ReadM.fail .malformedStructure
  | fuel + 1 => do
    if let some (.alias name) := ← ReadM.peek then
      ReadM.drop
      match Entries.find? name (← get).names with
      | some target => return .alias target
      | none => ReadM.fail (.unknownAnchor name)
    else
      let marks ← readMarks
      let place ← startAnchor marks.anchor
      match ← ReadM.peek with
      | some .blockEntry =>
        if unindented then
          let items ← readUnindented fuel
          finishAnchor place (.sequence marks.tag items)
        else
          readMissing marks place
      | some (.scalar plain text) =>
        ReadM.drop
        if marks.tag = some "!" then finishAnchor place (.scalar none plain text)
        else finishAnchor place (.scalar marks.tag plain text)
      | some .flowSequenceStart =>
        ReadM.drop
        let items ← readFlowSequence fuel true
        finishAnchor place (.sequence marks.tag items)
      | some .flowMappingStart =>
        ReadM.drop
        let entries ← readFlowMapping fuel true
        finishAnchor place (.mapping marks.tag entries)
      | some .blockSequenceStart =>
        if block then
          ReadM.drop
          let items ← readBlockSequence fuel
          finishAnchor place (.sequence marks.tag items)
        else
          readMissing marks place
      | some .blockMappingStart =>
        if block then
          ReadM.drop
          let entries ← readBlockMapping fuel
          finishAnchor place (.mapping marks.tag entries)
        else
          readMissing marks place
      | _ => readMissing marks place

/-- A node of which only the marks are written. -/
def readMissing (marks : Marks) (place : Option (Nat × Nat)) : ReadM Node :=
  if marks.anchor.isSome ∨ marks.tag.isSome then
    finishAnchor place (.scalar marks.tag true "")
  else
    ReadM.fail .malformedStructure

/-- Read the items of a block sequence and its end. -/
def readBlockSequence (fuel : Nat) : ReadM (List Node) :=
  match fuel with
  | 0 => ReadM.fail .malformedStructure
  | fuel + 1 => do
    match ← ReadM.peek with
    | some .blockEntry =>
      ReadM.drop
      let next ← ReadM.peek
      let item ←
        if next = some .blockEntry ∨ next = some .blockEnd then pure emptyScalar
        else readNode fuel true false
      return item :: (← readBlockSequence fuel)
    | some .blockEnd =>
      ReadM.drop
      return []
    | _ => ReadM.fail .malformedStructure

/-- Read the items of a sequence that is not indented. -/
def readUnindented (fuel : Nat) : ReadM (List Node) :=
  match fuel with
  | 0 => ReadM.fail .malformedStructure
  | fuel + 1 => do
    match ← ReadM.peek with
    | some .blockEntry =>
      ReadM.drop
      let item ←
        if endsItem (← ReadM.peek) then pure emptyScalar else readNode fuel true false
      return item :: (← readUnindented fuel)
    | _ => return []

/-- Read the entries of a block mapping and its end. -/
def readBlockMapping (fuel : Nat) : ReadM (List (Node × Node)) :=
  match fuel with
  | 0 => ReadM.fail .malformedStructure
  | fuel + 1 => do
    match ← ReadM.peek with
    | some .key =>
      ReadM.drop
      let key ←
        if endsBlockPart (← ReadM.peek) then pure emptyScalar else readNode fuel true true
      let value ← readBlockValue fuel
      return (key, value) :: (← readBlockMapping fuel)
    | some .blockEnd =>
      ReadM.drop
      return []
    | _ => ReadM.fail .malformedStructure

/-- Read the value of a key of a block mapping. -/
def readBlockValue (fuel : Nat) : ReadM Node :=
  match fuel with
  | 0 => ReadM.fail .malformedStructure
  | fuel + 1 => do
    if (← ReadM.peek) = some .value then
      ReadM.drop
      if endsBlockPart (← ReadM.peek) then return emptyScalar else readNode fuel true true
    else
      return emptyScalar

/-- Read the items of a sequence in brackets and its end. -/
def readFlowSequence (fuel : Nat) (first : Bool) : ReadM (List Node) :=
  match fuel with
  | 0 => ReadM.fail .malformedStructure
  | fuel + 1 => do
    if (← ReadM.peek) = some .flowSequenceEnd then
      ReadM.drop
      return []
    if !first then
      if (← ReadM.peek) = some .flowEntry then ReadM.drop else ReadM.fail .malformedStructure
    match ← ReadM.peek with
    | some .flowSequenceEnd =>
      ReadM.drop
      return []
    | some .key =>
      ReadM.drop
      let pair ← readPair fuel
      return .mapping none [pair] :: (← readFlowSequence fuel false)
    | _ =>
      let item ← readNode fuel false false
      return item :: (← readFlowSequence fuel false)

/-- Read the only pair of a mapping inside brackets. A key that is left out takes the token after it
along. -/
def readPair (fuel : Nat) : ReadM (Node × Node) :=
  match fuel with
  | 0 => ReadM.fail .malformedStructure
  | fuel + 1 => do
    let key ←
      if endsPairPart (← ReadM.peek) then do
        ReadM.drop
        pure emptyScalar
      else readNode fuel false false
    if (← ReadM.peek) = some .value then
      ReadM.drop
      match ← ReadM.peek with
      | some .flowEntry | some .flowSequenceEnd => return (key, emptyScalar)
      | _ => return (key, ← readNode fuel false false)
    else
      return (key, emptyScalar)

/-- Read the entries of a mapping in braces and its end. -/
def readFlowMapping (fuel : Nat) (first : Bool) : ReadM (List (Node × Node)) :=
  match fuel with
  | 0 => ReadM.fail .malformedStructure
  | fuel + 1 => do
    if (← ReadM.peek) = some .flowMappingEnd then
      ReadM.drop
      return []
    if !first then
      if (← ReadM.peek) = some .flowEntry then ReadM.drop else ReadM.fail .malformedStructure
    match ← ReadM.peek with
    | some .flowMappingEnd =>
      ReadM.drop
      return []
    | some .key =>
      ReadM.drop
      let key ←
        if endsFlowPart (← ReadM.peek) then pure emptyScalar else readNode fuel false false
      let value ← readFlowValue fuel
      return (key, value) :: (← readFlowMapping fuel false)
    | _ =>
      let key ← readNode fuel false false
      return (key, emptyScalar) :: (← readFlowMapping fuel false)

/-- Read the value of a key of a mapping in braces. -/
def readFlowValue (fuel : Nat) : ReadM Node :=
  match fuel with
  | 0 => ReadM.fail .malformedStructure
  | fuel + 1 => do
    if (← ReadM.peek) = some .value then
      ReadM.drop
      match ← ReadM.peek with
      | some .flowEntry | some .flowMappingEnd => return emptyScalar
      | _ => readNode fuel false false
    else
      return emptyScalar

end

/-! ## Documents -/

/-- The handles that every document knows. -/
def standardHandles : Entries String :=
  [("!", "!"), ("!!", "tag:yaml.org,2002:")]

/-- Read the directives before a document. There is at most one version, and no handle twice. -/
def readDirectives :
    List Token → Bool → Entries String → Except YamlError (List Token × Entries String)
  | .directive (.version major minor) :: rest, versionSeen, handles =>
    if versionSeen ∨ major ≠ 1 ∨ (minor ≠ 1 ∧ minor ≠ 2) then .error .malformedStructure
    else readDirectives rest true handles
  | .directive (.tag handle start) :: rest, versionSeen, handles =>
    if Entries.contains handle handles then .error .malformedStructure
    else readDirectives rest versionSeen (handles ++ [(handle, start)])
  | tokens, _, handles => .ok (tokens, handles)

/-- Whether the content of a document is left out before this token. -/
def endsDocument : Option Token → Bool
  | none | some (.directive _) | some .documentStart | some .documentEnd => true
  | _ => false

/-- After a document only its end may follow. -/
def afterDocument : List Token → Except YamlError Unit
  | [] => .ok ()
  | .documentEnd :: rest => afterDocument rest
  | _ => .error .severalDocuments

/-- Read the root of a document and what follows it. -/
def readRoot (content : Bool) (tokens : List Token) (handles : Entries String) :
    Except YamlError Tree := do
  let handles := handles ++ standardHandles.filter fun h => !Entries.contains h.1 handles
  let reader : Reader := ⟨tokens, handles, [], 0, []⟩
  if !content then
    afterDocument tokens
    return ⟨some emptyScalar, []⟩
  let (root, reader) ← (readNode (3 * tokens.length + 3) true false).run reader
  afterDocument reader.tokens
  return ⟨some root, reader.anchored⟩

/-- Read the tokens of a text as one document. -/
def Tree.ofTokens (tokens : List Token) : Except YamlError Tree :=
  match tokens with
  | [] => .ok ⟨none, []⟩
  | .directive _ :: _ | .documentStart :: _ => do
    let (rest, handles) ← readDirectives tokens false []
    match rest with
    | .documentStart :: rest => readRoot (!endsDocument rest.head?) rest handles
    | _ => throw .malformedStructure
  | _ => readRoot true tokens []

end SchemaBundle.Yaml
