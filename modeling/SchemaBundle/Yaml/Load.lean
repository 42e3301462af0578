import SchemaBundle.Yaml.Core
import SchemaBundle.Yaml.Node
import SchemaBundle.Json.Writer

/-!
# From YAML text to JSON values

`Yaml.read` reads a text as one value: aliases are replaced by the nodes they stand for, within a
bound on their number and on nesting, and a key that comes twice in a mapping is refused.
`Value.toJson` then forgets what JSON does not know: tags are dropped, infinities are null, and keys
become text. Two keys that become the same text share one member, which has the place of the first
and the value of the last. `loadJson` does both.
-/

namespace SchemaBundle.Yaml

/-! ## Building values -/

/-- Building with a count of the aliases followed so far. -/
abbrev BuildM := StateT Nat (Except YamlError)

/-- The deepest nesting of collections. -/
def maxNesting : Nat := 128

/-- Follow an alias; there is a bound on how often. -/
def followAlias (tree : Tree) (limit : Nat) : Node → BuildM Node
  | .alias target => do
    let n ← get
    if limit ≤ n then throw .tooManyAliases
    set (n + 1)
    match tree.find? target with
    | some node => return node
    | none => throw .malformedStructure
  | node => return node

/-- The name of a tag that is kept with its value. -/
def localTag? : Option String → Option (List Char)
  | some tag =>
    match tag.toList with
    | '!' :: name => some name
    | _ => none
  | none => none

/-- A value under the tag of its node. -/
def withTag (tag : Option String) (value : Value) : Except YamlError Value :=
  match localTag? tag with
  | none => .ok value
  | some [] => .error .emptyTag
  | some name => .ok (.tagged (String.ofList name) value)

/-- The value of a scalar node. A tag of its own says nothing about the kind of the scalar. -/
def scalarValue (tag : Option String) (plain : Bool) (text : String) : Except YamlError Value :=
  match localTag? tag with
  | some _ => do withTag tag (← Core.scalar none plain text.toList)
  | none => Core.scalar tag plain text.toList

/-- Build the entries of a mapping one after the other; no key comes twice. -/
def buildEntries (build : Node → BuildM Value) :
    List (Node × Node) → List (Value × Value) → BuildM (List (Value × Value))
  | [], done => return done
  | (key, value) :: rest, done => do
    let k ← build key
    if done.any fun entry => k.eqv entry.1 then
      throw .duplicateKey
    let v ← build value
    buildEntries build rest (done ++ [(k, v)])

/-- Build the value of a node with room for this many more levels of nesting. -/
def build (tree : Tree) (limit : Nat) : Nat → Node → BuildM Value
  | room, node => do
    match ← followAlias tree limit node, room with
    | .scalar tag plain text, _ => scalarValue tag plain text
    | .sequence tag items, room + 1 => do
      withTag tag (.sequence (← items.mapM (build tree limit room)))
    | .mapping tag entries, room + 1 => do
      withTag tag (.mapping (← buildEntries (build tree limit room) entries []))
    | .alias _, _ => throw .malformedStructure
    | _, 0 => throw .tooDeep

/-- The value of a document. Without a root it is null. -/
def Tree.value (tree : Tree) : Except YamlError Value :=
  match tree.root with
  | none => .ok .null
  | some root => (build tree (100 * root.size) maxNesting root).run' 0

/-- Read a text as one value. -/
def read (bytes : List UInt8) : Except YamlError Value := do
  let tokens ← Token.scan (← readText bytes)
  (← Tree.ofTokens tokens).value

/-! ## Values as JSON -/

/-- Numbers that stand as keys have no sign before a positive exponent. -/
def keyLayout : Decimal.Layout := ⟨false⟩

/-- A number as a JSON value. -/
def Number.toJson : Number → Json
  | .int n => .int n
  | .float x => .float x
  | .infinity _ => .null
  | .notANumber => .null

/-- A number as the text of a key. -/
def Number.keyText : Number → String
  | .int n => String.ofList (Json.integerChars n)
  | .float x => String.ofList (x.chars keyLayout)
  | .infinity true => "-.inf"
  | .infinity false => ".inf"
  | .notANumber => ".nan"

mutual

/-- A value as JSON. -/
def Value.toJson : Value → Json
  | .null => .null
  | .bool b => .bool b
  | .number n => n.toJson
  | .str s => .str s
  | .sequence items => .arr (Value.itemsToJson items)
  | .mapping entries => .obj (Entries.ofList (Value.entriesToJson entries))
  | .tagged _ value => Value.toJson value

/-- Values one after the other. -/
def Value.itemsToJson : List Value → List Json
  | [] => []
  | value :: rest => Value.toJson value :: Value.itemsToJson rest

/-- Entries one after the other, their keys as text. -/
def Value.entriesToJson : List (Value × Value) → List (String × Json)
  | [] => []
  | (key, value) :: rest =>
    (Value.keyText key, Value.toJson value) :: Value.entriesToJson rest

/-- A value as the text of a key: collections as their JSON text. -/
def Value.keyText : Value → String
  | .null => "null"
  | .bool b => if b then "true" else "false"
  | .number n => n.keyText
  | .str s => s
  | .sequence items => Json.compact (.arr (Value.itemsToJson items))
  | .mapping entries => Json.compact (.obj (Entries.ofList (Value.entriesToJson entries)))
  | .tagged _ value => Json.compact (Value.toJson value)

end

end SchemaBundle.Yaml

namespace SchemaBundle

/-- Read YAML or JSON text as a JSON value. -/
def loadJson (bytes : List UInt8) : Except YamlError Json := do
  return (← Yaml.read bytes).toJson

end SchemaBundle
