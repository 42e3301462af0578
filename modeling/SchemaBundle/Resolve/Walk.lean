import SchemaBundle.Resolve.Pass

/-!
# Walking schemas

`walkNode` and `walkField` visit the references of a schema and replace each that leads to another
document by a local one, merging the fragment it points at into the registry. The walk goes no
deeper than the limit of its options: its first argument is the room that is left, one more than the
number of levels that may still be looked into. Walking a merged fragment takes a level as well, so
the walk ends even where documents refer to ever new ones.

A fragment is merged in the following steps (`mergeTarget`): its document is loaded, the fragment is
selected and read, a name is placed and recorded, the fragment is walked in the scope of its own
document, and only then inserted. A reference that leads back to a fragment under way finds its name
recorded.
-/

namespace SchemaBundle

namespace Walk

/-- A step of a pass. -/
abbrev PassM := StateM Pass

/-- Visit the fragment of a merge in its scope. -/
abbrev Visit := Scope → Node → PassM Node

/-! ## Following one reference -/

/-- Report the references that a merged fragment keeps. -/
def warnVerbatim (location : Url) (node : Node) : PassM Unit :=
  node.verbatimRefs.forM fun reference =>
    modify (Pass.warn (.unmodeled reference location.text))

/-- Load, select and read the fragment of a target, with the name it would naturally take. -/
def readFragment (setting : Setting) (target : Target) :
    PassM (Except ResolveError (Node × String)) := do
  let pass ← get
  let (outcome, cache) := pass.cache.load setting.fetcher target.location
  set { pass with cache }
  return do
    let value ← target.select (← outcome)
    match target.definitionName? with
    | some name => return (Node.ofJson setting.layout value, name)
    | none => throw (.malformedReference target.key.text .nameless)

/-- Walk and insert a fragment whose name is recorded. -/
def insertFragment (visit : Visit) (target : Target) (name : String) (node : Node) :
    PassM Unit := do
  let node ← visit (.external target.location) node
  warnVerbatim target.location node
  modify fun pass => { pass with
    definitions := Entries.insert name node pass.definitions
    merged := pass.merged ++ [⟨target.key.text, name⟩] }

/-- The local name of a target, merged now unless it was before. -/
def mergeTarget (setting : Setting) (visit : Visit) (target : Target) :
    PassM (Except ResolveError String) := do
  match (← get).cache.localName? target.key with
  | some name => return .ok name
  | none =>
    match ← readFragment setting target with
    | .error e => return .error e
    | .ok (node, natural) =>
      let placement := (← get).place setting.options natural node
      match placement with
      | .existing name =>
        modify fun pass => { pass with cache := pass.cache.record target.key name }
        return .ok name
      | .fresh name =>
        modify fun pass => { pass with cache := pass.cache.record target.key name }
        insertFragment visit target name node
        return .ok name

/-- The local reference for a reference that leaves its scope. One into the root document needs no
merge. While a fragment is being merged it is marked. -/
def mergeReference (setting : Setting) (visit : Visit) (scope : Scope) (reference : String) :
    PassM (Except ResolveError String) := do
  let root := (← get).cache.root
  match Target.locate reference (scope.base root) with
  | .error e => return .error e
  | .ok target =>
    if target.location = root then
      match target.fragment with
      | some fragment => return .ok ("#" ++ fragment)
      | none => return .error (.malformedReference reference .rootWithoutFragment)
    else
      let (isFresh, cache) := (← get).cache.mark target.key
      modify fun pass => { pass with cache }
      let outcome ← mergeTarget setting visit target
      if isFresh then
        modify fun pass => { pass with cache := pass.cache.finish target.key }
      return outcome.map setting.layout.localRef

/-- The local reference for a reference that leaves its scope, or nothing if there is none, which is
reported. -/
def resolveExternal (setting : Setting) (visit : Visit) (scope : Scope) (reference : String) :
    PassM (Option String) := do
  match ← mergeReference setting visit scope reference with
  | .ok reference => return some reference
  | .error e =>
    modify (Pass.warn (.unresolved reference e))
    return none

/-- Report a local reference of the root document that names no definition, present or to come. -/
def checkLocal (setting : Setting) (reference : String) : PassM Unit := do
  match setting.layout.localName? reference with
  | none => return ()
  | some name =>
    let pass ← get
    if Entries.contains name pass.definitions ∨ pass.cache.isReserved name then return ()
    else set (pass.warn (.dangling reference name))

/-- A reference of an external document that could not be merged, in absolute form. -/
def pinned (base : Url) (node : RefNode) : RefNode :=
  match Target.locate node.reference base with
  | .ok target => { node with reference := target.absoluteReference, format := .url }
  | .error _ => node

/-- Visit a reference: leave a local one of the root document, replace one that can be merged, and
report one that cannot. The latter stays as written in the root document, and is made absolute in
others. -/
def follow (setting : Setting) (visit : Visit) (scope : Scope) (node : RefNode) :
    PassM RefNode := do
  if !node.format.isExternal ∧ scope = .root then
    checkLocal setting node.reference
    return node
  match ← resolveExternal setting visit scope node.reference with
  | some reference => return { node with reference, format := .internal }
  | none =>
    match scope with
    | .root => return node
    | .external base => return pinned base node

/-! ## Walking -/

/-- Report a subtree that is too deep. -/
def reportDepth (setting : Setting) (scope : Scope) : PassM Unit :=
  modify fun pass =>
    pass.warn (.tooDeep (scope.base pass.cache.root).text setting.options.maxDepth)

/-- Leave a node that is too deep. -/
def tooDeep (setting : Setting) : Visit :=
  fun scope node => do
    reportDepth setting scope
    return node

mutual

/-- Visit the references of a definition. -/
def walkNode (setting : Setting) : Nat → Scope → Node → PassM Node
  | 0, scope, node => tooDeep setting scope node
  | room + 1, scope, node =>
    match node with
    | .ref ref => do
      return .ref (← follow setting (walkNode setting room) scope ref)
    | .array items extra => do
      return .array (← items.mapM (walkField setting room scope)) extra
    | .composed parent child interfaces inline extra => do
      let parent ← parent.mapM (walkNode setting room scope)
      let child ← child.mapM (walkNode setting room scope)
      let interfaces ← interfaces.mapM (walkInterface setting room scope)
      let inline ← inline.mapM (walkNode setting room scope)
      return .composed parent child interfaces inline extra
    | .object properties additional oneOf anyOf negated extra => do
      let properties ← properties.mapM fun fields =>
        fields.mapM fun field => do
          return (field.1, ← walkField setting room scope field.2)
      let additional ← additional.mapM (walkField setting room scope)
      let oneOf ← oneOf.mapM fun fields => fields.mapM (walkField setting room scope)
      let anyOf ← anyOf.mapM fun fields => fields.mapM (walkField setting room scope)
      let negated ← negated.mapM (walkField setting room scope)
      return .object properties additional oneOf anyOf negated extra
    | .plain value => return .plain value

/-- Visit the references of a field. -/
def walkField (setting : Setting) : Nat → Scope → Field → PassM Field
  | 0, scope, field => do
    reportDepth setting scope
    return field
  | room + 1, scope, field =>
    match field with
    | .ref ref => do
      return .ref (← follow setting (walkNode setting room) scope ref)
    | .array items extra => do
      return .array (← items.mapM (walkField setting room scope)) extra
    | .map additional extra => do
      return .map (← walkField setting room scope additional) extra
    | .schema node => do
      return .schema (← walkNode setting room scope node)
    | .primitive extra => return .primitive extra
    | .plain value => return .plain value

/-- Visit an interface of a composition. It is followed whatever room is left; the fragment behind
it is subject to the limit. -/
def walkInterface (setting : Setting) : Nat → Scope → RefNode → PassM RefNode
  | 0, scope, ref => follow setting (tooDeep setting) scope ref
  | room + 1, scope, ref => follow setting (walkNode setting room) scope ref

end

/-- The room of a walk that starts at depth zero. -/
def fullRoom (setting : Setting) : Nat :=
  setting.options.maxDepth + 1

/-! ## Steps of a pass -/

/-- Resolve a definition of the root document that stands outside the registry. -/
def resolveNode (setting : Setting) (node : Node) : PassM Node :=
  walkNode setting (fullRoom setting) .root node

/-- Resolve a field of the root document that stands outside the registry. -/
def resolveField (setting : Setting) (field : Field) : PassM Field :=
  walkField setting (fullRoom setting) .root field

/-- Resolve the definition at a position of the registry. While it is walked, `null` stands in its
place. -/
def resolveAt (setting : Setting) (position : Nat) : PassM Unit := do
  match (← get).definitions[position]? with
  | none => return ()
  | some (name, node) =>
    modify fun pass => { pass with
      definitions := pass.definitions.set position (name, .plain .null) }
    let node ← resolveNode setting node
    modify fun pass => { pass with definitions := pass.definitions.set position (name, node) }

/-- Resolve the definitions that the registry holds now, in order. Those merged along the way are
resolved when they are inserted. -/
def resolveDefinitions (setting : Setting) : PassM Unit := do
  (List.range (← get).definitions.length).forM (resolveAt setting)

end Walk

end SchemaBundle
