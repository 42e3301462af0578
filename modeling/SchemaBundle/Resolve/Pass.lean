import SchemaBundle.Cache
import SchemaBundle.Document
import SchemaBundle.Report
import SchemaBundle.Schema.Equality
import SchemaBundle.Schema.Verbatim

/-!
# The state of a resolution pass

A pass works on a registry of definitions, a cache, and the lists of what it has to report. What
stays the same throughout is its `Setting`. The name of a merged fragment is the first of `name`,
`name_1`, `name_2`, … that is free (`Pass.place`), unless an identical definition is met on the way.
-/

namespace SchemaBundle

/-- What stays the same during a pass. -/
structure Setting where
  layout : Layout
  fetcher : Fetcher
  options : Options

/-- The document that a node was read from. Its internal references are relative to it. -/
inductive Scope
  /-- The root document, whose internal references are local already. -/
  | root
  /-- An external document, a fragment of which is being merged. -/
  | external (location : Url)
  deriving DecidableEq, Repr

/-- The location of the document. -/
def Scope.base (root : Url) : Scope → Url
  | .root => root
  | .external location => location

/-- The state of a pass. -/
structure Pass where
  definitions : Definitions
  cache : Cache
  /-- In the order of their discovery. -/
  warnings : List Warning
  /-- In the order of insertion. -/
  merged : List Merged

namespace Pass

/-- The state before a pass over a registry. -/
def start (definitions : Definitions) (cache : Cache) : Pass :=
  ⟨definitions, cache, [], []⟩

/-- Report a warning. -/
def warn (warning : Warning) (pass : Pass) : Pass :=
  { pass with warnings := pass.warnings ++ [warning] }

/-! ## Names for merged fragments -/

/-- Where a fragment goes. -/
inductive Placement
  /-- An identical definition has this name already. -/
  | existing (name : String)
  /-- A name that is free. -/
  | fresh (name : String)
  deriving DecidableEq, Repr

/-- The candidates for a name: the name itself, then with a number. -/
def candidate (name : String) (k : Nat) : String :=
  if k = 0 then name else name ++ "_" ++ String.ofList (Nat.toDigits 10 k)

/-- The placement that a candidate offers, if any: an identical definition when those may be reused,
or a name that is neither taken nor handed out. -/
def offer? (pass : Pass) (reuse : Bool) (node : Node) (name : String) : Option Placement :=
  match Entries.find? name pass.definitions with
  | some present => if reuse && present.eqv node then some (.existing name) else none
  | none => if pass.cache.isReserved name then none else some (.fresh name)

/-- The first offer among the candidates from the `k`-th on. -/
def searchFrom (pass : Pass) (reuse : Bool) (node : Node) (name : String) :
    Nat → Nat → Placement
  | 0, k => .fresh (candidate name k)
  | fuel + 1, k =>
    match pass.offer? reuse node (candidate name k) with
    | some placement => placement
    | none => searchFrom pass reuse node name fuel (k + 1)

/-- Where a fragment goes that would naturally take a name. Candidates are distinct, so one more of
them than there are names in use is enough. Only a fragment without references is reused. -/
def place (options : Options) (name : String) (node : Node) (pass : Pass) : Placement :=
  let reuse := options.reuseIdentical && node.isSelfContained
  searchFrom pass reuse node name
    (pass.definitions.length + pass.cache.reserved.length + 1) 0

end Pass

end SchemaBundle
