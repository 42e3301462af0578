import SchemaBundle.Decimal.Shortest

/-!
# YAML values

What a YAML document says once tags and scalars are read: values whose mappings have keys of any
kind. Keys are compared as values (`Value.eqv`): the order of a mapping does not count, and
not-a-number equals itself.
-/

namespace SchemaBundle.Yaml

/-- A number of a YAML document. -/
inductive Number
  | int (n : Int)
  | float (x : Binary64)
  | infinity (negative : Bool)
  | notANumber
  deriving DecidableEq

/-- A YAML value. -/
inductive Value
  | null
  | bool (b : Bool)
  | number (n : Number)
  | str (s : String)
  | sequence (items : List Value)
  | mapping (entries : List (Value × Value))
  /-- A value with a tag of its own. -/
  | tagged (tag : String) (value : Value)
  deriving Inhabited

/-- Numeric equality within a kind. -/
def Number.eqv : Number → Number → Bool
  | .int a, .int b => a == b
  | .float a, .float b => a.numEq b
  | .infinity a, .infinity b => a == b
  | .notANumber, .notANumber => true
  | _, _ => false

mutual

/-- Equality of values. -/
def Value.eqv : Value → Value → Bool
  | .null, .null => true
  | .bool a, .bool b => a == b
  | .number a, .number b => a.eqv b
  | .str a, .str b => a == b
  | .sequence as, .sequence bs => Value.eqvItems as bs
  | .mapping as, .mapping bs => as.length == bs.length && Value.eqvEntries as bs
  | .tagged t a, .tagged u b => t == u && Value.eqv a b
  | _, _ => false

/-- Equality one by one. -/
def Value.eqvItems : List Value → List Value → Bool
  | [], [] => true
  | a :: as, b :: bs => Value.eqv a b && Value.eqvItems as bs
  | _, _ => false

/-- Every entry on the left has an equal one on the right. -/
def Value.eqvEntries : List (Value × Value) → List (Value × Value) → Bool
  | [], _ => true
  | (key, a) :: as, bs =>
    Value.hasEntry (fun k => Value.eqv key k) (fun v => Value.eqv a v) bs
      && Value.eqvEntries as bs

/-- Whether some entry has such a key and such a value. -/
def Value.hasEntry (key value : Value → Bool) : List (Value × Value) → Bool
  | [] => false
  | (k, v) :: rest => (key k && value v) || Value.hasEntry key value rest

end

end SchemaBundle.Yaml
