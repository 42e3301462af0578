import SchemaBundle.Proofs.Resolve.Frontier

/-!
# A schema behaves alike as a field and as a definition

A value is read in one way where a field is expected and in another where a definition is, by tests
in another order. `Field.Twin` lists what the two readings of a value can be. Twins are written as
the same value, and a walk makes twins of twins with the same effect (`Field.Twin.resolve`), but for
one difference: an inline schema stands a level below its field. A walk that comes to nothing too
deep does not notice (`Runs.raise`), and so the two readings cannot be told apart
(`resolveField_agrees`).
-/

namespace SchemaBundle

open Walk

/-- The two readings of a value. -/
inductive Field.Twin : Field → Node → Prop
  | ref (r : RefNode) : Twin (.ref r) (.ref r)
  | array (items : Option Field) (extra : Members) : Twin (.array items extra) (.array items extra)
  /-- A dictionary is an object without fields of its own. -/
  | map (additional : Field) (extra : Members) :
    Twin (.map additional extra) (.object none (some additional) none none none extra)
  /-- An inline schema is what it is as a definition. -/
  | schema (node : Node) : Twin (.schema node) node
  /-- A scalar is an object of which nothing is interpreted. -/
  | primitive (extra : Members) :
    Twin (.primitive extra) (.object none none none none none extra)
  | plain (value : Json) : Twin (.plain value) (.plain value)

namespace Field

theorem twin_ofParts (layout : Layout) (members : Members) (parts : Parts) :
    (Field.ofParts layout members parts).Twin (Node.ofParts layout members parts) := by
  unfold ofParts
  cases reference : parts.reference with
  | some text =>
    simp only [Node.ofParts, reference]
    exact .ref _
  | none =>
    dsimp only
    by_cases inline : parts.isInlineSchema
    · rw [if_pos inline]
      exact .schema _
    · -- without these keys the definition is no composition, and an object at most a dictionary
      rw [if_neg inline]
      simp only [Parts.isInlineSchema, Bool.or_eq_true, not_or, Bool.not_eq_true,
        Option.isSome_eq_false_iff, Option.isNone_iff_eq_none] at inline
      obtain ⟨⟨⟨⟨allOf, oneOf⟩, anyOf⟩, properties⟩, negated⟩ := inline
      simp only [Node.ofParts, reference, allOf, oneOf, anyOf, properties, negated, dropTaken]
      by_cases isArray : isArraySchema members
      · rw [if_pos isArray, if_pos isArray]
        exact .array _ _
      · rw [if_neg isArray, if_neg isArray]
        cases parts.additional with
        | some additional => exact .map _ _
        | none => exact .primitive _

/-- **A value is read as a field and as its twin**, a definition. -/
theorem twin_ofJson (layout : Layout) (value : Json) :
    (Field.ofJson layout value).Twin (Node.ofJson layout value) := by
  cases value with
  | obj members =>
    rw [Field.ofJson, Node.ofJson]
    exact twin_ofParts ..
  | _ =>
    simp only [Field.ofJson, Node.ofJson]
    exact .plain _

namespace Twin

variable {field : Field} {node : Node}

/-- Twins are written as the same value. -/
theorem toJson_eq (h : field.Twin node) : field.toJson = node.toJson := by
  cases h <;> simp [Field.toJson, Node.toJson, Field.optionToJson, Field.optionListToJson,
    Field.namedToJson, optionalMember]

end Twin

end Field

/-- Where nothing was reported as too deep, nothing was refused. -/
theorem Trace.unrefused {setting : Setting} {events : List Event} {p q : Pass}
    (h : Trace setting events p q) (whole : q.cuts = p.cuts) : Unrefused events := by
  intro depth scope refused
  have none : events.filterMap (Event.cut? setting.options.maxDepth p.cache.root) = [] :=
    List.append_cancel_left (h.cuts.symm.trans (whole.trans (List.append_nil _).symm))
  have reported := List.filterMap_eq_nil_iff.1 none _ refused
  cases reported

section Resolve

variable {setting : Setting} {p : Pass}

/-- A definition that is walked a level lower is walked alike, if nothing is too deep. -/
theorem resolveNode_of_below {node : Node}
    (whole : (walkNode setting setting.options.maxDepth .root node p).2.cuts = p.cuts) :
    resolveNode setting node p = walkNode setting setting.options.maxDepth .root node p := by
  let answer := walkNode setting setting.options.maxDepth .root node p
  obtain ⟨events, run⟩ := exists_runs setting 1 .root [node.part] p
  have run : Runs setting 1 .root [node.part] p [answer.1.part] answer.2 events := run
  have le : setting.options.maxDepth + 0 ≤ setting.options.maxDepth + 1 := Nat.le_succ _
  obtain ⟨events', raised⟩ : ∃ events', Runs setting 0 .root [node.part] p [answer.1.part] answer.2
      events' := run.raise (run.trace.unrefused whole) le
  exact walkPart_node.1 (mapM_singleton_run.1 raised.walk)

/-- A walk makes twins of twins, and does the same for both. -/
theorem Field.Twin.resolve {field : Field} {node : Node} (h : field.Twin node)
    (whole : (resolveField setting field p).2.cuts = p.cuts) :
    (resolveNode setting node p).2 = (resolveField setting field p).2 ∧
      (resolveField setting field p).1.Twin (resolveNode setting node p).1 := by
  cases h with
  | ref r =>
    simp only [resolveField, resolveNode, fullRoom, walkField, walkNode]
    exact ⟨rfl, .ref _⟩
  | array items extra =>
    simp only [resolveField, resolveNode, fullRoom, walkField, walkNode]
    exact ⟨rfl, .array _ _⟩
  | map additional extra =>
    simp only [resolveField, resolveNode, fullRoom, walkField, walkNode]
    exact ⟨rfl, .map _ _⟩
  | schema node =>
    have below : resolveField setting (.schema node) p
        = (.schema (walkNode setting setting.options.maxDepth .root node p).1,
          (walkNode setting setting.options.maxDepth .root node p).2) := by
      simp only [resolveField, fullRoom, walkField]
      rfl
    rw [below] at whole ⊢
    rw [resolveNode_of_below whole]
    exact ⟨rfl, .schema _⟩
  | primitive extra =>
    simp only [resolveField, resolveNode, fullRoom, walkField, walkNode]
    exact ⟨rfl, .primitive _⟩
  | plain value =>
    simp only [resolveField, resolveNode, fullRoom, walkField, walkNode]
    exact ⟨rfl, .plain _⟩

end Resolve

/-- **A schema behaves alike as a field and as a definition.** Both readings of a value are written
as the same value. If the walk of the field reports nothing about depth, the walk of the definition
leaves the same pass, that is the same registry, the same merged fragments, the same warnings in
order and the same requests, and what it makes of the definition is written as the same value. -/
theorem resolveField_agrees (layout : Layout) (value : Json) :
    (Field.ofJson layout value).toJson = (Node.ofJson layout value).toJson ∧
    ∀ (setting : Setting) (p : Pass),
      let field := resolveField setting (Field.ofJson layout value) p
      let node := resolveNode setting (Node.ofJson layout value) p
      field.2.cuts = p.cuts → node.2 = field.2 ∧ node.1.toJson = field.1.toJson := by
  have twin := Field.twin_ofJson layout value
  refine ⟨twin.toJson_eq, fun setting p => ?_⟩
  intro field node whole
  obtain ⟨pass, twin⟩ := twin.resolve whole
  exact ⟨pass, twin.toJson_eq.symm⟩

/-- An inline schema with a reference to another document. -/
def Sample.inlineSchema : Json :=
  .obj [("properties", .obj [("tag", .obj [("$ref", .str "pets.yaml#/definitions/Tag")])])]

/-- A limit of six is enough for the inline schema of the sample as a field. -/
theorem resolveField_agrees_inline :
    let setting := Sample.document.setting Sample.fetcher (Options.default.withLimit 6)
    let p := Pass.start [] (Cache.empty Sample.root)
    let field := resolveField setting (Field.ofJson .swagger2 Sample.inlineSchema) p
    let node := resolveNode setting (Node.ofJson .swagger2 Sample.inlineSchema) p
    field.2.cuts = p.cuts ∧ field.2.merged.length = 2 ∧
      node.2 = field.2 ∧ node.1.toJson = field.1.toJson := by
  intro setting p field node
  have whole : field.2.cuts = p.cuts := by
    have none : field.2.warnings = [] := by decide +kernel
    rw [Pass.cuts, none]
    rfl
  obtain ⟨pass, written⟩ := (resolveField_agrees .swagger2 Sample.inlineSchema).2 setting p whole
  exact ⟨whole, by decide +kernel, pass, written⟩

end SchemaBundle
