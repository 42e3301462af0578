import Mathlib.Logic.Function.Basic
import Mathlib.Tactic.SplitIfs
import SchemaBundle.Reference.Format

/-!
# Names in references

A name stands in a local reference as a segment of its pointer. To escape it is to replace the
tildes and then the slashes, and to read a segment is to replace `~1` and then `~0`
(`Pointer.escape_eq_ite`, `Pointer.unescape_eq_ite`). The order matters: what one replacement puts
in must not be taken for an escape by the next.

Local references and the names that are read off them correspond to each other
(`Layout.localRef_eq_iff`): a text that a name is read off is the local reference to it, unless it
has a tilde that stands for itself. A local reference is internal, whatever the name is, and so
normalizing twice is normalizing once. All this together is `Layout.localRef_codec`.
-/

namespace SchemaBundle

/-! ## Replacing -/

namespace Text

/-- The text with another one in the place of each `c :: part`, from the left, without overlap. -/
def replace (c : Char) (part other : List Char) : List Char → List Char
  | [] => []
  | x :: rest =>
    match _ : afterStart? (c :: part) (x :: rest) with
    | some after => other ++ replace c part other after
    | none => x :: replace c part other rest
termination_by text => text.length
decreasing_by
  · rename_i found
    rw [eq_append_of_afterStart? found, List.length_append, List.length_cons]
    omega
  · exact Nat.lt_succ_self _

section Replace

variable {c x : Char} {part other text : List Char}

@[simp] theorem replace_nil : replace c part other [] = [] := by
  rw [replace]

theorem replace_append (after : List Char) :
    replace c part other (c :: (part ++ after)) = other ++ replace c part other after := by
  have found := afterStart?_append (c :: part) after
  rw [List.cons_append] at found
  rw [replace]
  split
  · rename_i after' found'
    rw [Option.some.inj (found.symm.trans found')]
  · rename_i found'
    cases found.symm.trans found'

theorem replace_cons (h : afterStart? (c :: part) (x :: text) = none) :
    replace c part other (x :: text) = x :: replace c part other text := by
  rw [replace]
  split
  · rename_i after found
    cases h.symm.trans found
  · rfl

/-- A text begins after a replacement as before, unless with what was put in. -/
theorem head?_of_head?_replace {first y : Char} (ne : y ≠ first)
    (h : (replace c part (first :: other) text).head? = some y) : text.head? = some y := by
  cases text with
  | nil => simp at h
  | cons x rest =>
    rw [replace] at h
    split at h
    · exact absurd (Option.some.inj h).symm ne
    · exact h

/-- Where there is nothing to replace, nothing changes. -/
theorem replace_of_hasPart_eq_false (h : hasPart (c :: part) text = false) :
    replace c part other text = text := by
  induction text with
  | nil => rw [replace_nil]
  | cons x rest ih =>
    rw [hasPart, Bool.or_eq_false_iff, Option.isSome_eq_false_iff, Option.isNone_iff_eq_none] at h
    rw [replace_cons h.1, ih h.2]

end Replace

end Text

/-! ## Segments -/

namespace Pointer

open Text (replace hasPart)

/-- To escape is to replace the tildes and then the slashes. -/
theorem escapeChars_eq_replace (text : List Char) :
    escapeChars text = replace '/' [] ['~', '1'] (replace '~' [] ['~', '0'] text) := by
  induction text with
  | nil => simp [escapeChars]
  | cons c rest ih =>
    by_cases tilde : c = '~'
    · subst tilde
      have inner : replace '~' [] ['~', '0'] ('~' :: rest)
          = '~' :: '0' :: replace '~' [] ['~', '0'] rest := Text.replace_append rest
      rw [inner, Text.replace_cons (by simp [Text.afterStart?]),
        Text.replace_cons (by simp [Text.afterStart?]), ← ih, escapeChars, if_pos rfl]
    · rw [Text.replace_cons (by simp [Text.afterStart?, Ne.symm tilde])]
      by_cases slash : c = '/'
      · subst slash
        have outer (text : List Char) : replace '/' [] ['~', '1'] ('/' :: text)
            = '~' :: '1' :: replace '/' [] ['~', '1'] text := Text.replace_append text
        rw [outer, ← ih, escapeChars, if_neg tilde, if_pos rfl]
      · rw [Text.replace_cons (by simp [Text.afterStart?, Ne.symm slash]), ← ih, escapeChars,
          if_neg tilde, if_neg slash]

theorem afterStart?_pair {a b x : Char} {text : List Char} :
    Text.afterStart? [a, b] (x :: text) = none ↔ ¬ (x = a ∧ text.head? = some b) := by
  cases text with
  | nil => simp [Text.afterStart?]
  | cons y rest => simp [Text.afterStart?, eq_comm]

/-- To read a segment is to replace what stands for slashes and then what stands for tildes. -/
theorem unescapeChars_eq_replace (text : List Char) :
    unescapeChars text = replace '~' ['0'] ['~'] (replace '~' ['1'] ['/'] text) := by
  induction text using unescapeChars.induct with
  | case1 => rw [Text.replace_nil, Text.replace_nil, unescapeChars]
  | case2 rest ih =>
    have inner : replace '~' ['1'] ['/'] ('~' :: '0' :: rest)
        = '~' :: '0' :: replace '~' ['1'] ['/'] rest := by
      rw [Text.replace_cons (by simp [Text.afterStart?]),
        Text.replace_cons (by simp [Text.afterStart?])]
    have outer (text : List Char) : replace '~' ['0'] ['~'] ('~' :: '0' :: text)
        = '~' :: replace '~' ['0'] ['~'] text := Text.replace_append text
    rw [inner, outer, ← ih, unescapeChars]
  | case3 rest ih =>
    have inner : replace '~' ['1'] ['/'] ('~' :: '1' :: rest)
        = '/' :: replace '~' ['1'] ['/'] rest := Text.replace_append rest
    rw [inner, Text.replace_cons (by simp [Text.afterStart?]), ← ih, unescapeChars]
  | case4 c rest noTilde noSlash ih =>
    have inner : Text.afterStart? ['~', '1'] (c :: rest) = none := by
      rw [afterStart?_pair]
      rintro ⟨rfl, head⟩
      obtain ⟨rest', rfl⟩ := List.head?_eq_some_iff.1 head
      exact noSlash rest' rfl rfl
    -- a zero behind a tilde was there before, since slashes are put in alone
    have outer : Text.afterStart? ['~', '0'] (c :: replace '~' ['1'] ['/'] rest) = none := by
      rw [afterStart?_pair]
      rintro ⟨rfl, head⟩
      obtain ⟨rest', rfl⟩ :=
        List.head?_eq_some_iff.1 (Text.head?_of_head?_replace (by decide) head)
      exact noTilde rest' rfl rfl
    rw [Text.replace_cons inner, Text.replace_cons outer, ← ih, unescapeChars]
    · exact noTilde
    · exact noSlash

/-- A text is escaped only if there is something to escape. -/
theorem escape_eq_ite (text : String) : (escape text).toList =
    if hasPart ['~'] text.toList || hasPart ['/'] text.toList then
      replace '/' [] ['~', '1'] (replace '~' [] ['~', '0'] text.toList)
    else text.toList := by
  rw [escape, String.toList_ofList, escapeChars_eq_replace]
  split
  · rfl
  · rename_i nothing
    rw [Bool.not_eq_true, Bool.or_eq_false_iff] at nothing
    rw [Text.replace_of_hasPart_eq_false nothing.1, Text.replace_of_hasPart_eq_false nothing.2]

/-- A segment is read as it stands if there is no escape in it. -/
theorem unescape_eq_ite (segment : String) : (unescape segment).toList =
    if hasPart ['~', '0'] segment.toList || hasPart ['~', '1'] segment.toList then
      replace '~' ['0'] ['~'] (replace '~' ['1'] ['/'] segment.toList)
    else segment.toList := by
  rw [unescape, String.toList_ofList, unescapeChars_eq_replace]
  split
  · rfl
  · rename_i nothing
    rw [Bool.not_eq_true, Bool.or_eq_false_iff] at nothing
    rw [Text.replace_of_hasPart_eq_false nothing.2, Text.replace_of_hasPart_eq_false nothing.1]

theorem unescapeChars_eq_nil {text : List Char} : unescapeChars text = [] ↔ text = [] := by
  fun_cases unescapeChars text <;> simp

/-- Each tilde of a text stands before a `0` or a `1`. -/
def TildesEscape (text : List Char) : Prop :=
  ∀ after, '~' :: after <:+ text → after.head? = some '0' ∨ after.head? = some '1'

section TildesEscape

variable {c : Char} {text : List Char}

@[simp] theorem tildesEscape_nil : TildesEscape [] := by
  simp [TildesEscape]

theorem tildesEscape_cons : TildesEscape (c :: text) ↔
    (c = '~' → text.head? = some '0' ∨ text.head? = some '1') ∧ TildesEscape text := by
  simp only [TildesEscape, List.suffix_cons_iff, List.cons.injEq]
  constructor
  · intro h
    exact ⟨fun tilde => h text (.inl ⟨tilde.symm, rfl⟩), fun after isEnd => h after (.inr isEnd)⟩
  · rintro ⟨here, later⟩ after (⟨rfl, rfl⟩ | isEnd)
    · exact here rfl
    · exact later after isEnd

instance decidableTildesEscape : (text : List Char) → Decidable (TildesEscape text)
  | [] => isTrue tildesEscape_nil
  | _ :: text =>
    haveI := decidableTildesEscape text
    decidable_of_iff _ tildesEscape_cons.symm

theorem tildesEscape_append {start : List Char} (noTilde : '~' ∉ start) :
    TildesEscape (start ++ text) ↔ TildesEscape text := by
  induction start with
  | nil => rfl
  | cons c rest ih =>
    rw [List.mem_cons, not_or] at noTilde
    rw [List.cons_append, tildesEscape_cons, ih noTilde.2]
    exact and_iff_right fun tilde => absurd tilde.symm noTilde.1

/-- What is escaped has no other tildes. -/
theorem tildesEscape_escapeChars (text : List Char) : TildesEscape (escapeChars text) := by
  induction text with
  | nil => simp [escapeChars]
  | cons c rest ih =>
    rw [escapeChars]
    split_ifs with tilde slash
    · simp [tildesEscape_cons, ih]
    · simp [tildesEscape_cons, ih]
    · simp [tildesEscape_cons, ih, tilde]

/-- A segment without other tildes is escaped from what it is read as. -/
theorem escapeChars_unescapeChars (noSlash : '/' ∉ text) (h : TildesEscape text) :
    escapeChars (unescapeChars text) = text := by
  induction text using unescapeChars.induct with
  | case1 => rfl
  | case2 rest ih =>
    simp only [List.mem_cons, not_or] at noSlash
    rw [tildesEscape_cons, tildesEscape_cons] at h
    rw [unescapeChars, escapeChars, if_pos rfl, ih noSlash.2.2 h.2.2]
  | case3 rest ih =>
    simp only [List.mem_cons, not_or] at noSlash
    rw [tildesEscape_cons, tildesEscape_cons] at h
    rw [unescapeChars, escapeChars, if_neg (by decide), if_pos rfl, ih noSlash.2.2 h.2.2]
  | case4 c rest noZero noOne ih =>
    rw [List.mem_cons, not_or] at noSlash
    rw [tildesEscape_cons] at h
    have noTilde : c ≠ '~' := by
      rintro rfl
      rcases h.1 rfl with head | head <;> obtain ⟨rest', rfl⟩ := List.head?_eq_some_iff.1 head
      · exact noZero rest' rfl rfl
      · exact noOne rest' rfl rfl
    rw [unescapeChars, escapeChars, if_neg noTilde, if_neg (Ne.symm noSlash.1), ih noSlash.2 h.2]
    · exact noZero
    · exact noOne

end TildesEscape

end Pointer

/-! ## Local references -/

namespace Layout

variable {layout : Layout} {reference name : String}

/-- A name is read off a reference into the registry with one segment more. -/
theorem localName?_eq_some_iff : layout.localName? reference = some name ↔
    ∃ segment, reference.toList = layout.start.toList ++ segment ∧ segment ≠ [] ∧ '/' ∉ segment ∧
      Pointer.unescapeChars segment = name.toList := by
  unfold localName?
  constructor
  · intro h
    split at h
    · rename_i segment found
      split at h
      · cases h
      · rename_i plain
        simp only [List.isEmpty_iff, List.contains_iff_mem, not_or] at plain
        refine ⟨segment, Text.eq_append_of_afterStart? found, plain.1, plain.2, ?_⟩
        rw [← Option.some.inj h, String.toList_ofList]
    · cases h
  · rintro ⟨segment, chars, nonempty, noSlash, isName⟩
    rw [chars, Text.afterStart?_append]
    simp [nonempty, noSlash, isName]

theorem tilde_notMem_start (layout : Layout) : '~' ∉ layout.start.toList := by
  cases layout <;> decide

theorem localRef_injective (layout : Layout) : Function.Injective layout.localRef := by
  intro name other same
  have escaped : Pointer.escape name = Pointer.escape other := by
    have chars := congrArg String.toList same
    simp only [localRef, String.toList_append, List.append_cancel_left_eq] at chars
    exact String.toList_inj.1 chars
  rw [← Pointer.unescape_escape name, escaped, Pointer.unescape_escape]

/-- A name is read off its local reference, and off no other text in which each tilde escapes. -/
theorem localRef_eq_iff : name ≠ "" ∧ layout.localRef name = reference ↔
    layout.localName? reference = some name ∧ Pointer.TildesEscape reference.toList := by
  constructor
  · rintro ⟨nonempty, rfl⟩
    refine ⟨layout.localName?_localRef nonempty, ?_⟩
    rw [localRef, String.toList_append, Pointer.tildesEscape_append layout.tilde_notMem_start,
      Pointer.escape, String.toList_ofList]
    exact Pointer.tildesEscape_escapeChars _
  · rintro ⟨named, escapes⟩
    obtain ⟨segment, chars, nonempty, noSlash, isName⟩ := localName?_eq_some_iff.1 named
    rw [chars, Pointer.tildesEscape_append layout.tilde_notMem_start] at escapes
    refine ⟨?_, String.toList_inj.1 ?_⟩
    · rwa [ne_eq, ← String.toList_eq_nil_iff, ← isName, Pointer.unescapeChars_eq_nil]
    · rw [localRef, String.toList_append, Pointer.escape, String.toList_ofList, ← isName,
        Pointer.escapeChars_unescapeChars noSlash escapes, chars]

theorem head?_localRef (layout : Layout) (name : String) :
    (layout.localRef name).toList.head? = some '#' := by
  cases layout <;> simp [localRef, start]

end Layout

/-! ## The kind of a local reference -/

namespace Reference

theorem hasPart_of_notMem {text : List Char} (h : '/' ∉ text) :
    Text.hasPart [':', '/', '/'] text = false := by
  induction text with
  | nil => rfl
  | cons c rest ih =>
    rw [List.mem_cons, not_or] at h
    cases rest with
    | nil => simp [Text.hasPart, Text.afterStart?]
    | cons d rest =>
      have ne : '/' ≠ d := fun same => h.2 (same ▸ List.mem_cons_self ..)
      rw [Text.hasPart, ih h.2]
      simp [Text.afterStart?, ne]

/-- A local reference is one of the document itself. -/
theorem classify_localRef (layout : Layout) (name : String) :
    classify (layout.localRef name) = .internal := by
  have noUrl := hasPart_of_notMem (Layout.slash_notMem_escapeChars name.toList)
  cases layout <;>
    simp [classify, Layout.localRef, Layout.start, Pointer.escape, Text.hasPart, Text.afterStart?,
      noUrl]

/-- A local reference is normal, in either layout. -/
theorem normalize_localRef (layout reader : Layout) (name : String) :
    normalize (layout.localRef name) reader = (layout.localRef name, .internal) := by
  rw [normalize, classify_localRef, if_neg fun bare => bare.2 (layout.head?_localRef name)]

theorem normalize_normalize (text : String) (layout : Layout) :
    normalize (normalize text layout).1 layout = normalize text layout := by
  by_cases bare : classify text = .internal ∧ text.toList.head? ≠ some '#'
  · have once : normalize text layout = (layout.localRef text, .internal) := by
      simp only [normalize]
      rw [if_pos bare, bare.1]
    rw [once, normalize_localRef]
  · have once : normalize text layout = (text, classify text) := by
      simp only [normalize]
      rw [if_neg bare]
    rw [once, once]

end Reference

/-- **Names are written into local references and read off them without loss.** To escape a text is
to replace its tildes and then its slashes, and to read a segment is to replace `~1` and then `~0`,
where there is anything to replace. A name that is escaped is read as itself, and so is one that
stands in a local reference, if it is not empty. Different names have different references. A local
reference is one of the document itself and stays as it is. A text that a name is read off is the
local reference to it, provided that each tilde in it escapes. And what is normalized is normal. -/
theorem Layout.localRef_codec (layout : Layout) :
    (∀ text : String, (Pointer.escape text).toList =
      if Text.hasPart ['~'] text.toList || Text.hasPart ['/'] text.toList then
        Text.replace '/' [] ['~', '1'] (Text.replace '~' [] ['~', '0'] text.toList)
      else text.toList) ∧
    (∀ segment : String, (Pointer.unescape segment).toList =
      if Text.hasPart ['~', '0'] segment.toList || Text.hasPart ['~', '1'] segment.toList then
        Text.replace '~' ['0'] ['~'] (Text.replace '~' ['1'] ['/'] segment.toList)
      else segment.toList) ∧
    (∀ name, Pointer.unescape (Pointer.escape name) = name) ∧
    (∀ name, name ≠ "" → layout.localName? (layout.localRef name) = some name) ∧
    Function.Injective layout.localRef ∧
    (∀ name reader, Reference.normalize (layout.localRef name) reader
      = (layout.localRef name, .internal)) ∧
    (∀ reference name, layout.localName? reference = some name →
      Pointer.TildesEscape reference.toList → layout.localRef name = reference) ∧
    ∀ reference, Reference.normalize (Reference.normalize reference layout).1 layout
      = Reference.normalize reference layout :=
  ⟨Pointer.escape_eq_ite, Pointer.unescape_eq_ite, Pointer.unescape_escape,
    fun _ nonempty => layout.localName?_localRef nonempty, layout.localRef_injective,
    fun name reader => Reference.normalize_localRef layout reader name,
    fun _ _ named escapes => (localRef_eq_iff.2 ⟨named, escapes⟩).2,
    fun reference => Reference.normalize_normalize reference layout⟩

/-- A name in which a tilde stands before a one, and which has the mark of a URL in it. -/
theorem Layout.localRef_codec_marked :
    swagger2.localName? "#/definitions/~01:~1~1x" = some "~1://x" ∧
    Pointer.TildesEscape "#/definitions/~01:~1~1x".toList ∧
    swagger2.localRef "~1://x" = "#/definitions/~01:~1~1x" ∧
    Reference.normalize "#/definitions/~01:~1~1x" swagger2
      = ("#/definitions/~01:~1~1x", .internal) := by
  obtain ⟨-, -, -, -, -, normal, texts, -⟩ := swagger2.localRef_codec
  have named : swagger2.localName? "#/definitions/~01:~1~1x" = some "~1://x" := by decide
  have escapes : Pointer.TildesEscape "#/definitions/~01:~1~1x".toList := by decide
  have written := texts _ _ named escapes
  exact ⟨named, escapes, written, written ▸ normal "~1://x" swagger2⟩

-- a tilde that stands for itself is read, but not written
example : Layout.swagger2.localName? "#/definitions/a~b" = some "a~b" ∧
    Layout.swagger2.localRef "a~b" = "#/definitions/a~0b" := by decide

end SchemaBundle
