import Mathlib.Algebra.Order.Group.Nat
import Mathlib.Data.List.DropRight
import Mathlib.Data.List.TakeWhile
import SchemaBundle.Proofs.Json.Layout
import SchemaBundle.Proofs.Yaml.Strings
import SchemaBundle.Yaml.Token

/-!
# Steps of the scanner over the pieces of JSON text

A run over JSON text never leaves the state `Scanner.At`: outside of block collections, with no key
that has to stand where it may. `Reads P sound tokens Q` says what the steps from a state of kind `P`
do: they find the tokens and end in a state of kind `Q`, or run into an error if the text they read
is not sound. Such facts compose (`Reads.append`), and there is one for each piece.
-/

namespace SchemaBundle.Yaml

/-! ## Between tokens -/

/-- What stands between the tokens of JSON text. -/
def isSpace (c : Char) : Bool :=
  c == ' ' || c == '\n'

/-- A text without the spaces at its start. -/
def unspaced (text : List Char) : List Char :=
  text.dropWhile isSpace

/-- The characters that start a token behind any spaces. -/
def startsToken (c : Char) : Bool :=
  !isGap c && c != '#'

@[simp] theorem unspaced_append {spaces : List Char} (all : ∀ c ∈ spaces, isSpace c = true)
    (rest : List Char) : unspaced (spaces ++ rest) = unspaced rest := by
  induction spaces with
  | nil => rfl
  | cons c spaces ih =>
    obtain ⟨first, others⟩ := List.forall_mem_cons.1 all
    rw [List.cons_append, unspaced, List.dropWhile_cons_of_pos first]
    exact ih others

theorem unspaced_cons {c : Char} (starts : startsToken c = true) (rest : List Char) :
    unspaced (c :: rest) = c :: rest := by
  refine List.dropWhile_cons_of_neg ?_
  simp only [startsToken, isGap, isBlank, isBreak, isSpace] at starts ⊢
  grind

namespace Cursor

variable {inFlow allowed : Bool} {fuel : ℕ} {c : Cursor} {rest : List Char}

theorem toToken_space (here : c.rest = ' ' :: rest) : toToken inFlow (fuel + 1) allowed c
    = toToken inFlow (fuel + 1) allowed (c.skip 1) := by
  have same : (c.skip 1).rest = rest := by rw [skip, here, List.drop_one, List.tail_cons]
  simp only [toToken, skipWhile, same, here, List.takeWhile_cons, beq_self_eq_true, Bool.true_or,
    if_true, List.length_cons, skip_skip, Nat.add_comm 1]

theorem toToken_break (here : c.rest = '\n' :: rest) : toToken inFlow (fuel + 1) allowed c
    = toToken inFlow fuel (allowed || !inFlow) c.newLine := by
  have stay : c.skip 0 = c := rfl
  simp [toToken, skipWhile, skipComment, head?, here, stay, isBreak]

theorem toToken_stop (stops : ∀ d ∈ c.rest.head?, startsToken d = true) :
    toToken inFlow (fuel + 1) allowed c = (c, allowed) := by
  have stay : c.skip 0 = c := rfl
  cases here : c.rest with
  | nil => simp [toToken, skipWhile, skipComment, head?, here, stay]
  | cons d rest =>
    have starts := stops d (by rw [here]; rfl)
    simp only [startsToken, isGap, isBlank, Bool.and_eq_true, Bool.not_eq_true',
      Bool.or_eq_false_iff, bne_iff_ne, beq_eq_false_iff_ne] at starts
    obtain ⟨⟨⟨space, tab⟩, unbroken⟩, comment⟩ := starts
    simp [toToken, skipWhile, skipComment, head?, here, stay, space, tab, unbroken, comment]

/-- On the way to the next token spaces are skipped. -/
theorem toToken_unspaced (fits : c.Fits) (enough : c.left < fuel)
    (stops : ∀ d ∈ (unspaced c.rest).head?, startsToken d = true) :
    ∃ c' allowed', toToken inFlow fuel allowed c = (c', allowed') ∧ c'.rest = unspaced c.rest ∧
      c'.Fits ∧ c'.left ≤ c.left ∧ (allowed = true → allowed' = true) := by
  generalize same : c.rest = text at stops ⊢
  induction text generalizing c fuel allowed with
  | nil =>
    obtain ⟨fuel, rfl⟩ := Nat.exists_eq_succ_of_ne_zero (Nat.ne_of_gt (Nat.zero_lt_of_lt enough))
    exact ⟨c, allowed, toToken_stop (by simp [same]), same, fits, le_rfl, id⟩
  | cons d rest ih =>
    obtain ⟨fuel, rfl⟩ := Nat.exists_eq_succ_of_ne_zero (Nat.ne_of_gt (Nat.zero_lt_of_lt enough))
    have next : c.rest.drop 1 = rest := by rw [same, List.drop_one, List.tail_cons]
    have more : 0 < c.left := by
      rw [fits, same]
      exact Nat.zero_lt_succ _
    cases space : isSpace d with
    | true =>
      rw [unspaced, List.dropWhile_cons_of_pos space] at stops ⊢
      simp only [isSpace, Bool.or_eq_true, beq_iff_eq] at space
      rcases space with rfl | rfl
      · have shorter : (c.skip 1).left < fuel + 1 := Nat.lt_of_le_of_lt (Nat.sub_le _ _) enough
        obtain ⟨c', allowed', read, rest', fits', left, keeps⟩ :=
          @ih allowed _ (c.skip 1) (fits.skip 1) shorter next stops
        exact ⟨c', allowed', (toToken_space same).trans read, rest', fits',
          left.trans (Nat.sub_le _ _), keeps⟩
      · have shorter : c.newLine.left < fuel := by
          show c.left - 1 < fuel
          omega
        obtain ⟨c', allowed', read, rest', fits', left, keeps⟩ :=
          @ih (allowed || !inFlow) _ c.newLine (fits.skip 1) shorter next stops
        exact ⟨c', allowed', (toToken_break same).trans read, rest', fits',
          left.trans (Nat.sub_le _ _), fun isAllowed => keeps (by rw [isAllowed, Bool.true_or])⟩
    | false =>
      rw [unspaced, List.dropWhile_cons_of_neg (by rw [space]; exact Bool.false_ne_true)] at stops ⊢
      exact ⟨c, allowed, toToken_stop (same ▸ stops), same, fits, le_rfl, id⟩

end Cursor

/-! ## Strings and keys -/

/-- What is read of a string that was written. -/
def reread (text : String) : String :=
  String.ofList (refold .empty text.toList)

/-- The token of a string. -/
def stringToken (text : String) : Token :=
  .scalar false (reread text)

/-- The keys that are found to be keys at the colon: they stand on one line and are short. -/
def isSimpleKey (text : String) : Bool :=
  !text.toList.any isRawBreak && (inner text.toList).length + 2 ≤ 1024

/-- The tokens of a key and the colon behind it. -/
def keyTokens (text : String) : List Token :=
  if isSimpleKey text then [.key, stringToken text, .value] else [stringToken text, .value]

/-! ## States -/

namespace Scanner

/-- The states of a run over JSON text: what is left up to spaces, between how many brackets the
cursor is, and whether a key may start. -/
structure At (depth : ℕ) (allowed : Bool) (rest : List Char) (s : Scanner) : Prop where
  rest : unspaced s.cursor.rest = unspaced rest
  fits : s.cursor.Fits
  indent : s.indent = -1
  outerIndents : s.outerIndents = []
  places : s.keyPlaces.length = depth + 1
  optional : ∀ place, some place ∈ s.keyPlaces → place.required = false
  running : s.ended = false
  keyAllowed : allowed = true → s.keyAllowed = true

variable {depth : ℕ} {allowed : Bool} {c : Char} {rest text : List Char} {s s' : Scanner}

theorem At.congr (h : s.At depth allowed rest) (same : unspaced rest = unspaced text) :
    s.At depth allowed text :=
  { h with rest := h.rest.trans same }

theorem At.inFlow_eq (h : s.At depth allowed rest) : s.inFlow = decide (0 < depth) := by
  rw [inFlow, h.places, Bool.eq_iff_iff, decide_eq_true_iff, decide_eq_true_iff]
  omega

theorem closeBlocks_of_outerIndents (outer : s.outerIndents = []) (column : ℤ) :
    s.closeBlocks column = s := by
  unfold closeBlocks
  rw [outer]
  split <;> rfl

/-- The scanner at a cursor, without the places that cannot be keys any more. -/
def moved (cursor : Cursor) (keyAllowed : Bool) (s : Scanner) : Scanner :=
  { s with
    cursor, keyAllowed
    keyPlaces := s.keyPlaces.map (·.filter fun place => !isStale cursor place) }

/-- A step goes to the next token and reads it, or ends. -/
theorem At.step_of_toToken (h : s.At depth allowed text) {cursor : Cursor} {keyAllowed : Bool}
    (move : s.cursor.toToken s.inFlow (s.cursor.left + 1) s.keyAllowed = (cursor, keyAllowed)) :
    s.step = match cursor.rest with
      | [] => (s.moved cursor keyAllowed).finish
      | c :: rest => (s.moved cursor keyAllowed).readToken c rest := by
  have stale : ¬ (s.keyPlaces.any fun place => place.any fun place =>
      isStale cursor place && place.required) = true := by
    intro stale
    obtain ⟨place, member, required⟩ := List.any_eq_true.1 stale
    cases place with
    | none => cases required
    | some place =>
      rw [Option.any_some, Bool.and_eq_true, h.optional place member] at required
      cases required.2
  have outer : (s.moved cursor keyAllowed).outerIndents = [] := h.outerIndents
  simp only [step, move, bind, Except.bind, dropStaleKeys, if_neg stale]
  rw [← moved, closeBlocks_of_outerIndents outer]
  rfl

theorem At.moved (h : s.At depth allowed text) {cursor : Cursor} {keyAllowed : Bool}
    (here : unspaced cursor.rest = unspaced text) (fits : cursor.Fits)
    (keeps : s.keyAllowed = true → keyAllowed = true) :
    (s.moved cursor keyAllowed).At depth allowed text := by
  refine ⟨here, fits, h.indent, h.outerIndents, ?_, ?_, h.running, keeps ∘ h.keyAllowed⟩
  · rw [Scanner.moved, List.length_map, h.places]
  · intro place member
    obtain ⟨before, member, same⟩ := List.mem_map.1 member
    obtain ⟨rfl, -⟩ := Option.filter_eq_some_iff.1 same
    exact h.optional place member

/-- Going to the next token leaves the scanner in the same kind of state. -/
theorem At.exists_moved (h : s.At depth allowed text)
    (stops : ∀ d ∈ (unspaced text).head?, startsToken d = true) : ∃ cursor keyAllowed,
      s.cursor.toToken s.inFlow (s.cursor.left + 1) s.keyAllowed = (cursor, keyAllowed) ∧
      cursor.rest = unspaced text ∧ cursor.left ≤ s.cursor.left ∧
      (s.moved cursor keyAllowed).At depth allowed text := by
  obtain ⟨cursor, keyAllowed, move, here, fits, left, keeps⟩ :=
    @Cursor.toToken_unspaced s.inFlow s.keyAllowed _ _ h.fits (Nat.lt_succ_self _)
      (by rwa [h.rest])
  rw [h.rest] at here
  refine ⟨cursor, keyAllowed, move, here, left, h.moved ?_ fits keeps⟩
  rw [here]
  exact List.dropWhile_idempotent _ _

/-- A step goes to the next token and reads it. -/
theorem At.step_eq (h : s.At depth allowed (c :: rest)) (starts : startsToken c = true) :
    ∃ s' : Scanner, s'.At depth allowed (c :: rest) ∧ s'.cursor.rest = c :: rest ∧
      s'.cursor.left ≤ s.cursor.left ∧ s'.found = s.found ∧ s.step = s'.readToken c rest := by
  have next := unspaced_cons starts rest
  obtain ⟨cursor, keyAllowed, move, here, left, at'⟩ := h.exists_moved (by simp [next, starts])
  rw [next] at here
  refine ⟨s.moved cursor keyAllowed, at', here, left, rfl, ?_⟩
  rw [h.step_of_toToken move, here]

/-! ## Places of keys -/

/-- A place where a key has to stand is nowhere in JSON text, so giving one up is no error. -/
theorem At.dropKey_eq (h : s.At depth allowed rest) :
    s.dropKey = .ok { s with keyPlaces := none :: s.keyPlaces.tail } := by
  unfold dropKey
  split
  · rename_i place outer same
    rw [if_neg (by rw [h.optional place (by rw [same]; exact List.mem_cons_self ..)]; decide), same]
    rfl
  · rename_i other
    cases same : s.keyPlaces with
    | nil =>
      have := h.places
      rw [same] at this
      cases this
    | cons place outer =>
      cases place with
      | some place => exact absurd same (other place outer)
      | none => rw [List.tail_cons, ← same]

/-- The place where a key may start. -/
def here (s : Scanner) : KeyPlace :=
  ⟨false, s.count, s.cursor.left, s.cursor.line, s.cursor.column⟩

/-- A place that is saved takes that of the innermost one. -/
theorem At.saveKey_eq (h : s.At depth allowed rest) : s.saveKey = .ok (if s.keyAllowed then
    { s with keyPlaces := some s.here :: s.keyPlaces.tail } else s) := by
  have column : (s.indent == (s.cursor.column : ℤ)) = false := by
    rw [h.indent, beq_eq_false_iff_ne]
    omega
  unfold saveKey
  split
  · rw [h.dropKey_eq, column, Bool.and_false]
    rfl
  · rfl

theorem At.exists_saveKey (h : s.At depth allowed rest) : ∃ s' : Scanner, s.saveKey = .ok s' ∧
    s'.At depth allowed rest ∧ s'.cursor = s.cursor ∧ s'.found = s.found ∧ s'.count = s.count ∧
      (s.keyAllowed = true → s'.keyPlaces = some s.here :: s.keyPlaces.tail) := by
  refine ⟨_, h.saveKey_eq, ?_⟩
  split
  · refine ⟨⟨h.rest, h.fits, h.indent, h.outerIndents, ?_, ?_, h.running, h.keyAllowed⟩, rfl, rfl,
      rfl, fun _ => rfl⟩
    · rw [List.length_cons, List.length_tail, h.places]
      rfl
    · intro place member
      rcases List.mem_cons.1 member with same | member
      · obtain rfl := Option.some.inj same
        rfl
      · exact h.optional place (List.mem_of_mem_tail member)
  · rename_i refused
    exact ⟨h, rfl, rfl, rfl, fun allowed => absurd allowed refused⟩

theorem At.exists_dropKey (h : s.At depth allowed rest) : ∃ s' : Scanner, s.dropKey = .ok s' ∧
    s'.At depth allowed rest ∧ s'.cursor = s.cursor ∧ s'.found = s.found := by
  refine ⟨_, h.dropKey_eq, ⟨h.rest, h.fits, h.indent, h.outerIndents, ?_, ?_, h.running,
    h.keyAllowed⟩, rfl, rfl⟩
  · rw [List.length_cons, List.length_tail, h.places]
    rfl
  · intro place member
    rcases List.mem_cons.1 member with same | member
    · cases same
    · exact h.optional place (List.mem_of_mem_tail member)

/-! ## Runs -/

/-- A run from the one state goes on as one from the other. -/
def Leads (s s' : Scanner) : Prop :=
  ∃ n, n + s'.cursor.left ≤ s.cursor.left ∧ ∀ fuel, run (fuel + n) s = run fuel s'

/-- A run from a state ends in an error. -/
def Fails (s : Scanner) : Prop :=
  ∃ n ≤ s.cursor.left, ∃ e, ∀ fuel, run (fuel + n) s = .error e

theorem Leads.trans {t : Scanner} (first : s.Leads s') (second : s'.Leads t) : s.Leads t := by
  obtain ⟨n, bound, runs⟩ := first
  obtain ⟨n', bound', runs'⟩ := second
  exact ⟨n' + n, by omega, fun fuel => by rw [← Nat.add_assoc, runs, runs']⟩

theorem Leads.fails (first : s.Leads s') (second : s'.Fails) : s.Fails := by
  obtain ⟨n, bound, runs⟩ := first
  obtain ⟨n', bound', e, runs'⟩ := second
  exact ⟨n' + n, by omega, e, fun fuel => by rw [← Nat.add_assoc, runs, runs']⟩

theorem leads_of_step (step : s.step = .ok s') (running : s'.ended = false)
    (shorter : s'.cursor.left < s.cursor.left) : s.Leads s' := by
  refine ⟨1, by omega, fun fuel => ?_⟩
  simp only [run, step, bind, Except.bind, running, Bool.false_eq_true, if_false]

theorem fails_of_step {e : YamlError} (step : s.step = .error e) (more : 0 < s.cursor.left) :
    s.Fails := by
  refine ⟨1, more, e, fun fuel => ?_⟩
  simp only [run, step, bind, Except.bind]

/-- What the steps from the states of a kind do: they find tokens and end in a state of another
kind, or in an error if the text is not sound. -/
def Reads (P : Scanner → Prop) (sound : Prop) (tokens : List Token) (Q : Scanner → Prop) : Prop :=
  ∀ s, P s →
    (sound → ∃ s', s.Leads s' ∧ s'.found = tokens.reverse ++ s.found ∧ Q s') ∧
    (¬ sound → s.Fails)

/-- One after the other. -/
theorem Reads.append {P Q R : Scanner → Prop} {p q : Prop} {ts us : List Token}
    (first : Reads P p ts Q) (second : Reads Q q us R) : Reads P (p ∧ q) (ts ++ us) R := by
  intro s here
  obtain ⟨ok, fails⟩ := first s here
  by_cases sound : p
  · obtain ⟨s', leads, found, there⟩ := ok sound
    obtain ⟨ok', fails'⟩ := second s' there
    refine ⟨fun both => ?_, fun none => leads.fails (fails' fun more => none ⟨sound, more⟩)⟩
    obtain ⟨t, leads', found', there'⟩ := ok' both.2
    refine ⟨t, leads.trans leads', ?_, there'⟩
    rw [found', found, List.reverse_append, List.append_assoc]
  · exact ⟨fun both => absurd both.1 sound, fun _ => fails sound⟩

theorem Reads.nil {P : Scanner → Prop} : Reads P True [] P :=
  fun s here => ⟨fun _ => ⟨s, ⟨0, by rw [Nat.zero_add], fun _ => rfl⟩, rfl, here⟩,
    fun none => absurd trivial none⟩

/-- Spaces before a piece do not matter. -/
theorem Reads.of_unspaced {p : Prop} {ts : List Token} {Q : Scanner → Prop}
    (h : Reads (At depth allowed text) p ts Q) (same : unspaced rest = unspaced text) :
    Reads (At depth allowed rest) p ts Q :=
  fun s here => h s (here.congr same)

theorem Reads.of_iff {P Q : Scanner → Prop} {p q : Prop} {ts : List Token} (h : Reads P p ts Q)
    (iff : p ↔ q) : Reads P q ts Q :=
  propext iff ▸ h

/-! ## Brackets and commas -/

theorem isDocumentMark_of_ne {mark : Char} (ne : c ≠ mark) (rest : List Char) :
    isDocumentMark mark (c :: rest) = false := by
  unfold isDocumentMark
  split
  · rename_i same
    obtain ⟨rfl, -⟩ := List.cons.inj same
    simp [ne]
  · rfl

/-- If the token at a place is read, it is found from every place with nothing but spaces before
it. -/
theorem reads_token {t : Token} (starts : startsToken c = true) {depth' : ℕ} {allowed' : Bool}
    {rest' : List Char}
    (read : ∀ s : Scanner, s.At depth allowed (c :: rest) → s.cursor.rest = c :: rest →
      ∃ s' : Scanner, s.readToken c rest = .ok s' ∧ s'.found = t :: s.found ∧
        s'.cursor.left < s.cursor.left ∧ s'.At depth' allowed' rest') :
    Reads (At depth allowed (c :: rest)) True [t] (At depth' allowed' rest') := by
  intro s here
  obtain ⟨s', at', place, left, found, step⟩ := here.step_eq starts
  obtain ⟨s'', isRead, found', left', there⟩ := read s' at' place
  refine ⟨fun _ => ⟨s'', leads_of_step (step.trans isRead) there.running
    (Nat.lt_of_lt_of_le left' left), ?_, there⟩, fun none => absurd trivial none⟩
  rw [found', found]
  rfl

theorem At.left_skip_lt (h : s.At depth allowed text) (here : s.cursor.rest = c :: rest) :
    (s.cursor.skip 1).left < s.cursor.left := by
  have fits := h.fits
  rw [Cursor.Fits, here, List.length_cons] at fits
  show s.cursor.left - 1 < s.cursor.left
  omega

/-- One character further. -/
theorem rest_skip (here : s.cursor.rest = c :: rest) : (s.cursor.skip 1).rest = rest := by
  rw [Cursor.skip, here, List.drop_one, List.tail_cons]

theorem reads_open {t : Token} (bracket : c = '[' ∧ t = .flowSequenceStart ∨
    c = '\x7b' ∧ t = .flowMappingStart) :
    Reads (At depth allowed (c :: rest)) True [t] (At (depth + 1) true rest) := by
  have starts : startsToken c = true := by rcases bracket with ⟨rfl, -⟩ | ⟨rfl, -⟩ <;> rfl
  refine reads_token starts fun s h here => ?_
  have token : s.readToken c rest = s.openFlow t := by
    rcases bracket with ⟨rfl, rfl⟩ | ⟨rfl, rfl⟩ <;> simp [readToken, isDocumentMark_of_ne]
  obtain ⟨s', saved, at', cursor, found, -⟩ := h.exists_saveKey
  rw [token, openFlow, saved]
  refine ⟨_, rfl, congrArg _ found, cursor ▸ h.left_skip_lt here, ?_, at'.fits.skip 1, at'.indent,
    at'.outerIndents, congrArg (· + 1) at'.places, ?_, at'.running, fun _ => rfl⟩
  · exact congrArg unspaced (cursor ▸ rest_skip here)
  · intro place member
    rcases List.mem_cons.1 member with same | member
    · cases same
    · exact at'.optional place member

theorem reads_close {t : Token} (bracket : c = ']' ∧ t = .flowSequenceEnd ∨
    c = '\x7d' ∧ t = .flowMappingEnd) :
    Reads (At (depth + 1) allowed (c :: rest)) True [t] (At depth false rest) := by
  have starts : startsToken c = true := by rcases bracket with ⟨rfl, -⟩ | ⟨rfl, -⟩ <;> rfl
  refine reads_token starts fun s h here => ?_
  have token : s.readToken c rest = s.closeFlow t := by
    rcases bracket with ⟨rfl, rfl⟩ | ⟨rfl, rfl⟩ <;> simp [readToken, isDocumentMark_of_ne]
  obtain ⟨s', dropped, at', cursor, found⟩ := h.exists_dropKey
  have flow : s'.inFlow = true := by simp [at'.inFlow_eq]
  rw [token, closeFlow, dropped]
  simp only [bind, Except.bind, flow, if_true]
  refine ⟨_, rfl, congrArg _ found, cursor ▸ h.left_skip_lt here, ?_, at'.fits.skip 1, at'.indent,
    at'.outerIndents, ?_, ?_, at'.running, fun h => Bool.noConfusion h⟩
  · exact congrArg unspaced (cursor ▸ rest_skip here)
  · show s'.keyPlaces.tail.length = depth + 1
    rw [List.length_tail, at'.places]
    rfl
  · exact fun place member => at'.optional place (List.mem_of_mem_tail member)

theorem reads_comma :
    Reads (At (depth + 1) allowed (',' :: rest)) True [.flowEntry] (At (depth + 1) true rest) := by
  refine reads_token rfl fun s h here => ?_
  have token : s.readToken ',' rest = s.flowEntry := by simp [readToken, isDocumentMark_of_ne]
  obtain ⟨s', dropped, at', cursor, found⟩ := h.exists_dropKey
  rw [token, flowEntry, dropped]
  have next : (s'.cursor.skip 1).rest = rest := cursor ▸ rest_skip here
  exact ⟨_, rfl, congrArg _ found, cursor ▸ h.left_skip_lt here, congrArg unspaced next,
    at'.fits.skip 1, at'.indent, at'.outerIndents, at'.places, at'.optional, at'.running,
    fun _ => rfl⟩

/-! ## Strings and keys -/

theorem readToken_quote (s : Scanner) (rest : List Char) :
    s.readToken '"' rest = s.readQuoted '"' := by
  simp [readToken, isDocumentMark_of_ne]

section Quotation

variable (text : String) (h : s.At depth allowed ('"' :: (inner text.toList ++ '"' :: rest)))
  (place : s.cursor.rest = '"' :: (inner text.toList ++ '"' :: rest))
include h place

theorem At.readQuoted_error (marked : marksLine false text.toList = true) :
    s.readQuoted '"' = .error .malformedToken := by
  obtain ⟨s', saved, at', cursor, -⟩ := h.exists_saveKey
  rw [readQuoted, saved]
  simp only [bind, Except.bind, (Quoted.read_written (cursor ▸ place) at'.fits).error marked]

/-- A string is read as one token, and the place where a key may start stays known. -/
theorem At.readQuoted_ok (sound : marksLine false text.toList = false) :
    ∃ s' : Scanner, s.readQuoted '"' = .ok s' ∧ s'.At depth false rest ∧
      s'.found = stringToken text :: s.found ∧ s'.count = s.count + 1 ∧ s'.cursor.rest = rest ∧
      s'.cursor.line = s.cursor.line + text.toList.countP isRawBreak ∧
      (s.keyAllowed = true → s'.keyPlaces = some s.here :: s.keyPlaces.tail) := by
  obtain ⟨s', saved, at', cursor, found, count, places⟩ := h.exists_saveKey
  obtain ⟨cursor', read, rest', fits, line⟩ :=
    (Quoted.read_written (cursor ▸ place) at'.fits).ok sound
  rw [readQuoted, saved]
  simp only [bind, Except.bind, read]
  refine ⟨_, rfl, ⟨congrArg unspaced rest', fits, at'.indent, at'.outerIndents, at'.places,
    at'.optional, at'.running, fun h => Bool.noConfusion h⟩, ?_, congrArg (· + 1) count, rest',
    cursor ▸ line, places⟩
  exact congrArg (List.cons (stringToken text)) found

end Quotation

theorem reads_string (text : String) :
    Reads (At depth allowed ('"' :: (inner text.toList ++ '"' :: rest)))
      (marksLine false text.toList = false) [stringToken text] (At depth false rest) := by
  intro s here
  obtain ⟨s', at', place, left, found, step⟩ := here.step_eq rfl
  rw [readToken_quote] at step
  have more : s'.cursor.left = (inner text.toList).length + rest.length + 2 := by
    rw [at'.fits, place]
    simp [Nat.add_assoc]
  constructor
  · intro sound
    obtain ⟨s'', read, there, found', -, rest', -⟩ := at'.readQuoted_ok text place sound
    refine ⟨s'', leads_of_step (step.trans read) there.running ?_, ?_, there⟩
    · rw [there.fits, rest']
      omega
    · rw [found', found]
      rfl
  · intro marked
    rw [Bool.not_eq_false] at marked
    exact fails_of_step (step.trans (at'.readQuoted_error text place marked)) (by omega)

section Colon

variable {outer : List (Option KeyPlace)}

/-- A colon where no key can have started. -/
theorem At.valueMark_none (h : s.At (depth + 1) false (':' :: rest))
    (here : s.cursor.rest = ':' :: rest) (places : s.keyPlaces = none :: outer) :
    ∃ s' : Scanner, s.valueMark = .ok s' ∧ s'.At (depth + 1) false rest ∧
      s'.cursor = s.cursor.skip 1 ∧ s'.found = .value :: s.found := by
  have flow : s.inFlow = true := by simp [h.inFlow_eq]
  have next : unspaced (s.cursor.skip 1).rest = unspaced rest := congrArg unspaced (rest_skip here)
  refine ⟨((s.allowKey false).skip 1).emit .value, ?_, ⟨next, h.fits.skip 1, h.indent,
    h.outerIndents, h.places, h.optional, h.running, fun h => Bool.noConfusion h⟩, rfl, rfl⟩
  simp [valueMark, places, flow, openBlock]

/-- A colon behind a key: the token of the key goes where the key started. -/
theorem At.valueMark_some (h : s.At (depth + 1) false (':' :: rest))
    (here : s.cursor.rest = ':' :: rest) {place : KeyPlace}
    (places : s.keyPlaces = some place :: outer) : ∃ s' : Scanner, s.valueMark = .ok s' ∧
      s'.At (depth + 1) false rest ∧ s'.cursor = s.cursor.skip 1 ∧
      s'.found = .value :: (s.emitAt place.position .key).found := by
  have flow : (s.emitAt place.position .key).inFlow = true := by
    have same : (s.emitAt place.position .key).inFlow = s.inFlow := rfl
    simp [same, h.inFlow_eq]
  have next : unspaced (s.cursor.skip 1).rest = unspaced rest := congrArg unspaced (rest_skip here)
  have length := h.places
  rw [places, List.length_cons] at length
  have mark : s.valueMark = .ok ((({ s.emitAt place.position .key with
      keyPlaces := none :: outer }.allowKey false).skip 1).emit .value) := by
    simp only [valueMark, places, openBlock, flow, Bool.not_true, Bool.false_eq_true, false_and,
      if_false]
  refine ⟨_, mark, ⟨next, h.fits.skip 1, h.indent, h.outerIndents, length, ?_, h.running,
    fun h => Bool.noConfusion h⟩, rfl, rfl⟩
  · intro kept member
    rcases List.mem_cons.1 member with same | member
    · cases same
    · exact h.optional kept (places ▸ List.mem_cons_of_mem _ member)

/-- A colon right behind what may be a key, unless the place where it started has been given up. -/
theorem At.step_colon (h : s.At (depth + 1) false (':' :: rest)) (here : s.cursor.rest = ':' :: rest)
    {place : KeyPlace} (places : s.keyPlaces = some place :: outer) :
    ∃ s' : Scanner, s.step = .ok s' ∧ s'.At (depth + 1) false rest ∧ s'.cursor = s.cursor.skip 1 ∧
      s'.found = .value ::
        if isStale s.cursor place then s.found else (s.emitAt place.position .key).found := by
  have move : s.cursor.toToken s.inFlow (s.cursor.left + 1) s.keyAllowed = (s.cursor, s.keyAllowed) :=
    Cursor.toToken_stop (by simp [here, startsToken, isGap, isBlank, isBreak])
  have at' : (s.moved s.cursor s.keyAllowed).At (depth + 1) false (':' :: rest) :=
    h.moved h.rest h.fits id
  have token : (s.moved s.cursor s.keyAllowed).readToken ':' rest
      = (s.moved s.cursor s.keyAllowed).valueMark := by
    simp [readToken, isDocumentMark_of_ne, at'.inFlow_eq]
  have step := h.step_of_toToken move
  rw [here] at step
  dsimp only at step
  rw [token] at step
  rw [step]
  have places' : (s.moved s.cursor s.keyAllowed).keyPlaces
      = (if isStale s.cursor place then none else some place)
        :: outer.map (·.filter fun place => !isStale s.cursor place) := by
    rw [Scanner.moved, places, List.map_cons]
    cases stale : isStale s.cursor place <;> simp [stale]
  cases stale : isStale s.cursor place with
  | true => exact at'.valueMark_none here (by rw [places', stale]; rfl)
  | false => exact at'.valueMark_some here (by rw [places', stale]; rfl)

end Colon

theorem reads_key (text : String) :
    Reads (At (depth + 1) true ('"' :: (inner text.toList ++ '"' :: ':' :: rest)))
      (marksLine false text.toList = false) (keyTokens text) (At (depth + 1) false rest) := by
  intro s here
  obtain ⟨s', at', place, left, found, step⟩ := here.step_eq rfl
  rw [readToken_quote] at step
  have more : s'.cursor.left = (inner text.toList).length + rest.length + 3 := by
    rw [at'.fits, place]
    simp [Nat.add_assoc]
  constructor
  · intro sound
    obtain ⟨s'', read, there, found', count, rest', line, places⟩ :=
      at'.readQuoted_ok text place sound
    have places := places (at'.keyAllowed rfl)
    have size : s''.cursor.left = rest.length + 1 := by
      rw [there.fits, rest']
      rfl
    have stale : isStale s''.cursor s'.here = !isSimpleKey text := by
      have lines : text.toList.countP isRawBreak = 0 ↔ text.toList.any isRawBreak = false := by
        rw [List.countP_eq_zero, List.any_eq_false]
      rw [isStale, line, size, Scanner.here, more, isSimpleKey]
      cases broken : text.toList.any isRawBreak with
      | true =>
        have : 0 < text.toList.countP isRawBreak := by
          rw [Nat.pos_iff_ne_zero, Ne, lines, broken]
          exact Bool.noConfusion
        simp [this]
      | false =>
        rw [lines.2 broken, Bool.eq_iff_iff]
        simp
        omega
    -- the colon follows at once
    obtain ⟨t, colon, there', cursor, found''⟩ := there.step_colon rest' places
    refine ⟨t, (leads_of_step (step.trans read) there.running (by omega)).trans
      (leads_of_step colon there'.running ?_), ?_, there'⟩
    · rw [cursor]
      exact there.left_skip_lt rest'
    · rw [found'', stale, keyTokens]
      cases isSimpleKey text with
      | true =>
        have late : s''.count - s'.here.position = 1 := by
          rw [count, Scanner.here]
          exact Nat.add_sub_cancel_left ..
        simp [emitAt, late, found', found]
      | false => simp [found', found]
  · intro marked
    rw [Bool.not_eq_false] at marked
    exact fails_of_step (step.trans (at'.readQuoted_error text place marked)) (by omega)

/-! ## Words -/

theorem not_isGap_of_isLiteral {c : Char} (h : Json.isLiteral c = true) : isGap c = false := by
  rw [← Bool.not_eq_true, isGap, isBlank, isBreak]
  intro gap
  simp only [Bool.or_eq_true, beq_iff_eq] at gap
  rcases gap with (rfl | rfl) | (rfl | rfl) | rfl <;> cases h

/-- The characters of words are no indicators but for the minus. -/
theorem eq_minus_of_isIndicator {c : Char} (h : Json.isLiteral c = true)
    (indicator : isIndicator c = true) : c = '-' := by
  simp only [isIndicator, List.contains_eq_mem, List.mem_cons, List.not_mem_nil, or_false,
    decide_eq_true_eq] at indicator
  obtain rfl | rfl | rfl | rfl | rfl | rfl | rfl | rfl | rfl | rfl | rfl | rfl | rfl | rfl | rfl |
    rfl | rfl | rfl | rfl := indicator
  · rfl
  all_goals cases h

end Scanner

/-- A gap of spaces takes all of them. -/
theorem Gap.exists_read {cursor : Cursor} (fits : cursor.Fits) {c : Char} {rest : List Char}
    (next : unspaced cursor.rest = c :: rest) (starts : startsToken c = true) :
    ∃ gap cursor', Gap.read 0 .empty cursor = .ok (gap, cursor') ∧ cursor'.rest = c :: rest ∧
      cursor'.Fits ∧ cursor'.left ≤ cursor.left := by
  have gaps : ∀ d ∈ cursor.rest.takeWhile isSpace, isGap d = true ∧ d ≠ '\t' := by
    intro d member
    have space := List.mem_takeWhile_imp member
    simp only [isSpace, Bool.or_eq_true, beq_iff_eq] at space
    rcases space with rfl | rfl <;> decide
  have split : cursor.rest = cursor.rest.takeWhile isSpace ++ c :: rest := by
    rw [← next, unspaced, List.takeWhile_append_dropWhile]
  have length := congrArg List.length split
  rw [List.length_append, ← fits] at length
  simp only [startsToken, Bool.and_eq_true, Bool.not_eq_true'] at starts
  obtain ⟨column, isRead, -, -⟩ := @Gap.readFrom_append _ (c :: rest) gaps (by simp [starts.1])
    0 cursor.left cursor.line cursor.column .empty
  rw [← split] at isRead
  exact ⟨_, _, isRead, rfl, by rw [Cursor.Fits, length, Nat.add_sub_cancel_left], Nat.sub_le _ _⟩

namespace Plain

theorem isFlowIndicator_iff {c : Char} : isFlowIndicator c = true ↔
    c = ',' ∨ c = '[' ∨ c = ']' ∨ c = '\x7b' ∨ c = '\x7d' := by
  simp [isFlowIndicator]

/-- What may follow a word: spaces, and then a comma or a bracket. -/
def EndsWord (rest : List Char) : Prop :=
  ∃ c ∈ (unspaced rest).head?, isFlowIndicator c = true

variable {word rest : List Char}

theorem startsToken_of_isFlowIndicator {c : Char} (h : isFlowIndicator c = true) :
    startsToken c = true := by
  rw [isFlowIndicator_iff] at h
  rcases h with rfl | rfl | rfl | rfl | rfl <;> rfl

theorem wordLength_of_isFlowIndicator {c : Char} (h : isFlowIndicator c = true) :
    wordLength true (c :: rest) = .ok 0 := by
  have noColon : (c == ':') = false := by
    rw [isFlowIndicator_iff] at h
    rcases h with rfl | rfl | rfl | rfl | rfl <;> rfl
  rw [wordLength, noColon, h]
  simp

theorem wordLength_of_endsWord (ends : EndsWord rest) : wordLength true rest = .ok 0 := by
  obtain ⟨c, first, indicator⟩ := ends
  cases rest with
  | nil => cases first
  | cons d rest =>
    cases space : isSpace d with
    | true =>
      have gap : isGap d = true := by
        simp only [isSpace, Bool.or_eq_true, beq_iff_eq] at space
        rcases space with rfl | rfl <;> rfl
      rw [wordLength, if_pos gap]
    | false =>
      rw [unspaced, List.dropWhile_cons_of_neg (by simp [space])] at first
      obtain rfl : d = c := Option.some.inj first
      exact wordLength_of_isFlowIndicator indicator

theorem wordLength_append (literal : ∀ c ∈ word, Json.isLiteral c = true) (ends : EndsWord rest) :
    wordLength true (word ++ rest) = .ok word.length := by
  induction word with
  | nil => exact wordLength_of_endsWord ends
  | cons c word ih =>
    obtain ⟨first, others⟩ := List.forall_mem_cons.1 literal
    have noColon : (c == ':') = false := by
      rw [beq_eq_false_iff_ne]
      rintro rfl
      cases first
    have inside : isFlowIndicator c = false := by
      rw [← Bool.not_eq_true, isFlowIndicator_iff]
      rintro (rfl | rfl | rfl | rfl | rfl) <;> cases first
    rw [List.cons_append, wordLength, Scanner.not_isGap_of_isLiteral first, noColon, inside,
      ih others]
    rfl

theorem readWords_stop {c : Char} (indicator : isFlowIndicator c = true) {cursor : Cursor}
    (here : cursor.rest = c :: rest) (least fuel : ℕ) (text : List Char) (gap : Gap) :
    readWords true least (fuel + 1) text gap cursor = .ok ⟨text, cursor, gap.broken⟩ := by
  have noMark : startsWithDocumentMark (c :: rest) = false := by
    have minus : c ≠ '-' := by
      rintro rfl
      cases indicator
    have point : c ≠ '.' := by
      rintro rfl
      cases indicator
    rw [startsWithDocumentMark, Scanner.isDocumentMark_of_ne minus, Scanner.isDocumentMark_of_ne point]
    rfl
  rw [readWords, here, wordLength_of_isFlowIndicator indicator]
  simp only [noMark, Bool.false_eq_true, and_false, false_or]
  split <;> rfl

/-- A word is read up to the comma or bracket behind it. -/
theorem read_word {cursor : Cursor} (here : cursor.rest = word ++ rest) (fits : cursor.Fits)
    (nonempty : word ≠ []) (literal : ∀ c ∈ word, Json.isLiteral c = true)
    (unmarked : startsWithDocumentMark (word ++ rest) = false) (ends : EndsWord rest) :
    ∃ cursor' crossed, read true 0 cursor = .ok ⟨word.reverse, cursor', crossed⟩ ∧
      unspaced cursor'.rest = unspaced rest ∧ cursor'.Fits ∧ cursor'.left < cursor.left := by
  obtain ⟨c, first, indicator⟩ := id ends
  have starts := startsToken_of_isFlowIndicator indicator
  have behind : (cursor.skip word.length).rest = rest := Cursor.rest_skip_of_append here
  have long : 0 < word.length := List.length_pos_iff.2 nonempty
  have left : cursor.left = word.length + rest.length := by rw [fits, here, List.length_append]
  have go : ¬ ((cursor.column = 0 ∧ startsWithDocumentMark cursor.rest = true) ∨
      cursor.head? = some '#') := by
    rw [here, unmarked, Cursor.head?, here]
    rintro (⟨-, h⟩ | h)
    · cases h
    · obtain ⟨d, more, rfl⟩ := List.exists_cons_of_ne_nil nonempty
      obtain rfl : d = '#' := Option.some.inj h
      cases literal '#' (List.mem_cons_self ..)
  rw [read, readWords, if_neg go, here, wordLength_append literal ends]
  simp only [bind, Except.bind, if_neg long.ne', behind, List.take_left]
  cases rest with
  | nil => cases first
  | cons d more =>
    cases gap : isGap d with
    | false =>
      refine ⟨cursor.skip word.length, false, ?_, by rw [behind], fits.skip _, ?_⟩
      · simp [gap, Gap.fold, Gap.empty, pure, Except.pure]
      · show cursor.left - word.length < cursor.left
        omega
    | true =>
      -- behind the spaces stands what ends the word
      obtain ⟨rest', same⟩ : ∃ rest', unspaced (d :: more) = c :: rest' :=
        List.head?_eq_some_iff.1 first
      obtain ⟨gap', cursor', isRead, here', fits', shorter⟩ :=
        Gap.exists_read (fits.skip word.length) (by rw [behind, same]) starts
      obtain ⟨fuel, enough⟩ := Nat.exists_eq_succ_of_ne_zero (show cursor.left ≠ 0 by omega)
      refine ⟨cursor', gap'.broken, ?_, ?_, fits', ?_⟩
      · dsimp only
        rw [if_pos gap, isRead, enough]
        simpa [Gap.fold, Gap.empty] using readWords_stop indicator here' 0 fuel word.reverse gap'
      · rw [here', ← same]
        exact List.dropWhile_idempotent _ _
      · have : (cursor.skip word.length).left = cursor.left - word.length := rfl
        omega

end Plain

/-! ## Words as tokens -/

/-- The words of JSON text: a letter or digit, perhaps behind a minus, starts them. -/
structure IsWord (word : List Char) : Prop where
  literal : ∀ c ∈ word, Json.isLiteral c = true
  start : ∃ c rest, word = c :: rest ∧
    (c.isAlphanum = true ∨ c = '-' ∧ ∃ d more, rest = d :: more ∧ d.isDigit = true)

variable {word rest : List Char}

/-- A word starts neither a document nor an item of a block. -/
theorem IsWord.exists_cons (h : IsWord word) (rest : List Char) : ∃ c more, word = c :: more ∧
    startsWithDocumentMark (word ++ rest) = false ∧ (c = '-' → atGap (more ++ rest) = false) := by
  obtain ⟨c, more, rfl, letter | ⟨rfl, d, more', rfl, digit⟩⟩ := h.start
  · have minus : c ≠ '-' := by
      rintro rfl
      cases letter
    have point : c ≠ '.' := by
      rintro rfl
      cases letter
    refine ⟨c, more, rfl, ?_, fun same => absurd same minus⟩
    rw [startsWithDocumentMark, List.cons_append, Scanner.isDocumentMark_of_ne minus,
      Scanner.isDocumentMark_of_ne point]
    rfl
  · have minus : (d == '-') = false := by
      rw [beq_eq_false_iff_ne]
      rintro rfl
      cases digit
    refine ⟨'-', d :: more', rfl, ?_, fun _ => ?_⟩
    · have ne : '-' ≠ '.' := by decide
      rw [startsWithDocumentMark, List.cons_append, List.cons_append,
        Scanner.isDocumentMark_of_ne ne, Bool.or_false]
      unfold isDocumentMark
      split
      · rename_i same
        obtain ⟨-, rfl, -⟩ : _ ∧ d = _ ∧ _ := by simpa using same
        rw [minus, Bool.and_false, Bool.false_and, Bool.false_and]
      · rfl
    · exact Scanner.not_isGap_of_isLiteral (h.literal d (by simp))

namespace Scanner

variable {depth : ℕ} {allowed : Bool} {c : Char} {s : Scanner}

theorem readToken_literal (literal : Json.isLiteral c = true)
    (unmarked : startsWithDocumentMark (c :: rest) = false)
    (minus : c = '-' → atGap rest = false) : s.readToken c rest = s.readPlain := by
  have other {d : Char} (no : Json.isLiteral d = false) : c ≠ d := by
    rintro rfl
    rw [literal] at no
    cases no
  have plain : (!(isGap c || isIndicator c) || c == '-') = true := by
    cases indicator : isIndicator c with
    | true => simp [eq_minus_of_isIndicator literal indicator]
    | false => simp [not_isGap_of_isLiteral literal]
  have noItem : ¬ (c = '-' ∧ atGap rest = true) := fun h => by
    rw [minus h.1] at h
    cases h.2
  rw [startsWithDocumentMark, Bool.or_eq_false_iff] at unmarked
  simp only [readToken, unmarked, Bool.false_eq_true, and_false, if_false, noItem, plain,
    Bool.true_or, if_true, false_and,
    other (rfl : Json.isLiteral '%' = false), other (rfl : Json.isLiteral '[' = false),
    other (rfl : Json.isLiteral '\x7b' = false), other (rfl : Json.isLiteral ']' = false),
    other (rfl : Json.isLiteral '\x7d' = false), other (rfl : Json.isLiteral ',' = false),
    other (rfl : Json.isLiteral '?' = false), other (rfl : Json.isLiteral ':' = false),
    other (rfl : Json.isLiteral '*' = false), other (rfl : Json.isLiteral '&' = false),
    other (rfl : Json.isLiteral '!' = false), other (rfl : Json.isLiteral '|' = false),
    other (rfl : Json.isLiteral '>' = false), other (rfl : Json.isLiteral '\'' = false),
    other (rfl : Json.isLiteral '"' = false)]

theorem reads_word (h : IsWord word) (ends : Plain.EndsWord rest) :
    Reads (At (depth + 1) allowed (word ++ rest)) True [.scalar true (String.ofList word)]
      (At (depth + 1) false rest) := by
  obtain ⟨c, more, rfl, unmarked, minus⟩ := h.exists_cons rest
  have literal := h.literal c (List.mem_cons_self ..)
  have starts : startsToken c = true := by
    have comment : c ≠ '#' := by
      rintro rfl
      cases literal
    simp [startsToken, not_isGap_of_isLiteral literal, comment]
  refine reads_token starts fun s at' here => ?_
  obtain ⟨s', saved, there, cursor, found, -⟩ := at'.exists_saveKey
  have flow : s'.inFlow = true := by simp [there.inFlow_eq]
  have least : (s'.indent + 1).toNat = 0 := by rw [there.indent]; rfl
  obtain ⟨cursor', crossed, read, rest', fits, shorter⟩ :=
    Plain.read_word (cursor ▸ here) there.fits (List.cons_ne_nil c more) h.literal unmarked ends
  rw [readToken_literal literal unmarked minus, readPlain, saved]
  simp only [bind, Except.bind, flow, least, read, List.reverse_reverse]
  exact ⟨_, rfl, congrArg (List.cons _) found, cursor ▸ shorter, rest', fits, there.indent,
    there.outerIndents, there.places, there.optional, there.running, fun h => Bool.noConfusion h⟩

end Scanner

end SchemaBundle.Yaml
