/-!
# Cutting text at a character

Cuts of a list of characters at the first, the last or every occurrence of one character. The
cut character belongs to neither side.
-/

namespace SchemaBundle.Text

/-- The text before and after the first `c`. -/
def splitFirst? (c : Char) : List Char → Option (List Char × List Char)
  | [] => none
  | x :: rest =>
    if x = c then some ([], rest)
    else (splitFirst? c rest).map fun (before, after) => (x :: before, after)

/-- The text before and after the last `c`. -/
def splitLast? (c : Char) : List Char → Option (List Char × List Char)
  | [] => none
  | x :: rest =>
    match splitLast? c rest with
    | some (before, after) => some (x :: before, after)
    | none => if x = c then some ([], rest) else none

/-- The pieces between the occurrences of `c`; there is always one. -/
def pieces (c : Char) : List Char → List (List Char)
  | [] => [[]]
  | x :: rest =>
    match pieces c rest with
    | [] => [[x]]
    | piece :: more => if x = c then [] :: piece :: more else (x :: piece) :: more

/-- The rest of a text after a given beginning. -/
def afterStart? : List Char → List Char → Option (List Char)
  | [], text => some text
  | _ :: _, [] => none
  | s :: start, x :: text => if s = x then afterStart? start text else none

/-- Whether `part` occurs somewhere in a text. -/
def hasPart (part : List Char) : List Char → Bool
  | [] => part.isEmpty
  | x :: rest => (afterStart? part (x :: rest)).isSome || hasPart part rest

/-- Whether a text ends with `ending`. -/
def hasEnding (ending text : List Char) : Bool :=
  ending.isSuffixOf text

theorem splitFirst?_eq_none_iff {c : Char} {text : List Char} :
    splitFirst? c text = none ↔ c ∉ text := by
  induction text with
  | nil => simp [splitFirst?]
  | cons x rest ih =>
    by_cases h : x = c
    · simp [splitFirst?, h]
    · simp [splitFirst?, h, Ne.symm h, ih]

theorem splitFirst?_append {c : Char} {before : List Char} (h : c ∉ before) (after : List Char) :
    splitFirst? c (before ++ c :: after) = some (before, after) := by
  induction before with
  | nil => simp [splitFirst?]
  | cons x rest ih =>
    simp only [List.mem_cons, not_or] at h
    simp [splitFirst?, Ne.symm h.1, ih h.2]

theorem pieces_ne_nil (c : Char) (text : List Char) : pieces c text ≠ [] := by
  cases text with
  | nil => simp [pieces]
  | cons x rest =>
    unfold pieces
    split
    · simp
    · split <;> simp

theorem pieces_of_notMem {c : Char} {text : List Char} (h : c ∉ text) : pieces c text = [text] := by
  induction text with
  | nil => rfl
  | cons x rest ih =>
    simp only [List.mem_cons, not_or] at h
    simp [pieces, ih h.2, Ne.symm h.1]

theorem pieces_append {c : Char} {before : List Char} (h : c ∉ before) (after : List Char) :
    pieces c (before ++ c :: after) = before :: pieces c after := by
  induction before with
  | nil =>
    obtain ⟨piece, more, pieces'⟩ := List.exists_cons_of_ne_nil (pieces_ne_nil c after)
    simp [pieces, pieces']
  | cons x rest ih =>
    simp only [List.mem_cons, not_or] at h
    simp [pieces, ih h.2, Ne.symm h.1]

theorem splitLast?_eq_none_iff {c : Char} {text : List Char} :
    splitLast? c text = none ↔ c ∉ text := by
  induction text with
  | nil => simp [splitLast?]
  | cons x rest ih =>
    cases found : splitLast? c rest with
    | some parts =>
      have member : c ∈ rest := Decidable.byContradiction fun absent => by
        rw [ih.2 absent] at found
        cases found
      simp [splitLast?, found, member]
    | none => simp [splitLast?, found, ih.1 found, eq_comm]

theorem splitLast?_append {c : Char} {after : List Char} (h : c ∉ after) (before : List Char) :
    splitLast? c (before ++ c :: after) = some (before, after) := by
  induction before with
  | nil => simp [splitLast?, splitLast?_eq_none_iff.2 h]
  | cons x rest ih => simp [splitLast?, ih]

theorem afterStart?_append (start rest : List Char) :
    afterStart? start (start ++ rest) = some rest := by
  induction start with
  | nil => rfl
  | cons x start ih => simp [afterStart?, ih]

theorem eq_append_of_afterStart? {start text rest : List Char}
    (h : afterStart? start text = some rest) : text = start ++ rest := by
  induction start generalizing text with
  | nil => simpa [afterStart?] using h
  | cons s start ih =>
    cases text with
    | nil => simp [afterStart?] at h
    | cons x text =>
      by_cases hx : s = x
      · simp only [afterStart?, hx, if_true] at h
        simp [hx, ih h]
      · simp [afterStart?, hx] at h

end SchemaBundle.Text
