import SchemaBundle.Proofs.Yaml.Strings

/-!
# The characters of written bytes

What is written in UTF-8 is decoded into the same characters (`decodeUtf8?_toUTF8`). So a text that
was written is read character by character, if each of them is admitted.
-/

namespace SchemaBundle.Yaml

/-! ## Bytes -/

theorem toList_loop (bytes : ByteArray) (i : ℕ) (r : List UInt8) :
    ByteArray.toList.loop bytes i r = r.reverse ++ bytes.data.toList.drop i := by
  induction rest : bytes.size - i generalizing i r with
  | zero =>
    have past : ¬ i < bytes.size := by omega
    have none : bytes.data.toList.length ≤ i := by
      rw [Array.length_toList]
      exact Nat.le_of_not_lt past
    rw [ByteArray.toList.loop, if_neg past, List.drop_eq_nil_of_le none, List.append_nil]
  | succ n ih =>
    have here : i < bytes.size := by omega
    have inside : i < bytes.data.toList.length := by
      rw [Array.length_toList]
      exact here
    have byte : bytes.get! i = bytes.data.toList[i] := by
      rw [Array.getElem_toList]
      exact getElem!_pos bytes.data i here
    rw [ByteArray.toList.loop, if_pos here, ih _ _ (by omega), List.drop_eq_getElem_cons inside,
      List.reverse_cons, List.append_assoc, byte, List.singleton_append]

/-- The bytes of a string. -/
theorem toList_toUTF8 (s : String) : s.toUTF8.toList = s.toList.flatMap String.utf8EncodeChar := by
  have bytes (bytes : ByteArray) : bytes.toList = bytes.data.toList := by
    rw [ByteArray.toList, toList_loop]
    simp
  rw [bytes, String.toUTF8, ← String.utf8Encode_toList, List.utf8Encode]
  simp

/-! ## Decoding -/

theorem toNat_ofNat_of_lt {n : ℕ} (small : n < 256) : (UInt8.ofNat n).toNat = n :=
  Nat.mod_eq_of_lt small

theorem continuation?_ofNat (n : ℕ) :
    continuation? (UInt8.ofNat (n % 64 + 128)) = some (n % 64) := by
  rw [continuation?, toNat_ofNat_of_lt (by omega), if_pos (by omega), Nat.add_sub_cancel]

theorem charOf?_toNat {least : ℕ} {c : Char} (h : least ≤ c.toNat) :
    charOf? least c.toNat = some c := by
  rw [charOf?, if_pos ⟨h, c.valid⟩, Char.ofNat_toNat]

/-- A character is decoded from its bytes. -/
theorem decodeOnto_append (found : List Char) (c : Char) (rest : List UInt8) :
    decodeOnto found (String.utf8EncodeChar c ++ rest) = decodeOnto (c :: found) rest := by
  have bound : c.toNat < 1114112 := by
    rcases c.valid with low | ⟨-, high⟩
    · exact lt_trans low (by decide)
    · exact high
  have same : c.val.toNat = c.toNat := rfl
  unfold String.utf8EncodeChar
  dsimp only
  rw [same]
  generalize size : c.toNat = v at *
  have char {least n : ℕ} (enough : least ≤ v) (eq : n = v) : charOf? least n = some c := by
    subst eq size
    exact charOf?_toNat enough
  split_ifs with one two three
  · rw [List.singleton_append, decodeOnto.eq_def]
    simp only [toNat_ofNat_of_lt (show v < 256 by omega)]
    rw [if_pos (by omega), ← size, Char.ofNat_toNat]
  · rw [List.cons_append, List.singleton_append, decodeOnto.eq_def]
    simp only [toNat_ofNat_of_lt (show v / 64 % 32 + 192 < 256 by omega), continuation?_ofNat,
      Option.bind_some]
    rw [if_neg (by omega), if_pos (by omega), char (by omega) (by omega)]
  · simp only [List.cons_append, List.nil_append]
    rw [decodeOnto.eq_def]
    simp only [toNat_ofNat_of_lt (show v / 4096 % 16 + 224 < 256 by omega), continuation?_ofNat,
      Option.bind_some]
    rw [if_neg (by omega), if_neg (by omega), if_pos (by omega), char (by omega) (by omega)]
  · simp only [List.cons_append, List.nil_append]
    rw [decodeOnto.eq_def]
    simp only [toNat_ofNat_of_lt (show v / 262144 % 8 + 240 < 256 by omega), continuation?_ofNat,
      Option.bind_some]
    rw [if_neg (by omega), if_neg (by omega), if_neg (by omega), if_pos (by omega),
      char (by omega) (by omega)]

/-- **Decoding what was written** gives the same characters. -/
theorem decodeUtf8?_toUTF8 (s : String) : decodeUtf8? s.toUTF8.toList = some s.toList := by
  have onto (found chars : List Char) :
      decodeOnto found (chars.flatMap String.utf8EncodeChar) = some (chars.reverse ++ found) := by
    induction chars generalizing found with
    | nil => rfl
    | cons c rest ih =>
      rw [List.flatMap_cons, decodeOnto_append, ih, List.reverse_cons, List.append_assoc,
        List.singleton_append]
  rw [decodeUtf8?, toList_toUTF8, onto]
  simp

/-! ## Characters of a text -/

theorem normalizeBreaks_eq_map {text : List Char} (none : '\r' ∉ text) :
    normalizeBreaks text = text.map normalBreak := by
  induction text with
  | nil => rfl
  | cons c rest ih =>
    obtain ⟨ne, none⟩ := not_or.1 (mt List.mem_cons.2 none)
    have other : ∀ more, c = '\r' → rest = '\n' :: more → False :=
      fun _ same _ => ne same.symm
    rw [normalizeBreaks.eq_3 c rest other, ih none, List.map_cons, normalBreak]
    simp [Ne.symm ne]

/-- A text that was written is read, with normal line breaks, exactly if its characters are
admitted. -/
theorem readText_toUTF8 {s : String} (none : '\r' ∉ s.toList) :
    (s.toList.all isAdmitted = true → readText s.toUTF8.toList = .ok (s.toList.map normalBreak)) ∧
    (s.toList.all isAdmitted = false → readText s.toUTF8.toList = .error .invalidText) := by
  rw [readText, decodeUtf8?_toUTF8]
  dsimp only
  rw [normalizeBreaks_eq_map none]
  exact ⟨fun all => if_pos all, fun other => if_neg (by rw [other]; exact Bool.false_ne_true)⟩

end SchemaBundle.Yaml
