import TagLint.Text.Utf8

/-!
# Decoding what was encoded

Decoding is the inverse of encoding: the bytes of a text decode to that text, whatever
bytes follow them (`decodeLossy_utf8_append`). The lemmas go through the four shapes of an
encoded character, from the first byte (`lead?_one` to `lead?_four`) to the continuation
bytes (`continuation_cons`).
-/

namespace TagLint.Text

/-- A byte below 80 stands by itself. -/
theorem lead?_one {b : Nat} (h : b ≤ 0x7F) : lead? b = some ⟨0, 0x80, 0xBF, b⟩ := by
  rw [lead?, if_pos (by omega)]

/-- The two-byte leads. -/
theorem lead?_two {k : Nat} (hlow : 2 ≤ k) (hhigh : k < 0x20) :
    lead? (k + 0xC0) = some ⟨1, 0x80, 0xBF, k⟩ := by
  rw [lead?, if_neg (by omega), if_neg (by omega), if_pos (by omega), Nat.add_sub_cancel]

/-- The three-byte leads, with the range of the byte after them. -/
theorem lead?_three {k : Nat} (hk : k < 0x10) : ∃ low high,
    lead? (k + 0xE0) = some ⟨2, low, high, k⟩ ∧
      low = (if k = 0 then 0xA0 else 0x80) ∧ high = (if k = 0xD then 0x9F else 0xBF) := by
  have : k = 0 ∨ k = 0xD ∨ (k ≠ 0 ∧ k ≠ 0xD) := by omega
  rcases this with rfl | rfl | ⟨h0, hd⟩
  · exact ⟨_, _, rfl, rfl, rfl⟩
  · exact ⟨_, _, rfl, rfl, rfl⟩
  · refine ⟨0x80, 0xBF, ?_, by simp [h0], by simp [hd]⟩
    rw [lead?, if_neg (by omega), if_neg (by omega), if_neg (by omega), if_neg (by omega),
      if_neg (by omega), if_pos (by omega), Nat.add_sub_cancel]

/-- The four-byte leads, with the range of the byte after them. -/
theorem lead?_four {k : Nat} (hk : k < 5) : ∃ low high,
    lead? (k + 0xF0) = some ⟨3, low, high, k⟩ ∧
      low = (if k = 0 then 0x90 else 0x80) ∧ high = (if k = 4 then 0x8F else 0xBF) := by
  have : k = 0 ∨ k = 1 ∨ k = 2 ∨ k = 3 ∨ k = 4 := by omega
  rcases this with rfl | rfl | rfl | rfl | rfl <;> exact ⟨_, _, rfl, rfl, rfl⟩

/-- A continuation byte with the bits `k` is read onto the bits before it. -/
theorem continuation_cons {count low high acc k : Nat} {bytes : List UInt8} (hk : k < 0x40)
    (hlow : low ≤ k + 0x80) (hhigh : k + 0x80 ≤ high) :
    continuation (count + 1) low high acc (UInt8.ofNat (k + 0x80) :: bytes) =
      continuation count 0x80 0xBF (acc * 64 + k) bytes := by
  have hb : (UInt8.ofNat (k + 0x80)).toNat = k + 0x80 := by
    rw [UInt8.toNat_ofNat']
    omega
  rw [continuation, hb, if_pos ⟨hlow, hhigh⟩]
  congr 1
  omega

/-- An encoded character decodes to itself, whatever bytes follow it. -/
theorem decodeFirst_append_utf8 (c : Char) : ∃ b bytes, String.utf8EncodeChar c = b :: bytes ∧
    ∀ rest, decodeFirst b (bytes ++ rest) = (c, rest) := by
  have hvalid : c.val.toNat.isValidChar := c.valid
  have hc : Char.ofNat c.val.toNat = c := Char.ofNat_toNat c
  generalize hv : c.val.toNat = v at hvalid hc
  have hbyte {n : Nat} (h : n < 256) : (UInt8.ofNat n).toNat = n := by
    rw [UInt8.toNat_ofNat']
    omega
  simp only [String.utf8EncodeChar, hv]
  have hrange : v < 0xD800 ∨ (0xDFFF < v ∧ v < 0x110000) := hvalid
  split
  · refine ⟨_, _, rfl, fun rest => ?_⟩
    rw [decodeFirst, hbyte (by omega), lead?_one (by omega)]
    simp [continuation, hc]
  · split
    · refine ⟨_, _, rfl, fun rest => ?_⟩
      rw [decodeFirst, hbyte (by omega), lead?_two (by omega) (by omega)]
      simp only [List.cons_append, List.nil_append]
      rw [continuation_cons (by omega) (by omega) (by omega)]
      simp only [continuation]
      rw [show v / 64 % 0x20 * 64 + v % 0x40 = v by omega, hc]
    · split
      · refine ⟨_, _, rfl, fun rest => ?_⟩
        obtain ⟨low, high, hlead, hlow, hhigh⟩ := @lead?_three (v / 4096 % 0x10) (by omega)
        rw [decodeFirst, hbyte (by omega), hlead]
        simp only [List.cons_append, List.nil_append]
        rw [continuation_cons (by omega) (by split at hlow <;> omega) (by split at hhigh <;> omega),
          continuation_cons (by omega) (by omega) (by omega)]
        simp only [continuation]
        rw [show (v / 4096 % 0x10 * 64 + v / 64 % 0x40) * 64 + v % 0x40 = v by omega, hc]
      · refine ⟨_, _, rfl, fun rest => ?_⟩
        obtain ⟨low, high, hlead, hlow, hhigh⟩ := @lead?_four (v / 262144 % 0x08) (by omega)
        rw [decodeFirst, hbyte (by omega), hlead]
        simp only [List.cons_append, List.nil_append]
        rw [continuation_cons (by omega) (by split at hlow <;> omega) (by split at hhigh <;> omega),
          continuation_cons (by omega) (by omega) (by omega),
          continuation_cons (by omega) (by omega) (by omega)]
        simp only [continuation]
        rw [show ((v / 262144 % 0x08 * 64 + v / 4096 % 0x40) * 64 + v / 64 % 0x40) * 64 +
          v % 0x40 = v by omega, hc]

/-- An encoded text decodes to itself, whatever bytes follow it. -/
theorem decodeLossy_utf8_append (cs : List Char) (rest : List UInt8) :
    decodeLossy (cs.flatMap String.utf8EncodeChar ++ rest) = cs ++ decodeLossy rest := by
  induction cs with
  | nil => rfl
  | cons c cs ih =>
    obtain ⟨b, bytes, hc, hdecode⟩ := decodeFirst_append_utf8 c
    rw [List.flatMap_cons, hc, List.append_assoc, List.cons_append, decodeLossy, hdecode, ih]
    rfl

end TagLint.Text
