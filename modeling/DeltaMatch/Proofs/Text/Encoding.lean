/-!
# Text as bytes

A text is stored in UTF-8. There an ASCII character is a single byte, and no such byte occurs in
any other character. So an ASCII character can be looked for among the bytes of a text as well as
among its characters.
-/

namespace DeltaMatch

/-- The bytes of a text. -/
def bytesOf (cs : List Char) : List UInt8 := cs.flatMap String.utf8EncodeChar

/-- The character is in the ASCII range. -/
def IsAscii (c : Char) : Prop := c.toNat < 128

instance (c : Char) : Decidable (IsAscii c) := inferInstanceAs (Decidable (c.toNat < 128))

variable {c d : Char} {cs : List Char}

theorem bytesOf_cons (c : Char) (cs : List Char) :
    bytesOf (c :: cs) = String.utf8EncodeChar c ++ bytesOf cs := List.flatMap_cons

theorem bytesOf_append (cs cs' : List Char) :
    bytesOf (cs ++ cs') = bytesOf cs ++ bytesOf cs' := List.flatMap_append

/-- Every character has a byte. -/
theorem bytesOf_eq_nil_iff : bytesOf cs = [] ↔ cs = [] := by
  cases cs with
  | nil => exact iff_of_true rfl rfl
  | cons c rest => simp [bytesOf_cons, String.utf8EncodeChar_ne_nil]

/-! ## Storing and reading -/

theorem toList_data_toUTF8 (text : String) : text.toUTF8.data.toList = bytesOf text.toList := by
  have hbytes : text.toUTF8 = text.toList.utf8Encode := by
    rw [String.toUTF8_eq_toByteArray]
    exact (congrArg String.toByteArray String.ofList_toList).symm
  rw [hbytes]
  exact List.toList_data_toByteArray

/-- **Text survives being stored as bytes.** -/
theorem fromUTF8?_toUTF8 (text : String) : String.fromUTF8? text.toUTF8 = some text := by
  rw [String.fromUTF8?, String.toUTF8_eq_toByteArray, dif_pos text.isValidUTF8]
  rfl

theorem fromUTF8?_bytesOf (cs : List Char) :
    String.fromUTF8? ⟨(bytesOf cs).toArray⟩ = some (String.ofList cs) := by
  have hbytes : (⟨(bytesOf cs).toArray⟩ : ByteArray) = (String.ofList cs).toUTF8 := by
    have hlist := toList_data_toUTF8 (String.ofList cs)
    rw [String.toList_ofList] at hlist
    rw [← hlist]
  rw [hbytes, fromUTF8?_toUTF8]

/-! ## ASCII characters -/

theorem utf8EncodeChar_of_isAscii (h : IsAscii c) :
    String.utf8EncodeChar c = [c.toNat.toUInt8] := if_pos (Nat.le_of_lt_succ h)

theorem IsAscii.le (h : IsAscii c) : c.toNat ≤ 255 := Nat.le_trans (Nat.le_of_lt h) (by decide)

/-- The number of a character that fits a byte is kept in one. -/
theorem toNat_toUInt8 (h : c.toNat ≤ 255) : c.toNat.toUInt8.toNat = c.toNat :=
  UInt8.toNat_ofNat_of_lt' (Nat.lt_succ_of_le h)

/-- The bytes of a character outside the ASCII range are outside it as well. -/
theorem le_of_mem_utf8EncodeChar (h : ¬ IsAscii c) {b : UInt8}
    (hb : b ∈ String.utf8EncodeChar c) : 128 ≤ b.toNat := by
  have hc : ¬ c.val.toNat ≤ 127 := fun hle => h (Nat.lt_succ_of_le hle)
  have hbyte : ∀ n, n < 256 → 128 ≤ n → 128 ≤ (UInt8.ofNat n).toNat := by
    intro n hlt hle
    rwa [UInt8.toNat_ofNat_of_lt' hlt]
  simp only [String.utf8EncodeChar, if_neg hc] at hb
  split at hb
  · simp only [List.mem_cons, List.not_mem_nil, or_false] at hb
    rcases hb with rfl | rfl <;> exact hbyte _ (by omega) (by omega)
  split at hb
  · simp only [List.mem_cons, List.not_mem_nil, or_false] at hb
    rcases hb with rfl | rfl | rfl <;> exact hbyte _ (by omega) (by omega)
  · simp only [List.mem_cons, List.not_mem_nil, or_false] at hb
    rcases hb with rfl | rfl | rfl | rfl <;> exact hbyte _ (by omega) (by omega)

theorem mem_utf8EncodeChar_iff (hd : IsAscii d) :
    d.toNat.toUInt8 ∈ String.utf8EncodeChar c ↔ c = d := by
  constructor
  · intro hmem
    have hbyte := toNat_toUInt8 hd.le
    by_cases hc : IsAscii c
    · rw [utf8EncodeChar_of_isAscii hc, List.mem_singleton] at hmem
      have hnat : c.toNat = d.toNat := by
        rw [← toNat_toUInt8 hc.le, ← hmem, hbyte]
      rw [← Char.ofNat_toNat c, hnat, Char.ofNat_toNat]
    · have hle := le_of_mem_utf8EncodeChar hc hmem
      have hlt : d.toNat < 128 := hd
      omega
  · rintro rfl
    rw [utf8EncodeChar_of_isAscii hd]
    exact List.mem_singleton_self _

/-- **An ASCII character is found among the bytes of a text** where it is found in the text. -/
theorem mem_bytesOf_iff (hd : IsAscii d) : d.toNat.toUInt8 ∈ bytesOf cs ↔ d ∈ cs := by
  simp only [bytesOf, List.mem_flatMap, mem_utf8EncodeChar_iff hd, exists_eq_right]

theorem ne_of_mem_bytesOf (hd : IsAscii d) (hnot : d ∉ cs) {b : UInt8} (hb : b ∈ bytesOf cs) :
    b ≠ d.toNat.toUInt8 := by
  rintro rfl
  exact hnot ((mem_bytesOf_iff hd).mp hb)

/-! ## Characters after the ASCII range -/

/-- A character up to U+00FF outside the ASCII range is stored as two bytes. -/
theorem utf8EncodeChar_of_le (h : ¬ IsAscii c) (hle : c.toNat ≤ 255) : String.utf8EncodeChar c =
    [UInt8.ofNat (c.toNat / 64 + 192), UInt8.ofNat (c.toNat % 64 + 128)] := by
  have hnot : ¬ c.val.toNat ≤ 127 := fun hle => h (Nat.lt_succ_of_le hle)
  have hfit : c.val.toNat ≤ 2047 := Nat.le_trans hle (by decide)
  have hlead : c.toNat / 64 % 32 = c.toNat / 64 := Nat.mod_eq_of_lt (by omega)
  simp only [String.utf8EncodeChar, if_neg hnot, if_pos hfit]
  exact congrArg (fun n => [UInt8.ofNat (n + 192), UInt8.ofNat (c.toNat % 64 + 128)]) hlead

end DeltaMatch
