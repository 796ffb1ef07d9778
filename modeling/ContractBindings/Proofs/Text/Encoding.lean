import Mathlib
import ContractBindings.Text.Utf8

/-!
# UTF-8, byte by byte

The bytes of a text are the bytes of its characters one after the other (`encode_eq`).

* `decodeLossy_encode`: reading text leniently gives the text back, so leniency only matters for
  bytes that are no text;
* `mem_encode_iff`: a byte below 128 occurs in the bytes of a text exactly where its character
  occurs in the text.  Slashes, dots and NUL bytes can therefore be looked for on either side.
-/

set_option autoImplicit false

namespace ContractBindings.Text

theorem encode_ofList (cs : List Char) :
    encode (String.ofList cs) = cs.flatMap String.utf8EncodeChar := by
  simp [encode, String.toUTF8_eq_toByteArray, String.toByteArray_ofList, List.utf8Encode]

theorem encode_eq (s : String) : encode s = s.toList.flatMap String.utf8EncodeChar := by
  rw [← encode_ofList, String.ofList_toList]

theorem encode_append (s t : String) : encode (s ++ t) = encode s ++ encode t := by
  simp [encode_eq]

theorem decode?_eq_some {b : Bytes} {s : String} (h : decode? b = some s) : b = encode s := by
  unfold decode? String.fromUTF8? at h
  split at h
  · cases h
    simp [encode, String.toUTF8_eq_toByteArray, String.fromUTF8]
  · cases h

theorem encode_eq_nil_iff {s : String} : encode s = [] ↔ s = "" := by
  constructor
  · intro h
    have := decode?_encode s
    rw [h, ← show encode "" = [] from rfl, decode?_encode] at this
    exact (Option.some.inj this).symm
  · rintro rfl; rfl

/-! ## Bytes below 128 -/

theorem utf8EncodeChar_ascii {c : Char} (h : c.toNat < 128) :
    String.utf8EncodeChar c = [UInt8.ofNat c.toNat] := by
  have h' : c.val.toNat ≤ 0x7f := Nat.le_of_lt_succ h
  unfold String.utf8EncodeChar
  exact if_pos h'

theorem toNat_ofNat_of_lt {n : Nat} (h : n < 256) : (UInt8.ofNat n).toNat = n := by
  rw [UInt8.toNat_ofNat']; omega

/-- Every byte of a character that is not ASCII is at least 128. -/
theorem le_of_mem_utf8EncodeChar {c : Char} (h : 128 ≤ c.toNat) {b : UInt8}
    (hb : b ∈ String.utf8EncodeChar c) : 128 ≤ b.toNat := by
  have h' : ¬ c.val.toNat ≤ 0x7f := Nat.not_le_of_lt h
  unfold String.utf8EncodeChar at hb
  simp only [h', if_false] at hb
  split at hb
  · simp only [List.mem_cons, List.not_mem_nil, or_false] at hb
    rcases hb with rfl | rfl <;> rw [UInt8.toNat_ofNat'] <;> omega
  split at hb
  · simp only [List.mem_cons, List.not_mem_nil, or_false] at hb
    rcases hb with rfl | rfl | rfl <;> rw [UInt8.toNat_ofNat'] <;> omega
  · simp only [List.mem_cons, List.not_mem_nil, or_false] at hb
    rcases hb with rfl | rfl | rfl | rfl <;> rw [UInt8.toNat_ofNat'] <;> omega

theorem mem_utf8EncodeChar_iff {c : Char} {b : UInt8} (hb : b.toNat < 128) :
    b ∈ String.utf8EncodeChar c ↔ c.toNat = b.toNat := by
  by_cases hc : c.toNat < 128
  · rw [utf8EncodeChar_ascii hc, List.mem_singleton, ← UInt8.toNat_inj,
      toNat_ofNat_of_lt (by omega)]
    exact eq_comm
  · constructor
    · intro h
      have := le_of_mem_utf8EncodeChar (by omega) h
      omega
    · intro h; omega

theorem mem_encode_iff {s : String} {b : UInt8} (hb : b.toNat < 128) :
    b ∈ encode s ↔ Char.ofNat b.toNat ∈ s.toList := by
  have hv : b.toNat.isValidChar := Or.inl (by omega)
  have hn : (Char.ofNat b.toNat).toNat = b.toNat := by
    simp [Char.ofNat, hv, Char.toNat, Char.ofNatAux]
  simp only [encode_eq, List.mem_flatMap, mem_utf8EncodeChar_iff hb]
  constructor
  · rintro ⟨c, hc, h⟩
    rwa [← h, Char.ofNat_toNat]
  · intro h
    exact ⟨_, h, hn⟩

/-! ## Reading leniently -/

theorem followers_eq_zero {b : UInt8} (h : b.toNat < 128) : followers b = some 0 := by
  simp [followers, UInt8.lt_iff_toNat_lt, h]

theorem followers_eq_one {b : UInt8} (h₁ : 194 ≤ b.toNat) (h₂ : b.toNat ≤ 223) :
    followers b = some 1 := by
  have h : ¬ b.toNat < 128 := by omega
  simp [followers, UInt8.lt_iff_toNat_lt, UInt8.le_iff_toNat_le, h, h₁, h₂]

theorem followers_eq_two {b : UInt8} (h₁ : 224 ≤ b.toNat) (h₂ : b.toNat ≤ 239) :
    followers b = some 2 := by
  have h : ¬ b.toNat < 128 := by omega
  have h' : ¬ b.toNat ≤ 223 := by omega
  simp [followers, UInt8.lt_iff_toNat_lt, UInt8.le_iff_toNat_le, h, h', h₁, h₂]

theorem followers_eq_three {b : UInt8} (h₁ : 240 ≤ b.toNat) (h₂ : b.toNat ≤ 244) :
    followers b = some 3 := by
  have h : ¬ b.toNat < 128 := by omega
  have h' : ¬ b.toNat ≤ 223 := by omega
  have h'' : ¬ b.toNat ≤ 239 := by omega
  simp [followers, UInt8.lt_iff_toNat_lt, UInt8.le_iff_toNat_le, h, h', h'', h₁, h₂]

theorem isContinuation_of_bits (n : Nat) :
    isContinuation (UInt8.ofNat (n % 64 + 128)) = true := by
  have h : (UInt8.ofNat (n % 64 + 128)).toNat = n % 64 + 128 := toNat_ofNat_of_lt (by omega)
  simp only [isContinuation, UInt8.le_iff_toNat_le, Bool.and_eq_true, decide_eq_true_eq, h]
  exact ⟨by simp, by simp; omega⟩

/-- The four leading bytes with a narrower range for the second byte are looked at one by one. -/
theorem isSecond_of_bounds (lead : UInt8) (n : Nat) (hn : 128 ≤ n ∧ n ≤ 191)
    (h₀ : lead.toNat = 224 → 160 ≤ n) (h₁ : lead.toNat = 237 → n ≤ 159)
    (h₂ : lead.toNat = 240 → 144 ≤ n) (h₃ : lead.toNat = 244 → n ≤ 143) :
    isSecond lead (UInt8.ofNat n) = true := by
  have hb : (UInt8.ofNat n).toNat = n := toNat_ofNat_of_lt (by omega)
  have key : ∀ k : UInt8, lead = k ↔ lead.toNat = k.toNat := fun k => UInt8.toNat_inj.symm
  simp only [isSecond, isContinuation, beq_iff_eq, key]
  split
  · rename_i h; simp [UInt8.le_iff_toNat_le, hb]; exact ⟨h₀ h, hn.2⟩
  split
  · rename_i h; simp [UInt8.le_iff_toNat_le, hb]; exact ⟨hn.1, h₁ h⟩
  split
  · rename_i h; simp [UInt8.le_iff_toNat_le, hb]; exact ⟨h₂ h, hn.2⟩
  split
  · rename_i h; simp [UInt8.le_iff_toNat_le, hb]; exact ⟨hn.1, h₃ h⟩
  · simp [UInt8.le_iff_toNat_le, hb]; exact hn

theorem decodeLossyChars_one {b : UInt8} {rest : Bytes} (h : followers b = some 0) :
    decodeLossyChars (b :: rest) = assemble b [] :: decodeLossyChars rest := by
  rw [decodeLossyChars.eq_def]; simp [h]

theorem decodeLossyChars_two {b c : UInt8} {rest : Bytes} (h : followers b = some 1)
    (hc : isSecond b c = true) :
    decodeLossyChars (b :: c :: rest) = assemble b [c] :: decodeLossyChars rest := by
  rw [decodeLossyChars.eq_def]; simp [h, hc]

theorem decodeLossyChars_three {b c d : UInt8} {rest : Bytes} (h : followers b = some 2)
    (hc : isSecond b c = true) (hd : isContinuation d = true) :
    decodeLossyChars (b :: c :: d :: rest) = assemble b [c, d] :: decodeLossyChars rest := by
  rw [decodeLossyChars.eq_def]; simp [h, hc, hd]

theorem decodeLossyChars_four {b c d e : UInt8} {rest : Bytes} (h : followers b = some 3)
    (hc : isSecond b c = true) (hd : isContinuation d = true) (he : isContinuation e = true) :
    decodeLossyChars (b :: c :: d :: e :: rest) =
      assemble b [c, d, e] :: decodeLossyChars rest := by
  rw [decodeLossyChars.eq_def]; simp [h, hc, hd, he]

theorem toNat_continuation (n : Nat) : (UInt8.ofNat (n % 64 + 128)).toNat = n % 64 + 128 :=
  toNat_ofNat_of_lt (by omega)

/-! The bytes of a character with the number `n`, by their number. -/

theorem decodeLossyChars_number_one {n : Nat} (h : n ≤ 0x7f) (rest : Bytes) :
    decodeLossyChars (UInt8.ofNat n :: rest) = Char.ofNat n :: decodeLossyChars rest := by
  have hb : (UInt8.ofNat n).toNat = n := toNat_ofNat_of_lt (by omega)
  rw [decodeLossyChars_one (followers_eq_zero (by omega))]
  simp only [assemble, List.length_nil, List.foldl_nil, hb]

theorem decodeLossyChars_number_two {n : Nat} (h₁ : 0x7f < n) (h₂ : n ≤ 0x7ff) (rest : Bytes) :
    decodeLossyChars (UInt8.ofNat (n / 64 % 32 + 192) :: UInt8.ofNat (n % 64 + 128) :: rest) =
      Char.ofNat n :: decodeLossyChars rest := by
  have hb : (UInt8.ofNat (n / 64 % 32 + 192)).toNat = n / 64 % 32 + 192 :=
    toNat_ofNat_of_lt (by omega)
  have hs := isSecond_of_bounds (UInt8.ofNat (n / 64 % 32 + 192)) (n % 64 + 128)
    (by omega) (by omega) (by omega) (by omega) (by omega)
  have hn : (n / 64 % 32 + 192) % 32 * 64 + (n % 64 + 128) % 64 = n := by omega
  rw [decodeLossyChars_two (followers_eq_one (by omega) (by omega)) hs]
  simp only [assemble, List.length_cons, List.length_nil, List.foldl_cons, List.foldl_nil, hb,
    toNat_continuation, hn]

theorem decodeLossyChars_number_three {n : Nat} (h₁ : 0x7ff < n) (h₂ : n ≤ 0xffff)
    (hv : n < 0xD800 ∨ 0xDFFF < n) (rest : Bytes) :
    decodeLossyChars (UInt8.ofNat (n / 4096 % 16 + 224) :: UInt8.ofNat (n / 64 % 64 + 128)
      :: UInt8.ofNat (n % 64 + 128) :: rest) = Char.ofNat n :: decodeLossyChars rest := by
  have hb : (UInt8.ofNat (n / 4096 % 16 + 224)).toNat = n / 4096 % 16 + 224 :=
    toNat_ofNat_of_lt (by omega)
  have hs := isSecond_of_bounds (UInt8.ofNat (n / 4096 % 16 + 224))
    (n / 64 % 64 + 128) (by omega) (by omega) (by omega) (by omega) (by omega)
  have hn : ((n / 4096 % 16 + 224) % 16 * 64 + (n / 64 % 64 + 128) % 64) * 64
      + (n % 64 + 128) % 64 = n := by omega
  rw [decodeLossyChars_three (followers_eq_two (by omega) (by omega)) hs (isContinuation_of_bits n)]
  simp only [assemble, List.length_cons, List.length_nil, List.foldl_cons, List.foldl_nil, hb,
    toNat_continuation, hn]

theorem decodeLossyChars_number_four {n : Nat} (h₁ : 0xffff < n) (h₂ : n < 0x110000)
    (rest : Bytes) :
    decodeLossyChars (UInt8.ofNat (n / 262144 % 8 + 240) :: UInt8.ofNat (n / 4096 % 64 + 128)
      :: UInt8.ofNat (n / 64 % 64 + 128) :: UInt8.ofNat (n % 64 + 128) :: rest) =
        Char.ofNat n :: decodeLossyChars rest := by
  have hb : (UInt8.ofNat (n / 262144 % 8 + 240)).toNat = n / 262144 % 8 + 240 :=
    toNat_ofNat_of_lt (by omega)
  have hs := isSecond_of_bounds (UInt8.ofNat (n / 262144 % 8 + 240))
    (n / 4096 % 64 + 128) (by omega) (by omega) (by omega) (by omega) (by omega)
  have hn : (((n / 262144 % 8 + 240) % 8 * 64 + (n / 4096 % 64 + 128) % 64) * 64
      + (n / 64 % 64 + 128) % 64) * 64 + (n % 64 + 128) % 64 = n := by omega
  rw [decodeLossyChars_four (followers_eq_three (by omega) (by omega)) hs
    (isContinuation_of_bits (n / 64)) (isContinuation_of_bits n)]
  simp only [assemble, List.length_cons, List.length_nil, List.foldl_cons, List.foldl_nil, hb,
    toNat_continuation, hn]

/-- One character is read off the front of its bytes; there is a case for each number of bytes. -/
theorem decodeLossyChars_utf8EncodeChar (c : Char) (rest : Bytes) :
    decodeLossyChars (String.utf8EncodeChar c ++ rest) = c :: decodeLossyChars rest := by
  have hv : c.val.toNat < 0xD800 ∨ (0xDFFF < c.val.toNat ∧ c.val.toNat < 0x110000) := c.valid
  unfold String.utf8EncodeChar
  simp only
  generalize hn : c.val.toNat = n at hv
  have hc : c = Char.ofNat n := by rw [← hn]; exact (Char.ofNat_toNat c).symm
  rw [hc]
  split
  · rename_i h
    exact decodeLossyChars_number_one h rest
  split
  · rename_i h₁ h₂
    exact decodeLossyChars_number_two (by omega) h₂ rest
  split
  · rename_i h₁ h₂ h₃
    exact decodeLossyChars_number_three (by omega) h₃ (by omega) rest
  · rename_i h₁ h₂ h₃
    exact decodeLossyChars_number_four (by omega) (by omega) rest

theorem decodeLossyChars_flatMap (cs : List Char) :
    decodeLossyChars (cs.flatMap String.utf8EncodeChar) = cs := by
  induction cs with
  | nil => rfl
  | cons c cs ih => rw [List.flatMap_cons, decodeLossyChars_utf8EncodeChar, ih]

/-- **Reading the bytes of a text leniently gives the text back.** -/
theorem decodeLossy_encode (s : String) : decodeLossy (encode s) = s := by
  rw [decodeLossy, encode_eq, decodeLossyChars_flatMap, String.ofList_toList]

end ContractBindings.Text
