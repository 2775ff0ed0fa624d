import Libpgf.Gu.Utf8
/-!
# UTF-8 and the encoding of characters

The scalar values are the characters of Lean, and a well-formed sequence is the
encoding of one. The encoders write these sequences; the decoders, which build
the same sums with shifts and masks, read them back.
-/

namespace Libpgf

open String

/-- A text in UTF-8. -/
def utf8 (cs : List Char) : Bytes := cs.flatMap utf8EncodeChar

@[simp] theorem utf8_nil : utf8 [] = [] := rfl

@[simp] theorem utf8_cons (c : Char) (cs : List Char) : utf8 (c :: cs) = utf8EncodeChar c ++ utf8 cs := rfl

@[simp] theorem utf8_append (cs cs' : List Char) : utf8 (cs ++ cs') = utf8 cs ++ utf8 cs' := List.flatMap_append

/-! ## Sequences -/

theorem toNat_le (c : Char) : c.toNat ≤ GU_UCS_MAX := by
  have h := c.valid
  simp only [UInt32.isValidChar, Nat.isValidChar] at h
  rcases h with h | h
  · exact (Nat.le_of_lt h).trans (by decide)
  · exact Nat.le_of_lt_succ h.2

theorem toNat_valid (c : Char) : gu_ucs_valid c.toNat = true := decide_eq_true (toNat_le c)

/-- A byte that is not the first one of its sequence, with the low bits of `n`. -/
def tailByte (n : Nat) : UInt8 := UInt8.ofNat (n % 64 + 0x80)

theorem tailByte_toNat (n : Nat) : (tailByte n).toNat = n % 64 + 0x80 := by
  rw [tailByte, UInt8.toNat_ofNat', Nat.mod_eq_of_lt]
  omega

/-- A sequence of each of the four lengths. -/
theorem utf8_cases (c : Char) :
    (c.toNat < 0x80 ∧ utf8EncodeChar c = [UInt8.ofNat c.toNat]) ∨
    (0x80 ≤ c.toNat ∧ c.toNat < 0x800 ∧ utf8EncodeChar c = [UInt8.ofNat (c.toNat / 64 + 0xc0), tailByte c.toNat]) ∨
    (0x800 ≤ c.toNat ∧ c.toNat < 0x10000 ∧
      utf8EncodeChar c = [UInt8.ofNat (c.toNat / 4096 + 0xe0), tailByte (c.toNat / 64), tailByte c.toNat]) ∨
    (0x10000 ≤ c.toNat ∧ c.toNat ≤ GU_UCS_MAX ∧
      utf8EncodeChar c = [UInt8.ofNat (c.toNat / 262144 + 0xf0), tailByte (c.toNat / 4096), tailByte (c.toNat / 64), tailByte c.toNat]) := by
  have hmax := toNat_le c
  have henc : utf8EncodeChar c =
      if c.toNat ≤ 0x7f then [UInt8.ofNat c.toNat]
      else if c.toNat ≤ 0x7ff then [UInt8.ofNat (c.toNat / 64 % 32 + 0xc0), tailByte c.toNat]
      else if c.toNat ≤ 0xffff then [UInt8.ofNat (c.toNat / 4096 % 16 + 0xe0), tailByte (c.toNat / 64), tailByte c.toNat]
      else [UInt8.ofNat (c.toNat / 262144 % 8 + 0xf0), tailByte (c.toNat / 4096), tailByte (c.toNat / 64), tailByte c.toNat] := rfl
  rw [henc]
  unfold GU_UCS_MAX at hmax ⊢
  by_cases h₁ : c.toNat ≤ 0x7f
  · exact .inl ⟨by omega, if_pos h₁⟩
  rw [if_neg h₁]
  by_cases h₂ : c.toNat ≤ 0x7ff
  · refine .inr (.inl ⟨by omega, by omega, ?_⟩)
    rw [if_pos h₂, Nat.mod_eq_of_lt (by omega : c.toNat / 64 < 32)]
  rw [if_neg h₂]
  by_cases h₃ : c.toNat ≤ 0xffff
  · refine .inr (.inr (.inl ⟨by omega, by omega, ?_⟩))
    rw [if_pos h₃, Nat.mod_eq_of_lt (by omega : c.toNat / 4096 < 16)]
  · refine .inr (.inr (.inr ⟨by omega, hmax, ?_⟩))
    rw [if_neg h₃, Nat.mod_eq_of_lt (by omega : c.toNat / 262144 < 8)]

theorem utf8_length_pos (c : Char) : 0 < (utf8EncodeChar c).length := by
  rw [length_utf8EncodeChar]
  exact c.utf8Size_pos

theorem utf8_length_le (c : Char) : (utf8EncodeChar c).length ≤ 4 := by
  rw [length_utf8EncodeChar]
  exact c.utf8Size_le_four

/-! ## Encoding -/

theorem or_tail (n : Nat) : (0x80 : UInt8) ||| UInt8.ofNat (n &&& 0x3f) = tailByte n := by
  have h : ∀ m < 64, (0x80 : UInt8) ||| UInt8.ofNat m = UInt8.ofNat (m + 0x80) := by decide
  rw [Nat.and_two_pow_sub_one_eq_mod n 6]
  exact h _ (Nat.mod_lt _ (by decide))

theorem encode_length_eq (c : Char) : gu_utf8_encode_length c.toNat = (utf8EncodeChar c).length := by
  unfold gu_utf8_encode_length
  rcases utf8_cases c with ⟨h, henc⟩ | ⟨h, h', henc⟩ | ⟨h, h', henc⟩ | ⟨h, h', henc⟩ <;> rw [henc]
  · rw [if_pos h]
    rfl
  · rw [if_neg (Nat.not_lt.2 h), if_pos h']
    rfl
  · rw [if_neg (by omega : ¬ c.toNat < 0x80), if_neg (Nat.not_lt.2 h), if_pos h']
    rfl
  · rw [if_neg (by omega : ¬ c.toNat < 0x80), if_neg (by omega : ¬ c.toNat < 0x800), if_neg (Nat.not_lt.2 h)]
    rfl

theorem encode_one_eq (c : Char) : gu_utf8_encode_one_unsafe c.toNat = .ok (utf8EncodeChar c) := by
  have lead₁ : ∀ m < 32, UInt8.ofNat m ||| ~~~((0x7f : UInt8) >>> UInt8.ofNat 1) = UInt8.ofNat (m + 0xc0) := by decide
  have lead₂ : ∀ m < 16, UInt8.ofNat m ||| ~~~((0x7f : UInt8) >>> UInt8.ofNat 2) = UInt8.ofNat (m + 0xe0) := by decide
  have lead₃ : ∀ m < 8, UInt8.ofNat m ||| ~~~((0x7f : UInt8) >>> UInt8.ofNat 3) = UInt8.ofNat (m + 0xf0) := by decide
  unfold gu_utf8_encode_one_unsafe
  simp only [Exec.require, toNat_valid, if_true, Exec.ok_bind, Exec.pure_eq]
  rcases utf8_cases c with ⟨h, henc⟩ | ⟨h, h', henc⟩ | ⟨h, h', henc⟩ | ⟨h, h', henc⟩ <;> rw [henc]
  · rw [if_pos h]
  · rw [if_neg (Nat.not_lt.2 h), if_pos h']
    simp only [gu_utf8_encode_tail, or_tail, Nat.shiftRight_eq_div_pow]
    rw [lead₁ _ (by omega)]
  · rw [if_neg (by omega : ¬ c.toNat < 0x80), if_neg (Nat.not_lt.2 h), if_pos h']
    simp only [gu_utf8_encode_tail, or_tail, Nat.shiftRight_eq_div_pow, Nat.div_div_eq_div_mul]
    rw [lead₂ _ (by omega)]
  · rw [if_neg (by omega : ¬ c.toNat < 0x80), if_neg (by omega : ¬ c.toNat < 0x800), if_neg (Nat.not_lt.2 h)]
    simp only [gu_utf8_encode_tail, or_tail, Nat.shiftRight_eq_div_pow, Nat.div_div_eq_div_mul]
    unfold GU_UCS_MAX at h'
    rw [lead₃ _ (by omega)]

/-! ## Decoding -/

theorem or_shift (u b : Nat) : u <<< 6 ||| (b &&& 0x3f) = u * 64 + b % 64 := by
  rw [Nat.and_two_pow_sub_one_eq_mod b 6, ← Nat.shiftLeft_add_eq_or_of_lt (Nat.mod_lt _ (by decide)), Nat.shiftLeft_eq]

/-- Below a byte, the mask keeps the low bits. -/
theorem mask_eq (c : UInt8) (len k : Nat) (h : 0xff &&& (0x070f1f7f >>> (len * 8)) = 2 ^ k - 1) :
    gu_utf8_mask c len = c.toNat % 2 ^ k := by
  have hc : c.toNat = c.toNat &&& 0xff := by
    rw [Nat.and_two_pow_sub_one_eq_mod c.toNat 8, Nat.mod_eq_of_lt c.toNat_lt]
  rw [gu_utf8_mask, hc, Nat.and_assoc, h, Nat.and_two_pow_sub_one_eq_mod, ← hc]

theorem mask_one (c : UInt8) : gu_utf8_mask c 1 = c.toNat % 32 := mask_eq c 1 5 (by decide)

theorem mask_two (c : UInt8) : gu_utf8_mask c 2 = c.toNat % 16 := mask_eq c 2 4 (by decide)

theorem mask_three (c : UInt8) : gu_utf8_mask c 3 = c.toNat % 8 := mask_eq c 3 3 (by decide)

/-- One round of the loop that assembles a code point. -/
theorem assemble_step (src : Bytes) (u i : Nat) {c : UInt8} (h : src[i]? = some c) :
    (do let c ← Exec.deref src[i]?; return u <<< 6 ||| (c.toNat &&& 0x3f) : Exec Nat) = .ok (u * 64 + c.toNat % 64) := by
  rw [h, Exec.deref_some, Exec.ok_bind, or_shift]
  rfl

theorem assemble_one (c b : UInt8) (rest : Bytes) :
    gu_utf8_assemble (c :: b :: rest) 1 (gu_utf8_mask c 1) = .ok (c.toNat % 32 * 64 + b.toNat % 64) := by
  simp only [gu_utf8_assemble, List.range', forEach, assemble_step _ _ 1 (show (c :: b :: rest)[1]? = some b from rfl), Exec.ok_bind,
    mask_one]

theorem assemble_two (c b₁ b₂ : UInt8) (rest : Bytes) : gu_utf8_assemble (c :: b₁ :: b₂ :: rest) 2 (gu_utf8_mask c 2) =
    .ok ((c.toNat % 16 * 64 + b₁.toNat % 64) * 64 + b₂.toNat % 64) := by
  simp only [gu_utf8_assemble, List.range', forEach, assemble_step _ _ 1 (show (c :: b₁ :: b₂ :: rest)[1]? = some b₁ from rfl),
    assemble_step _ _ (1 + 1) (show (c :: b₁ :: b₂ :: rest)[1 + 1]? = some b₂ from rfl), Exec.ok_bind, mask_two]

theorem assemble_three (c b₁ b₂ b₃ : UInt8) (rest : Bytes) : gu_utf8_assemble (c :: b₁ :: b₂ :: b₃ :: rest) 3 (gu_utf8_mask c 3) =
    .ok (((c.toNat % 8 * 64 + b₁.toNat % 64) * 64 + b₂.toNat % 64) * 64 + b₃.toNat % 64) := by
  simp only [gu_utf8_assemble, List.range', forEach, assemble_step _ _ 1 (show (c :: b₁ :: b₂ :: b₃ :: rest)[1]? = some b₁ from rfl),
    assemble_step _ _ (1 + 1) (show (c :: b₁ :: b₂ :: b₃ :: rest)[1 + 1]? = some b₂ from rfl),
    assemble_step _ _ (1 + 1 + 1) (show (c :: b₁ :: b₂ :: b₃ :: rest)[1 + 1 + 1]? = some b₃ from rfl), Exec.ok_bind, mask_three]

theorem len_one {c : UInt8} (h : c.toNat < 0xe0) : gu_utf8_len c = 1 := if_pos h

theorem len_two {c : UInt8} (h : 0xe0 ≤ c.toNat) (h' : c.toNat < 0xf0) : gu_utf8_len c = 2 := by
  rw [gu_utf8_len, if_neg (show ¬ c < 0xe0 from Nat.not_lt.2 h), if_pos (show c < 0xf0 from h')]

theorem len_three {c : UInt8} (h : 0xf0 ≤ c.toNat) : gu_utf8_len c = 3 := by
  have h' : ¬ c.toNat < 0xe0 := by omega
  rw [gu_utf8_len, if_neg (show ¬ c < 0xe0 from h'), if_neg (show ¬ c < 0xf0 from Nat.not_lt.2 h)]

theorem leadByte_toNat {n : Nat} (h : n < 256) : (UInt8.ofNat n).toNat = n := UInt8.toNat_ofNat_of_lt' h

/-- The first byte of a sequence tells its length, and the bytes give back the character. -/
theorem sequence_spec (c : Char) (rest : Bytes) : ∃ lead tail, utf8EncodeChar c = lead :: tail ∧
    ((lead.toNat < 0x80 ∧ tail = [] ∧ lead.toNat = c.toNat) ∨
      (0xc2 ≤ lead.toNat ∧ lead.toNat ≤ 0xf4 ∧ tail.length = gu_utf8_len lead ∧
        gu_utf8_assemble (lead :: tail ++ rest) (gu_utf8_len lead) (gu_utf8_mask lead (gu_utf8_len lead)) = .ok c.toNat)) := by
  rcases utf8_cases c with ⟨h, henc⟩ | ⟨h, h', henc⟩ | ⟨h, h', henc⟩ | ⟨h, h', henc⟩ <;> refine ⟨_, _, henc, ?_⟩
  · have hlead := leadByte_toNat (by omega : c.toNat < 256)
    exact .inl ⟨by omega, rfl, hlead⟩
  · have hlead := leadByte_toNat (by omega : c.toNat / 64 + 0xc0 < 256)
    have hlen := len_one (by omega : (UInt8.ofNat (c.toNat / 64 + 0xc0)).toNat < 0xe0)
    refine .inr ⟨by omega, by omega, by rw [hlen]; rfl, ?_⟩
    rw [hlen]
    refine (assemble_one _ _ _).trans (congrArg Except.ok ?_)
    rw [hlead, tailByte_toNat]
    show (c.toNat / 64 + 0xc0) % 32 * 64 + (c.toNat % 64 + 0x80) % 64 = c.toNat
    omega
  · have hlead := leadByte_toNat (by omega : c.toNat / 4096 + 0xe0 < 256)
    have hlen := len_two (by omega : 0xe0 ≤ (UInt8.ofNat (c.toNat / 4096 + 0xe0)).toNat) (by omega)
    refine .inr ⟨by omega, by omega, by rw [hlen]; rfl, ?_⟩
    rw [hlen]
    refine (assemble_two _ _ _ _).trans (congrArg Except.ok ?_)
    rw [hlead, tailByte_toNat, tailByte_toNat]
    show ((c.toNat / 4096 + 0xe0) % 16 * 64 + (c.toNat / 64 % 64 + 0x80) % 64) * 64 + (c.toNat % 64 + 0x80) % 64 = c.toNat
    omega
  · unfold GU_UCS_MAX at h'
    have hlead := leadByte_toNat (by omega : c.toNat / 262144 + 0xf0 < 256)
    have hlen := len_three (by omega : 0xf0 ≤ (UInt8.ofNat (c.toNat / 262144 + 0xf0)).toNat)
    refine .inr ⟨by omega, by omega, by rw [hlen]; rfl, ?_⟩
    rw [hlen]
    refine (assemble_three _ _ _ _ _).trans (congrArg Except.ok ?_)
    rw [hlead, tailByte_toNat, tailByte_toNat, tailByte_toNat]
    show (((c.toNat / 262144 + 0xf0) % 8 * 64 + (c.toNat / 4096 % 64 + 0x80) % 64) * 64 + (c.toNat / 64 % 64 + 0x80) % 64) * 64 +
      (c.toNat % 64 + 0x80) % 64 = c.toNat
    omega

theorem decode_one_unsafe_eq (c : Char) (rest : Bytes) :
    gu_utf8_decode_one_unsafe (utf8EncodeChar c ++ rest) = .ok ((utf8EncodeChar c).length, c.toNat) := by
  obtain ⟨lead, tail, henc, ⟨hlead, rfl, hc⟩ | ⟨hlo, -, hlen, hu⟩⟩ := sequence_spec c rest
  · rw [henc]
    unfold gu_utf8_decode_one_unsafe
    simp only [List.cons_append, List.getElem?_cons_zero, Exec.deref_some, Exec.ok_bind,
      if_pos (show lead < 0x80 from hlead), hc]
    rfl
  · have hlead : ¬ lead.toNat < 0x80 := by omega
    rw [henc]
    unfold gu_utf8_decode_one_unsafe
    simp only [List.cons_append, List.getElem?_cons_zero, Exec.deref_some, Exec.ok_bind,
      if_neg (show ¬ lead < 0x80 from hlead)]
    rw [List.cons_append] at hu
    rw [hu, List.length_cons, hlen]
    rfl

end Libpgf
