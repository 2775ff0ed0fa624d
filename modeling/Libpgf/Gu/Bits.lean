import Libpgf.Gu.PoolLaws
/-!
# The lowest set bit (`gu/bits.c`)

Each line of `gu_lowest_set_bit` halves the block of bits that holds the lowest
one.
-/

namespace Libpgf

/-- The bits of `v` are those of `u` in a block of `w` bits, the lowest one that is not zero. -/
def LowBlock (u v w : Nat) : Prop := ∃ t b, w ∣ t ∧ t + w ≤ 64 ∧ v = 2 ^ t * b ∧ 0 < b ∧ b < 2 ^ w ∧ u % 2 ^ (t + w) = v

/-- A mask with the lower halves of all blocks of `2 * h` bits takes the lower half of one block. -/
theorem and_lower {mask h t b : Nat} (hmask : ∀ i < 64, mask.testBit i = decide (i % (2 * h) < h)) (hdvd : 2 * h ∣ t)
    (ht : t + 2 * h ≤ 64) (hb : b < 2 ^ (2 * h)) : 2 ^ t * b &&& mask = 2 ^ t * (b % 2 ^ h) := by
  apply Nat.eq_of_testBit_eq
  intro i
  rw [Nat.testBit_and, Nat.testBit_two_pow_mul, Nat.testBit_two_pow_mul, Nat.testBit_mod_two_pow]
  by_cases hti : t ≤ i
  · by_cases hi : i - t < 2 * h
    · have hmod : i % (2 * h) = i - t := by
        obtain ⟨k, rfl⟩ := hdvd
        rw [show i = 2 * h * k + (i - 2 * h * k) by omega, Nat.mul_add_mod, Nat.mod_eq_of_lt hi]
        omega
      rw [hmask i (by omega), hmod]
      simp [hti, Bool.and_comm]
    · have hhigh : b.testBit (i - t) = false := by
        apply Nat.testBit_lt_two_pow
        calc b < 2 ^ (2 * h) := hb
          _ ≤ 2 ^ (i - t) := Nat.pow_le_pow_right (by decide) (by omega)
      simp [hhigh]
  · simp [hti]

theorem LowBlock.keepLow {u v h m : Nat} (hmask : ∀ i < 64, m.testBit i = decide (i % (2 * h) < h)) (hb : LowBlock u v (2 * h)) :
    LowBlock u (keepLow v m) h := by
  obtain ⟨t, b, hdvd, ht, rfl, hpos, hlt, hmod⟩ := hb
  have hand := and_lower hmask hdvd ht hlt
  have hhalf : u % 2 ^ (t + h) = 2 ^ t * (b % 2 ^ h) := by
    rw [← Nat.mod_mod_of_dvd u (Nat.pow_dvd_pow 2 (by omega : t + h ≤ t + 2 * h)), hmod, Nat.pow_add, Nat.mul_mod_mul_left]
  unfold Libpgf.keepLow
  rw [hand]
  by_cases hz : b % 2 ^ h = 0
  · -- the lower half is empty
    obtain ⟨b', rfl⟩ := Nat.dvd_of_mod_eq_zero hz
    rw [hz, Nat.mul_zero, if_neg (by simp)]
    refine ⟨t + h, b', ?_, by omega, by rw [Nat.pow_add, Nat.mul_assoc], Nat.pos_of_mul_pos_left hpos, ?_, ?_⟩
    · exact Nat.dvd_add (Nat.dvd_trans (Nat.dvd_mul_left h 2) hdvd) (Nat.dvd_refl h)
    · have hsplit : 2 ^ (2 * h) = 2 ^ h * 2 ^ h := by rw [← Nat.pow_add]; congr 1; omega
      rw [hsplit] at hlt
      exact Nat.lt_of_mul_lt_mul_left hlt
    · rw [Nat.add_assoc, ← Nat.two_mul]
      exact hmod
  · have hne : 2 ^ t * (b % 2 ^ h) ≠ 0 := Nat.mul_ne_zero (Nat.two_pow_pos t).ne' hz
    rw [if_pos hne]
    exact ⟨t, b % 2 ^ h, Nat.dvd_trans (Nat.dvd_mul_left h 2) hdvd, by omega, rfl, Nat.pos_of_ne_zero hz, Nat.mod_lt _ (Nat.two_pow_pos h), hhalf⟩

/-- The largest power of two that divides a number. -/
theorem lowest_set_bit_spec {u : Nat} (h0 : 0 < u) (hu : u < sizeMod) :
    ∃ k, gu_lowest_set_bit u = 2 ^ k ∧ 2 ^ k ∣ u ∧ ¬ 2 ^ (k + 1) ∣ u := by
  have h64 : LowBlock u u (2 * 32) := ⟨0, u, by decide, by decide, by simp, h0, hu, Nat.mod_eq_of_lt hu⟩
  have h32 := h64.keepLow (m := 0x00000000ffffffff) (by decide)
  have h16 := LowBlock.keepLow (h := 16) (m := 0x0000ffff0000ffff) (by decide) h32
  have h8 := LowBlock.keepLow (h := 8) (m := 0x00ff00ff00ff00ff) (by decide) h16
  have h4 := LowBlock.keepLow (h := 4) (m := 0x0f0f0f0f0f0f0f0f) (by decide) h8
  have h2 := LowBlock.keepLow (h := 2) (m := 0x3333333333333333) (by decide) h4
  obtain ⟨t, b, -, ht, hv, hpos, hlt, hmod⟩ := LowBlock.keepLow (h := 1) (m := 0x5555555555555555) (by decide) h2
  obtain rfl : b = 1 := by omega
  rw [Nat.mul_one] at hv
  rw [hv] at hmod
  refine ⟨t, hv, ?_, ?_⟩
  · rw [← Nat.dvd_mod_iff (Nat.pow_dvd_pow 2 (Nat.le_succ t)), hmod]
  · intro hd
    rw [Nat.mod_eq_zero_of_dvd hd] at hmod
    have := Nat.two_pow_pos t
    omega

end Libpgf
