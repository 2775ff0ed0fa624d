import Libpgf.Lib.Exec
/-!
# Buffer sizes (`gu/mem.c`)

Only the sizes are modelled: what `gu_mem_buf_alloc` asks of the allocator for
a request of `min_size` bytes. Sizes are `size_t`, modulo `2 ^ 64`.
-/

namespace Libpgf

def sizeMod : Nat := 2 ^ 64

/-- `SIZE_MAX` -/
def sizeMax : Nat := sizeMod - 1

def gu_malloc_overhead : Nat := 8
def gu_mem_unit_size : Nat := 16

/-- The `while` loop of `gu_mem_padovan`. -/
def gu_mem_padovan_loop (min : Nat) : Nat → Nat → Nat → Nat → Exec Nat
  | 0, _, _, _ => Exec.hang
  | n + 1, a, b, c =>
    if min > a then
      if b < a then .ok sizeMax
      else gu_mem_padovan_loop min n b c ((a + b) % sizeMod)
    else .ok a

def gu_mem_padovan (min : Nat) : Exec Nat :=
  if min ≤ 5 then .ok min else gu_mem_padovan_loop min sizeMod 7 9 12

/-- The size of the buffer that `gu_mem_buf_realloc` returns. -/
def gu_mem_buf_size (min_size : Nat) : Exec Nat := do
  let min_blocks := (((min_size + gu_malloc_overhead + sizeMod - 1) % sizeMod) / gu_mem_unit_size + 1) % sizeMod
  let blocks ← gu_mem_padovan min_blocks
  return (blocks * gu_mem_unit_size + sizeMod - gu_malloc_overhead) % sizeMod

/-! ## What a request gets -/

/-- The numbers grow, and `c` stays below twice `a`. -/
theorem padovan_loop_spec {min : Nat} (hmin : min ≤ 2 ^ 60) {n a b c : Nat} (hab : a < b) (hbc : b < c) (hca : c ≤ 2 * a)
    (ha : a ≤ 2 * min) (hn : min < a + n) (h0 : 0 < n) : ∃ r, gu_mem_padovan_loop min n a b c = .ok r ∧ min ≤ r ∧ r ≤ 2 * min := by
  induction n generalizing a b c with
  | zero => exact absurd h0 (Nat.lt_irrefl 0)
  | succ n ih =>
    unfold gu_mem_padovan_loop
    by_cases hgt : min > a
    · have hsum : (a + b) % sizeMod = a + b := Nat.mod_eq_of_lt (by unfold sizeMod; omega)
      rw [if_pos hgt, if_neg (Nat.not_lt.2 (Nat.le_of_lt hab)), hsum]
      exact ih hbc (by omega) (by omega) (by omega) (by omega) (by omega)
    · exact ⟨a, if_neg hgt, Nat.not_lt.1 hgt, ha⟩

theorem padovan_spec {min : Nat} (hmin : min ≤ 2 ^ 60) : ∃ r, gu_mem_padovan min = .ok r ∧ min ≤ r ∧ r ≤ 2 * min := by
  unfold gu_mem_padovan
  by_cases hle : min ≤ 5
  · exact ⟨min, if_pos hle, Nat.le_refl _, by omega⟩
  · rw [if_neg hle]
    exact padovan_loop_spec hmin (by decide) (by decide) (by decide) (by omega) (by unfold sizeMod; omega) (by decide)

/-- A request gets at least what it asks for, and not much more than twice of it. -/
theorem gu_mem_buf_size_spec {min_size : Nat} (h : min_size ≤ 2 ^ 61) :
    ∃ size, gu_mem_buf_size min_size = .ok size ∧ min_size ≤ size ∧ size ≤ 2 * min_size + 64 := by
  have hblocks : ((min_size + gu_malloc_overhead + sizeMod - 1) % sizeMod / gu_mem_unit_size + 1) % sizeMod = (min_size + 7) / 16 + 1 := by
    unfold gu_malloc_overhead gu_mem_unit_size sizeMod
    omega
  obtain ⟨r, hr, hlo, hhi⟩ := padovan_spec (by omega : (min_size + 7) / 16 + 1 ≤ 2 ^ 60)
  refine ⟨r * 16 - 8, ?_, by omega, by omega⟩
  have hsize : (r * gu_mem_unit_size + sizeMod - gu_malloc_overhead) % sizeMod = r * 16 - 8 := by
    unfold gu_malloc_overhead gu_mem_unit_size sizeMod
    omega
  simp only [gu_mem_buf_size, hblocks, hr, Exec.ok_bind, hsize, Exec.pure_eq]

end Libpgf
