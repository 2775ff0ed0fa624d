import Libpgf.Gu.Mem
/-!
# Which requests a memory buffer satisfies (`gu/mem.c`)

The rounding never goes below its argument. The size in bytes, though, is
computed modulo `2 ^ 64`: above `bufMax`, the buffer is smaller than the request.
-/

namespace Libpgf

/-- `grants` says for which sizes `realloc` returns a block; the result is whether it did. -/
def gu_mem_realloc (grants : Nat → Bool) (size : Nat) : Exec Bool :=
  if size ≠ 0 ∧ grants size = false then Exec.fatal else .ok (grants size)

/-- The size asked of `realloc`, and the size of the slice returned. -/
def gu_mem_buf_realloc (grants : Nat → Bool) (min_size : Nat) : Exec (Nat × Nat) := do
  let size ← gu_mem_buf_size min_size
  let buf ← gu_mem_realloc grants size
  return (size, if buf then size else 0)

def gu_mem_buf_alloc (grants : Nat → Bool) (min_size : Nat) : Exec (Nat × Nat) := gu_mem_buf_realloc grants min_size

/-! ## The rounding sequence -/

/-- A rounding that does not overflow ends at the first number that is large enough; one that does
ends in `SIZE_MAX`. -/
theorem padovan_loop_rounds {min : Nat} (hmin : min < sizeMod) {n a b c : Nat} (hab : a < b) (hbc : b < c) (hcab : c < a + b)
    (hc : c < sizeMod) (hn : min + 3 < a + n) : ∃ r, gu_mem_padovan_loop min (n + 3) a b c = .ok r ∧ min ≤ r ∧ r < sizeMod := by
  induction n generalizing a b c with
  | zero => exact ⟨a, if_neg (by omega), by omega, by omega⟩
  | succ n ih =>
    unfold gu_mem_padovan_loop
    by_cases hgt : min > a
    · rw [if_pos hgt, if_neg (by omega)]
      by_cases hfit : a + b < sizeMod
      · rw [Nat.mod_eq_of_lt hfit]
        exact ih hbc hcab (by omega) hfit (by omega)
      -- the sum wraps, which the test sees two rounds later
      have hsum : (a + b) % sizeMod = a + b - sizeMod := by
        rw [Nat.mod_eq_sub_mod (by omega), Nat.mod_eq_of_lt (by omega)]
      rw [hsum]
      unfold gu_mem_padovan_loop
      by_cases hgtb : min > b
      · rw [if_pos hgtb, if_neg (by omega)]
        unfold gu_mem_padovan_loop
        by_cases hgtc : min > c
        · rw [if_pos hgtc, if_pos (by omega)]
          exact ⟨sizeMax, rfl, by unfold sizeMax; omega, by unfold sizeMax; omega⟩
        · exact ⟨c, if_neg hgtc, by omega, hc⟩
      · exact ⟨b, if_neg hgtb, by omega, by omega⟩
    · exact ⟨a, if_neg hgt, by omega, by omega⟩

theorem padovan_rounds {m : Nat} (hmin : m < sizeMod) : ∃ r, gu_mem_padovan m = .ok r ∧ m ≤ r ∧ r < sizeMod := by
  unfold gu_mem_padovan
  by_cases hle : m ≤ 5
  · exact ⟨m, if_pos hle, Nat.le_refl _, hmin⟩
  · rw [if_neg hle]
    exact padovan_loop_rounds (n := sizeMod - 3) hmin (by decide) (by decide) (by decide) (by decide) (by unfold sizeMod at *; omega)

/-- The variables `a`, `b` and `c` after `k` rounds. -/
def padovanAt : Nat → Nat × Nat × Nat
  | 0 => (7, 9, 12)
  | k + 1 => ((padovanAt k).2.1, (padovanAt k).2.2, ((padovanAt k).1 + (padovanAt k).2.1) % sizeMod)

theorem padovan_loop_at {min k n : Nat} (hbelow : ∀ i < k, (padovanAt i).1 < min) (hup : ∀ i < k, (padovanAt i).1 ≤ (padovanAt i).2.1) :
    gu_mem_padovan_loop min (n + k) 7 9 12 = gu_mem_padovan_loop min n (padovanAt k).1 (padovanAt k).2.1 (padovanAt k).2.2 := by
  induction k generalizing n with
  | zero => rfl
  | succ k ih =>
    have hlt := hbelow k (Nat.lt_succ_self k)
    have hle := hup k (Nat.lt_succ_self k)
    have hstep : n + (k + 1) = n + 1 + k := by omega
    rw [hstep, ih (fun i hi => hbelow i (Nat.lt_succ_of_lt hi)) (fun i hi => hup i (Nat.lt_succ_of_lt hi))]
    show (if min > _ then if _ < _ then _ else gu_mem_padovan_loop min n _ _ _ else _) = _
    rw [if_pos hlt, if_neg (by omega)]
    rfl

/-- The largest number of blocks in the sequence whose size in bytes fits. -/
def blocksMax : Nat := 1135016365545876313

/-- The largest request that gets its size. -/
def bufMax : Nat := blocksMax * gu_mem_unit_size - gu_malloc_overhead

theorem padovanAt_blocksMax : (padovanAt 141).1 = blocksMax ∧ (padovanAt 142).1 = 1503576561205289204 := by decide +kernel

theorem padovanAt_up : ∀ i < 142, (padovanAt i).1 ≤ (padovanAt i).2.1 ∧ (padovanAt i).1 ≤ blocksMax := by decide +kernel

theorem padovan_first {min k : Nat} (h5 : 5 < min) (hk : k ≤ 142) (hbelow : ∀ i < k, (padovanAt i).1 < min) (hle : min ≤ (padovanAt k).1) :
    gu_mem_padovan min = .ok (padovanAt k).1 := by
  have hfuel : sizeMod = (sizeMod - k - 1) + 1 + k := by
    unfold sizeMod
    omega
  unfold gu_mem_padovan
  rw [if_neg (by omega), hfuel, padovan_loop_at hbelow fun i hi => (padovanAt_up i (by omega)).1]
  exact if_neg (by omega)

/-- Up to `blocksMax`, the rounding stays up to `blocksMax`. -/
theorem padovan_small {min : Nat} (hmin : min ≤ blocksMax) : ∃ r, gu_mem_padovan min = .ok r ∧ r ≤ blocksMax := by
  by_cases h5 : min ≤ 5
  · exact ⟨min, if_pos h5, hmin⟩
  have hex : ∃ k, min ≤ (padovanAt k).1 := ⟨141, padovanAt_blocksMax.1 ▸ hmin⟩
  have hk : Nat.find hex ≤ 141 := Nat.find_min' hex (padovanAt_blocksMax.1 ▸ hmin)
  have hbelow : ∀ i < Nat.find hex, (padovanAt i).1 < min := fun i hi => not_le.1 (Nat.find_min hex hi)
  exact ⟨_, padovan_first (by omega) (by omega) hbelow (Nat.find_spec hex), (padovanAt_up _ (by omega)).2⟩

theorem padovan_large {m : Nat} (hlo : blocksMax < m) (hhi : m ≤ 2 ^ 60) : gu_mem_padovan m = .ok 1503576561205289204 := by
  unfold blocksMax at hlo
  rw [← padovanAt_blocksMax.2]
  refine padovan_first (by omega) (Nat.le_refl _) ?_ ?_
  · intro i hi
    have := (padovanAt_up i hi).2
    unfold blocksMax at this
    omega
  · rw [padovanAt_blocksMax.2]
    omega

/-! ## Sizes in bytes -/

theorem buf_size_small {min_size : Nat} (h : min_size ≤ bufMax) : ∃ size, gu_mem_buf_size min_size = .ok size ∧ min_size ≤ size := by
  have hmax : min_size ≤ 18160261848734021000 := h
  have hblocks : ((min_size + gu_malloc_overhead + sizeMod - 1) % sizeMod / gu_mem_unit_size + 1) % sizeMod = (min_size + 7) / 16 + 1 := by
    unfold gu_malloc_overhead gu_mem_unit_size sizeMod
    omega
  have hle : (min_size + 7) / 16 + 1 ≤ blocksMax := by
    unfold blocksMax
    omega
  obtain ⟨r, hr, hrmax⟩ := padovan_small hle
  obtain ⟨r', hr', hge, -⟩ := padovan_rounds (m := (min_size + 7) / 16 + 1) (by unfold sizeMod; omega)
  obtain rfl : r = r' := by
    rw [hr] at hr'
    exact Except.ok.inj hr'
  unfold blocksMax at hrmax
  refine ⟨r * 16 - 8, ?_, by omega⟩
  have hsize : (r * gu_mem_unit_size + sizeMod - gu_malloc_overhead) % sizeMod = r * 16 - 8 := by
    unfold gu_malloc_overhead gu_mem_unit_size sizeMod
    omega
  simp only [gu_mem_buf_size, hblocks, hr, Exec.ok_bind, hsize, Exec.pure_eq]

/-- Above `bufMax`, the multiplication wraps, or the addition does. -/
theorem buf_size_large {min_size : Nat} (h : bufMax < min_size) (hmod : min_size < sizeMod) :
    ∃ size, gu_mem_buf_size min_size = .ok size ∧ size ≠ 0 ∧ size < min_size := by
  have hmax : 18160261848734021000 < min_size := h
  unfold sizeMod at hmod
  by_cases hwrap : min_size + 7 < 2 ^ 64
  · have hblocks : ((min_size + gu_malloc_overhead + sizeMod - 1) % sizeMod / gu_mem_unit_size + 1) % sizeMod = (min_size + 7) / 16 + 1 := by
      unfold gu_malloc_overhead gu_mem_unit_size sizeMod
      omega
    have hr := padovan_large (m := (min_size + 7) / 16 + 1) (by unfold blocksMax; omega) (by omega)
    refine ⟨5610480905575075640, ?_, by decide, by omega⟩
    simp only [gu_mem_buf_size, hblocks, hr, Exec.ok_bind]
    rfl
  · have hblocks : ((min_size + gu_malloc_overhead + sizeMod - 1) % sizeMod / gu_mem_unit_size + 1) % sizeMod = 1 := by
      unfold gu_malloc_overhead gu_mem_unit_size sizeMod
      omega
    refine ⟨8, ?_, by decide, by omega⟩
    simp only [gu_mem_buf_size, hblocks]
    rfl

/-- Whatever the allocator grants, the call ends in it, or asks for and reports enough. -/
def BufLargeEnough (min_size : Nat) : Prop :=
  ∀ grants, gu_mem_buf_realloc grants min_size = Exec.fatal ∨
    ∃ requested reported, gu_mem_buf_realloc grants min_size = .ok (requested, reported) ∧ min_size ≤ requested ∧ min_size ≤ reported

/-- The rounding holds for every number, and exactly the requests up to `bufMax` get their size. -/
theorem gu_mem_buf_realloc_iff {min_size : Nat} (h : min_size < sizeMod) :
    ((∀ n < sizeMod, ∃ r, gu_mem_padovan n = .ok r ∧ n ≤ r) ∧ BufLargeEnough min_size) ↔ min_size ≤ bufMax := by
  constructor
  · rintro ⟨-, hlarge⟩
    by_contra hgt
    obtain ⟨size, hsize, h0, hlt⟩ := buf_size_large (not_le.1 hgt) h
    have hrun : gu_mem_buf_realloc (fun _ => true) min_size = .ok (size, size) := by
      simp [gu_mem_buf_realloc, gu_mem_realloc, hsize]
    rcases hlarge fun _ => true with hfatal | ⟨requested, reported, hr, hle, -⟩
    · rw [hrun] at hfatal
      exact absurd hfatal.symm (Exec.fatal_ne_ok _)
    · rw [hrun] at hr
      cases hr
      omega
  · intro hle
    refine ⟨fun n hn => ?_, fun grants => ?_⟩
    · obtain ⟨r, hr, hge, -⟩ := padovan_rounds hn
      exact ⟨r, hr, hge⟩
    · obtain ⟨size, hsize, hge⟩ := buf_size_small hle
      unfold gu_mem_buf_realloc gu_mem_realloc
      rw [hsize, Exec.ok_bind]
      by_cases hg : grants size = true
      · refine .inr ⟨size, size, ?_, hge, hge⟩
        simp [hg]
      · by_cases h0 : size = 0
        · refine .inr ⟨0, 0, ?_, by omega, by omega⟩
          simp [h0]
        · refine .inl ?_
          rw [Bool.not_eq_true] at hg
          rw [if_pos ⟨h0, hg⟩]
          rfl

theorem gu_mem_buf_realloc_thousand :
    ((∀ n < sizeMod, ∃ r, gu_mem_padovan n = .ok r ∧ n ≤ r) ∧ BufLargeEnough 1000) ↔ 1000 ≤ bufMax :=
  gu_mem_buf_realloc_iff (by decide)

/-- A request for almost all of the memory gets 8 bytes. -/
theorem gu_mem_buf_realloc_wraps : ¬ ∀ min_size < sizeMod, BufLargeEnough min_size := by
  intro hall
  have hrun : gu_mem_buf_realloc (fun _ => true) sizeMax = .ok (8, 8) := by decide +kernel
  rcases hall sizeMax (by decide) fun _ => true with hfatal | ⟨requested, reported, hr, hle, -⟩
  · rw [hrun] at hfatal
    exact absurd hfatal.symm (Exec.fatal_ne_ok _)
  · rw [hrun] at hr
    cases hr
    exact absurd hle (by decide)

end Libpgf
