import Libpgf.Gu.Pool
/-!
# What a pool hands out

`Served` says what `gu_malloc_prefixed` can do: take from the left or the right
edge of the current chunk, perhaps after replacing it, or get a chunk of its
own. The invariant of a pool follows from these cases.
-/

namespace Libpgf

/-- A power of two up to 16. -/
def Alignment (a : Nat) : Prop := ∃ k ≤ 4, a = 2 ^ k

theorem Alignment.cases {a : Nat} (h : Alignment a) : a = 1 ∨ a = 2 ∨ a = 4 ∨ a = 8 ∨ a = 16 := by
  obtain ⟨k, hk, rfl⟩ := h
  interval_cases k <;> simp

theorem Alignment.dvd_total {a b : Nat} (ha : Alignment a) (hb : Alignment b) : a ∣ b ∨ b ∣ a := by
  obtain ⟨k, -, rfl⟩ := ha
  obtain ⟨l, -, rfl⟩ := hb
  rcases Nat.le_total k l with h | h
  · exact .inl (Nat.pow_dvd_pow 2 h)
  · exact .inr (Nat.pow_dvd_pow 2 h)

/-! ## Rounding up -/

/-- The least multiple of `a` from `x` on. -/
def roundUp (x a : Nat) : Nat := (x + (a - 1)) / a * a

theorem roundUp_dvd (x a : Nat) : a ∣ roundUp x a := Nat.dvd_mul_left a _

theorem le_roundUp {x a : Nat} (ha : 0 < a) : x ≤ roundUp x a := by
  have hdiv := Nat.div_add_mod (x + (a - 1)) a
  have hmod := Nat.mod_lt (x + (a - 1)) ha
  rw [Nat.mul_comm] at hdiv
  unfold roundUp
  omega

theorem roundUp_lt {x a : Nat} (ha : 0 < a) : roundUp x a < x + a := by
  have hle := Nat.div_mul_le_self (x + (a - 1)) a
  unfold roundUp
  omega

theorem roundUp_self {x a : Nat} (ha : 0 < a) (h : a ∣ x) : roundUp x a = x := by
  obtain ⟨k, rfl⟩ := h
  unfold roundUp
  rw [Nat.mul_add_div ha, Nat.div_eq_of_lt (by omega), Nat.add_zero, Nat.mul_comm]

/-- Clearing the low bits rounds down. -/
theorem and_mask {x k : Nat} (hk : k ≤ 64) (hx : x < sizeMod) : x &&& (sizeMax - (2 ^ k - 1)) = x / 2 ^ k * 2 ^ k := by
  have hmask : sizeMax - (2 ^ k - 1) = 2 ^ k * (2 ^ (64 - k) - 1) := by
    have hsplit : 2 ^ 64 = 2 ^ k * 2 ^ (64 - k) := by
      rw [← Nat.pow_add]
      congr 1
      omega
    have hpos := Nat.two_pow_pos k
    unfold sizeMax sizeMod
    rw [Nat.mul_sub, ← hsplit]
    omega
  rw [hmask, Nat.mul_comm (x / 2 ^ k)]
  apply Nat.eq_of_testBit_eq
  intro i
  rw [Nat.testBit_and, Nat.testBit_two_pow_mul, Nat.testBit_two_pow_mul, Nat.testBit_two_pow_sub_one, Nat.testBit_div_two_pow]
  by_cases hki : k ≤ i
  · by_cases hi : i < 64
    · simp [hki, Nat.sub_add_cancel hki, show i - k < 64 - k by omega]
    · have hhigh : x.testBit i = false := by
        apply Nat.testBit_lt_two_pow
        calc x < 2 ^ 64 := hx
          _ ≤ 2 ^ i := Nat.pow_le_pow_right (by decide) (by omega)
      simp [hki, hhigh, Nat.sub_add_cancel hki]
  · simp [hki]

theorem ceil2e_alignment {a : Nat} (ha : Alignment a) : a = gu_ceil2e (a % 2 ^ 32) := by
  rcases ha.cases with rfl | rfl | rfl | rfl | rfl <;> rfl

theorem align_forward_eq {x a : Nat} (ha : Alignment a) (hx : x + 16 ≤ sizeMod) : gu_align_forward x a = .ok (roundUp x a) := by
  have hceil := ceil2e_alignment ha
  have hbound := ha.cases
  obtain ⟨k, hk, rfl⟩ := ha
  have hmask : (2 ^ k + sizeMod - 1) % sizeMod = 2 ^ k - 1 := by
    unfold sizeMod
    omega
  unfold gu_align_forward Exec.require
  rw [if_pos hceil, Exec.ok_bind, hmask]
  show Except.ok ((x + (2 ^ k - 1)) % sizeMod &&& (sizeMax - (2 ^ k - 1))) = _
  rw [Nat.mod_eq_of_lt (by omega), and_mask (by omega) (by omega)]
  rfl

theorem align_backward_eq {x a : Nat} (ha : Alignment a) (hx : x < sizeMod) : gu_align_backward x a = .ok (x / a * a) := by
  have hceil := ceil2e_alignment ha
  have hbound := ha.cases
  obtain ⟨k, hk, rfl⟩ := ha
  have hmask : (2 ^ k + sizeMod - 1) % sizeMod = 2 ^ k - 1 := by
    unfold sizeMod
    omega
  unfold gu_align_backward Exec.require
  rw [if_pos hceil, Exec.ok_bind, hmask, and_mask (by omega) hx]
  rfl

/-! ## Requests -/

/-- The arguments of `gu_malloc_prefixed`. -/
structure Request where
  pre_align : Nat
  pre_size : Nat
  align : Nat
  size : Nat

namespace Request
variable {q : Request} {old : Nat}

/-- Where the object goes, in a chunk that is filled up to `old`. -/
def offset (q : Request) (old : Nat) : Nat := roundUp (roundUp old q.pre_align + q.pre_size) q.align

/-- Where the object ends, in a new chunk. -/
def full (q : Request) : Nat := q.offset chunkHeader + q.size

/-- A request whose size does not wrap. -/
structure Valid (q : Request) : Prop where
  pre_align : Alignment q.pre_align
  align : Alignment q.align
  prefix_fills : q.pre_align ∣ q.pre_size
  pre_size_lt : q.pre_size < 2 ^ 32
  full_lt : q.full < sizeMod

theorem Valid.offset_dvd (_ : q.Valid) : q.align ∣ q.offset old := roundUp_dvd _ _

variable (old) in
theorem Valid.le_offset (hq : q.Valid) : old + q.pre_size ≤ q.offset old := by
  have hpre := hq.pre_align.cases
  have halign := hq.align.cases
  have h1 := le_roundUp (x := old) (a := q.pre_align) (by omega)
  have h2 := le_roundUp (x := roundUp old q.pre_align + q.pre_size) (a := q.align) (by omega)
  unfold offset
  omega

variable (old) in
theorem offset_lt (hpre : Alignment q.pre_align) (halign : Alignment q.align) : q.offset old < old + q.pre_size + 32 := by
  have hpre := hpre.cases
  have halign := halign.cases
  have h1 := roundUp_lt (x := old) (a := q.pre_align) (by omega)
  have h2 := roundUp_lt (x := roundUp old q.pre_align + q.pre_size) (a := q.align) (by omega)
  unfold offset
  omega

/-- The prefix is aligned as well: one of the two alignments divides the other. -/
theorem Valid.prefix_dvd (hq : q.Valid) : q.pre_align ∣ q.offset old - q.pre_size := by
  have halign := hq.align.cases
  have hp : q.pre_align ∣ roundUp old q.pre_align + q.pre_size := Nat.dvd_add (roundUp_dvd _ _) hq.prefix_fills
  apply Nat.dvd_sub _ hq.prefix_fills
  rcases hq.pre_align.dvd_total hq.align with hd | hd
  · exact Nat.dvd_trans hd hq.offset_dvd
  · unfold offset
    rwa [roundUp_self (by omega) (Nat.dvd_trans hd hp)]

theorem advance_mod (hpre : Alignment q.pre_align) (halign : Alignment q.align) (hplt : q.pre_size < 2 ^ 32) (hold : old < edgeMod) :
    gu_mem_advance old q.pre_align q.pre_size q.align q.size = .ok ((q.offset old + q.size) % sizeMod) := by
  have hcases := hpre.cases
  have hlt := roundUp_lt (x := old) (a := q.pre_align) (by omega)
  unfold edgeMod at hold
  unfold gu_mem_advance
  rw [align_forward_eq hpre (by unfold sizeMod; omega), Exec.ok_bind]
  dsimp only
  rw [Nat.mod_eq_of_lt (by unfold sizeMod; omega), align_forward_eq halign (by unfold sizeMod; omega), Exec.ok_bind]
  rfl

theorem Valid.advance_eq (hq : q.Valid) (hold : old < edgeMod) (hend : q.offset old + q.size < sizeMod) :
    gu_mem_advance old q.pre_align q.pre_size q.align q.size = .ok (q.offset old + q.size) := by
  rw [advance_mod hq.pre_align hq.align hq.pre_size_lt hold, Nat.mod_eq_of_lt hend]

/-- Aligned prefixes that are filled, and sizes below `2 ^ 32`. -/
structure Allowed (q : Request) : Prop where
  pre_align : Alignment q.pre_align
  align : Alignment q.align
  prefix_fills : q.pre_align ∣ q.pre_size
  pre_size_lt : q.pre_size < 2 ^ 32
  size_lt : q.size < 2 ^ 32

theorem Allowed.valid (hq : q.Allowed) : q.Valid where
  pre_align := hq.pre_align
  align := hq.align
  prefix_fills := hq.prefix_fills
  pre_size_lt := hq.pre_size_lt
  full_lt := by
    have hlt := offset_lt chunkHeader hq.pre_align hq.align
    have hp := hq.pre_size_lt
    have hs := hq.size_lt
    unfold full sizeMod
    unfold chunkHeader at *
    omega

end Request

/-! ## One request -/

namespace GuPoolState

/-- The pool with a chunk of its own for one object. -/
def withChunk (pool : GuPoolState) (chunk size : Nat) : GuPoolState :=
  { pool with chunks := chunk :: pool.chunks, used := ⟨chunk, chunk + size⟩ :: pool.used }

/-- The pool with a new current chunk. -/
def renewed (pool : GuPoolState) (chunk size : Nat) : GuPoolState :=
  { pool.withChunk chunk size with curr_buf := chunk, left_edge := chunkHeader, right_edge := size, curr_size := size }

/-- The edges of the current chunk. -/
structure Edged (pool : GuPoolState) : Prop where
  header_le : chunkHeader ≤ pool.left_edge
  left_le : pool.left_edge ≤ pool.right_edge
  right_le : pool.right_edge ≤ pool.curr_size
  size_lt : pool.curr_size < edgeMod

end GuPoolState

/-- The address that a request gets, and the pool after it. -/
inductive Served (malloc : Malloc) (pool : GuPoolState) (q : Request) : Nat → GuPoolState → Prop where
  /-- A chunk of its own. -/
  | own {chunk : Nat} : gu_mem_max_shared_alloc < q.full → malloc pool.used q.full = some chunk →
      Served malloc pool q (chunk + q.offset chunkHeader) (pool.withChunk chunk q.full)
  /-- From the left edge. -/
  | left : q.full ≤ gu_mem_max_shared_alloc → ¬ (q.pre_align = 1 ∧ q.align = 1) → q.offset pool.left_edge + q.size ≤ pool.right_edge →
      Served malloc pool q (pool.curr_buf + q.offset pool.left_edge) { pool with left_edge := q.offset pool.left_edge + q.size }
  /-- From the left edge of a new chunk. -/
  | left_new {chunk size : Nat} : q.full ≤ gu_mem_max_shared_alloc → ¬ (q.pre_align = 1 ∧ q.align = 1) →
      pool.right_edge < q.offset pool.left_edge + q.size →
      malloc pool.used size = some chunk → q.full ≤ size → size < edgeMod → size % 16 = 8 →
      Served malloc pool q (chunk + q.offset chunkHeader) { pool.renewed chunk size with left_edge := q.full }
  /-- From the right edge. -/
  | right : q.full ≤ gu_mem_max_shared_alloc → q.pre_align = 1 ∧ q.align = 1 → pool.left_edge + q.pre_size + q.size ≤ pool.right_edge →
      Served malloc pool q (pool.curr_buf + (pool.right_edge - q.size)) { pool with right_edge := pool.right_edge - (q.pre_size + q.size) }
  /-- From the right edge of a new chunk. -/
  | right_new {chunk size : Nat} : q.full ≤ gu_mem_max_shared_alloc → q.pre_align = 1 ∧ q.align = 1 →
      pool.right_edge < pool.left_edge + q.pre_size + q.size →
      malloc pool.used size = some chunk → chunkHeader + q.pre_size + q.size ≤ size → size < edgeMod → size % 16 = 8 →
      Served malloc pool q (chunk + (size - q.size)) { pool.renewed chunk size with right_edge := size - (q.pre_size + q.size) }

/-- `malloc` returns no block where the request needs one: of its own size, or for a new chunk as the current one is too full. -/
inductive NoBlock (malloc : Malloc) (pool : GuPoolState) (q : Request) : Prop where
  | own : gu_mem_max_shared_alloc < q.full → malloc pool.used q.full = none → NoBlock malloc pool q
  | shared {size : Nat} : q.full ≤ gu_mem_max_shared_alloc → pool.right_edge < q.offset pool.left_edge + q.size →
      chunkHeader + q.pre_size + q.size ≤ size → size < edgeMod → malloc pool.used size = none → NoBlock malloc pool q

section
variable {malloc : Malloc} {pool : GuPoolState} {q : Request}

/-- A buffer is a multiple of the unit, less what `malloc` needs. -/
theorem buf_size_mod {min_size size : Nat} (h : gu_mem_buf_size min_size = .ok size) : size % 16 = 8 := by
  unfold gu_mem_buf_size at h
  obtain ⟨blocks, -, h⟩ := Exec.bind_ok.1 h
  rw [← Except.ok.inj h]
  unfold gu_mem_unit_size gu_malloc_overhead sizeMod
  omega

variable (malloc) in
theorem expand_spec {req : Nat} (hp : pool.Edged) (hreq : req ≤ gu_mem_chunk_max_size) :
    ∃ size, req ≤ size ∧ chunkHeader ≤ size ∧ size < edgeMod ∧ size % 16 = 8 ∧ gu_pool_expand malloc pool req =
      match malloc pool.used size with
      | some chunk => .ok (pool.renewed chunk size)
      | none => Exec.fatal := by
  obtain ⟨hhead, hl, hr, hcurr⟩ := hp
  have hreal : chunkHeader ≤ max req (min (pool.curr_size + 1) gu_mem_chunk_max_size) ∧
      max req (min (pool.curr_size + 1) gu_mem_chunk_max_size) ≤ 8192 := by
    unfold gu_mem_chunk_max_size chunkHeader at *
    omega
  obtain ⟨size, hsize, hge, hlt⟩ := gu_mem_buf_size_spec (by omega : max req (min (pool.curr_size + 1) gu_mem_chunk_max_size) ≤ 2 ^ 61)
  have hedge : size < edgeMod := by
    unfold edgeMod
    omega
  refine ⟨size, by omega, by omega, hedge, buf_size_mod hsize, ?_⟩
  unfold gu_pool_expand gu_mem_buf_slice gu_mem_alloc Exec.require
  simp only [hreal.1, if_true, Exec.ok_bind, hsize]
  cases malloc pool.used size with
  | none => rfl
  | some chunk =>
    have hmod : size % edgeMod = size := Nat.mod_eq_of_lt hedge
    simp only [Exec.ok_bind, Exec.pure_eq, hmod, if_true]
    rfl

/-- The offset of an object in `size_t` arithmetic. -/
theorem sub_size {a b : Nat} (h : a + b < sizeMod) : (a + b + sizeMod - b) % sizeMod = a := by
  have hsub : a + b + sizeMod - b = a + sizeMod := by omega
  rw [hsub, Nat.add_mod_right, Nat.mod_eq_of_lt (by omega)]

theorem malloc_aligned_served (hp : pool.Edged) (hq : q.Valid) (hfull : q.full ≤ gu_mem_max_shared_alloc)
    (halign : ¬ (q.pre_align = 1 ∧ q.align = 1)) :
    (∃ addr pool', gu_pool_malloc_aligned malloc pool q.pre_align q.pre_size q.align q.size = .ok (addr, pool') ∧ Served malloc pool q addr pool') ∨
      (gu_pool_malloc_aligned malloc pool q.pre_align q.pre_size q.align q.size = Exec.fatal ∧ NoBlock malloc pool q) := by
  have hle := hq.le_offset chunkHeader
  have hlt := Request.offset_lt pool.left_edge hq.pre_align hq.align
  have hedges := hp
  obtain ⟨hhead, hl, hr, hcurr⟩ := hedges
  have hend : q.offset chunkHeader + q.size ≤ 512 := hfull
  have hsmall : q.size ≤ gu_mem_max_shared_alloc := by
    unfold gu_mem_max_shared_alloc
    omega
  unfold edgeMod at hcurr
  unfold gu_pool_malloc_aligned Exec.require
  rw [if_pos hsmall, Exec.ok_bind, hq.advance_eq (by unfold edgeMod; omega) (by unfold sizeMod; omega), Exec.ok_bind]
  by_cases hfits : q.offset pool.left_edge + q.size > pool.right_edge
  · obtain ⟨size, hge, -, hedge, hmod, hexp⟩ := expand_spec malloc hp (show q.full ≤ gu_mem_chunk_max_size by unfold Request.full gu_mem_chunk_max_size; omega)
    rw [if_pos hfits, hq.advance_eq (by decide) hq.full_lt, Exec.ok_bind, show q.offset chunkHeader + q.size = q.full from rfl, hexp]
    cases hm : malloc pool.used size with
    | none => exact .inr ⟨rfl, .shared hfull hfits ((Nat.add_le_add_right hle q.size).trans hge) hedge hm⟩
    | some chunk =>
      have hsub : (q.full + sizeMod - q.size) % sizeMod = q.offset chunkHeader := sub_size (by unfold sizeMod; omega)
      have hleft : q.full % edgeMod = q.full := Nat.mod_eq_of_lt (by unfold Request.full edgeMod; omega)
      refine .inl ⟨_, _, ?_, .left_new hfull halign hfits hm hge hedge hmod⟩
      simp only [Exec.ok_bind, GuPoolState.renewed, hge, if_true, Exec.pure_eq, hsub, hleft]
  · refine .inl ⟨_, _, ?_, .left hfull halign (by omega)⟩
    rw [if_neg hfits, sub_size (by unfold sizeMod; omega), Nat.mod_eq_of_lt (by unfold edgeMod; omega)]
    rfl

theorem avail_eq (hp : pool.Edged) : gu_pool_avail pool = pool.right_edge - pool.left_edge := by
  have hcurr := hp.size_lt
  have hl := hp.left_le
  have hr := hp.right_le
  unfold edgeMod at hcurr
  unfold gu_pool_avail
  rw [show pool.right_edge + sizeMod - pool.left_edge = pool.right_edge - pool.left_edge + sizeMod by omega, Nat.add_mod_right]
  exact Nat.mod_eq_of_lt (by unfold sizeMod; omega)

variable (pool) in
theorem takeRight_eq {n : Nat} (hn : n ≤ pool.right_edge) (hr : pool.right_edge < edgeMod) :
    takeRight pool n = (pool.curr_buf + (pool.right_edge - n), { pool with right_edge := pool.right_edge - n }) := by
  have hedge : (pool.right_edge + edgeMod - n % edgeMod) % edgeMod = pool.right_edge - n := by
    rw [Nat.mod_eq_of_lt (by omega : n < edgeMod), show pool.right_edge + edgeMod - n = pool.right_edge - n + edgeMod by omega,
      Nat.add_mod_right, Nat.mod_eq_of_lt (by omega)]
  unfold takeRight
  rw [hedge]

variable (pool) in
theorem renewed_edged (chunk : Nat) {size : Nat} (hlo : chunkHeader ≤ size) (hhi : size < edgeMod) : (pool.renewed chunk size).Edged :=
  ⟨Nat.le_refl _, hlo, Nat.le_refl _, hhi⟩

theorem malloc_unaligned_served (hp : pool.Edged) (hq : q.Valid) (hfull : q.full ≤ gu_mem_max_shared_alloc)
    (halign : q.pre_align = 1 ∧ q.align = 1) :
    (∃ addr pool', gu_pool_malloc_unaligned malloc pool (q.pre_size + q.size) = .ok (addr, pool') ∧ Served malloc pool q (addr + q.pre_size) pool') ∨
      (gu_pool_malloc_unaligned malloc pool (q.pre_size + q.size) = Exec.fatal ∧ NoBlock malloc pool q) := by
  have hle := hq.le_offset chunkHeader
  have hend : q.offset chunkHeader + q.size ≤ 512 := hfull
  have hedges := hp
  obtain ⟨hhead, hl, hr, hcurr⟩ := hedges
  unfold gu_pool_malloc_unaligned
  rw [avail_eq hp]
  by_cases hfits : q.pre_size + q.size > pool.right_edge - pool.left_edge
  · have hreq : (chunkHeader + (q.pre_size + q.size)) % sizeMod = chunkHeader + (q.pre_size + q.size) :=
      Nat.mod_eq_of_lt (by unfold sizeMod; omega)
    obtain ⟨size, hge, hlo, hedge, hmod, hexp⟩ :=
      expand_spec malloc hp (show chunkHeader + (q.pre_size + q.size) ≤ gu_mem_chunk_max_size by unfold gu_mem_chunk_max_size; omega)
    rw [if_pos hfits, hreq, hexp]
    cases hm : malloc pool.used size with
    | none =>
      have hoff := hq.le_offset pool.left_edge
      exact .inr ⟨rfl, .shared hfull (by omega) (by omega) hedge hm⟩
    | some chunk =>
      have hnew := renewed_edged pool chunk hlo hedge
      have hroom : q.pre_size + q.size ≤ gu_pool_avail (pool.renewed chunk size) := by
        rw [avail_eq hnew]
        show _ ≤ size - chunkHeader
        omega
      have htake := takeRight_eq (pool.renewed chunk size) (n := q.pre_size + q.size) (by show _ ≤ size; omega) hedge
      refine .inl ⟨chunk + (size - (q.pre_size + q.size)), { pool.renewed chunk size with right_edge := size - (q.pre_size + q.size) }, ?_, ?_⟩
      · unfold Exec.require
        simp only [Exec.ok_bind, if_pos hroom, htake, Exec.pure_eq]
        rfl
      · have haddr : chunk + (size - (q.pre_size + q.size)) + q.pre_size = chunk + (size - q.size) := by omega
        rw [haddr]
        exact .right_new hfull halign (by omega) hm (by omega) hedge hmod
  · have htake := takeRight_eq pool (n := q.pre_size + q.size) (by omega) (by omega)
    refine .inl ⟨pool.curr_buf + (pool.right_edge - (q.pre_size + q.size)),
      { pool with right_edge := pool.right_edge - (q.pre_size + q.size) }, ?_, ?_⟩
    · rw [if_neg hfits, htake]
      rfl
    · have haddr : pool.curr_buf + (pool.right_edge - (q.pre_size + q.size)) + q.pre_size = pool.curr_buf + (pool.right_edge - q.size) := by omega
      rw [haddr]
      exact .right hfull halign (by omega)

variable (malloc) in
/-- What a valid request gets, unless `malloc` fails. -/
theorem malloc_prefixed_served (hp : pool.Edged) (hq : q.Valid) :
    (∃ addr pool', gu_malloc_prefixed malloc pool q.pre_align q.pre_size q.align q.size = .ok (addr, pool') ∧ Served malloc pool q addr pool') ∨
      (gu_malloc_prefixed malloc pool q.pre_align q.pre_size q.align q.size = Exec.fatal ∧ NoBlock malloc pool q) := by
  have hpre := hq.pre_align.cases
  have halign := hq.align.cases
  have hge := hq.le_offset chunkHeader
  have hlt := hq.full_lt
  have hfull : q.full = q.offset chunkHeader + q.size := rfl
  unfold gu_malloc_prefixed
  dsimp only
  rw [if_neg (by omega : ¬ q.pre_align = 0), if_neg (by omega : ¬ q.align = 0), hq.advance_eq (by decide) hq.full_lt, Exec.ok_bind,
    show q.offset chunkHeader + q.size = q.full from rfl]
  by_cases hlarge : q.full > gu_mem_max_shared_alloc
  · have hsub : (q.full + sizeMod - q.size) % sizeMod = q.offset chunkHeader :=
      sub_size hlt
    rw [if_pos hlarge]
    unfold gu_mem_alloc
    cases hm : malloc pool.used q.full with
    | none => exact .inr ⟨rfl, .own hlarge hm⟩
    | some chunk =>
      refine .inl ⟨_, _, ?_, .own hlarge hm⟩
      simp only [Exec.ok_bind, hsub, Exec.pure_eq]
      rfl
  rw [if_neg hlarge]
  by_cases hone : q.pre_align = 1 ∧ q.align = 1
  · rw [if_pos hone, Nat.mod_eq_of_lt (by omega : q.pre_size + q.size < sizeMod)]
    rcases malloc_unaligned_served hp hq (by omega) hone with ⟨addr, pool', hr, hs⟩ | ⟨hr, href⟩
    · exact .inl ⟨_, _, by rw [hr]; rfl, hs⟩
    · exact .inr ⟨by rw [hr]; rfl, href⟩
  · rw [if_neg hone]
    exact malloc_aligned_served hp hq (by omega) hone

/-- A request whose size wraps does not pass the assertions. -/
theorem malloc_prefixed_wraps (hp : pool.Edged) (hpre : Alignment q.pre_align) (halign : Alignment q.align) (hps : q.pre_size ≤ 8)
    (hone : q.pre_align = 1 → q.pre_size = 0) (hs : q.size < sizeMod) (hwrap : sizeMod ≤ q.full) (r : Nat × GuPoolState) :
    gu_malloc_prefixed malloc pool q.pre_align q.pre_size q.align q.size ≠ .ok r := by
  have hlt := Request.offset_lt chunkHeader hpre halign
  have hprec := hpre.cases
  have halignc := halign.cases
  have hfull : q.full = q.offset chunkHeader + q.size := rfl
  have hmod : q.full % sizeMod = q.full - sizeMod := by
    rw [Nat.mod_eq_sub_mod hwrap, Nat.mod_eq_of_lt (by unfold chunkHeader sizeMod at *; omega)]
  have hbig : 2 ^ 32 < q.size := by
    unfold chunkHeader sizeMod at *
    omega
  intro h
  unfold gu_malloc_prefixed at h
  dsimp only at h
  rw [if_neg (by omega : ¬ q.pre_align = 0), if_neg (by omega : ¬ q.align = 0), Request.advance_mod hpre halign (by omega) (by decide),
    Exec.ok_bind, show q.offset chunkHeader + q.size = q.full from rfl, hmod,
    if_neg (by unfold gu_mem_max_shared_alloc chunkHeader at *; omega)] at h
  by_cases hal : q.pre_align = 1 ∧ q.align = 1
  · -- the size is more than what a new chunk has
    rw [if_pos hal, hone hal.1, Nat.zero_add, Nat.mod_eq_of_lt hs] at h
    obtain ⟨⟨buf, pool₁⟩, hrun, -⟩ := Exec.bind_ok.1 h
    have hedges := hp
    obtain ⟨hhead, hl, hr, hcurr⟩ := hedges
    unfold edgeMod at hcurr
    unfold gu_pool_malloc_unaligned at hrun
    rw [avail_eq hp, if_pos (by omega)] at hrun
    have hreq : (chunkHeader + q.size) % sizeMod ≤ gu_mem_chunk_max_size := by
      have hoff : q.offset chunkHeader < chunkHeader + 32 := by
        have := hone hal.1
        omega
      by_cases hfits : chunkHeader + q.size < sizeMod
      · exfalso
        have h8 : q.offset chunkHeader = chunkHeader := by
          unfold Request.offset
          rw [hal.1, hal.2, hone hal.1]
          rfl
        omega
      · rw [Nat.mod_eq_sub_mod (by omega), Nat.mod_eq_of_lt (by unfold chunkHeader sizeMod at *; omega)]
        unfold chunkHeader gu_mem_chunk_max_size at *
        omega
    obtain ⟨size, -, hlo, hedge, -, hexp⟩ := expand_spec malloc hp hreq
    rw [hexp] at hrun
    obtain ⟨pool₂, hnew, hrun⟩ := Exec.bind_ok.1 hrun
    cases hm : malloc pool.used size with
    | none =>
      rw [hm] at hnew
      exact Exec.fatal_ne_ok _ hnew
    | some chunk =>
      rw [hm] at hnew
      obtain rfl := Except.ok.inj hnew
      obtain ⟨_, hreq, -⟩ := Exec.bind_ok.1 hrun
      have hroom := Exec.require_ok.1 hreq
      rw [avail_eq (renewed_edged _ _ hlo hedge)] at hroom
      have hroom' : q.size ≤ size - chunkHeader := hroom
      unfold edgeMod at hedge
      omega
  · rw [if_neg hal] at h
    unfold gu_pool_malloc_aligned at h
    obtain ⟨_, hreq, -⟩ := Exec.bind_ok.1 h
    have hsmall := Exec.require_ok.1 hreq
    unfold gu_mem_max_shared_alloc at hsmall
    omega

end

/-! ## The invariant -/

namespace Extent

instance : Std.Symm Apart := ⟨fun _ _ h => h.symm⟩

theorem Apart.mono {r s r' s' : Extent} (h : r.Apart s) (hr : r.start ≤ r'.start ∧ r'.stop ≤ r.stop)
    (hs : s.start ≤ s'.start ∧ s'.stop ≤ s.stop) : r'.Apart s' := by
  unfold Apart at *
  omega

end Extent

namespace GuPoolState
variable {malloc : Malloc} {pool pool' : GuPoolState} {regions : List Extent} {q : Request}

/-- A block that the pool hands out memory from, and the size of its header: a chunk, or the buffer that the pool is in. -/
def Part (pool : GuPoolState) (b : Extent) (header : Nat) : Prop :=
  b ∈ pool.used ∧ (b.start = pool.addr ∧ header = poolHeader ∨ b.start ∈ pool.chunks ∧ header = chunkHeader)

/-- The region is in the data of a part of the pool, in what the edges of the current chunk have passed. -/
def Home (pool : GuPoolState) (r : Extent) : Prop :=
  ∃ b header, pool.Part b header ∧ b.start + header ≤ r.start ∧ r.start ≤ r.stop ∧ r.stop ≤ b.stop ∧
    (b.start = pool.curr_buf → r.stop ≤ pool.curr_buf + pool.left_edge ∨ pool.curr_buf + pool.right_edge ≤ r.start)

/-- A pool that has handed out `regions`. -/
structure Wf (pool : GuPoolState) (regions : List Extent) : Prop extends pool.Edged where
  used_apart : pool.used.Pairwise Extent.Apart
  self : ∃ stop, pool.addr + poolHeader ≤ stop ∧ ⟨pool.addr, stop⟩ ∈ pool.used
  chunk_blocks : ∀ c ∈ pool.chunks, ∃ stop, c + chunkHeader ≤ stop ∧ ⟨c, stop⟩ ∈ pool.used
  self_not_chunk : pool.addr ∉ pool.chunks
  curr : ∃ header, pool.Part ⟨pool.curr_buf, pool.curr_buf + pool.curr_size⟩ header ∧ header ≤ pool.left_edge
  curr_aligned : 16 ∣ pool.curr_buf
  curr_fits : pool.curr_buf + pool.curr_size < sizeMod
  regions_apart : regions.Pairwise Extent.Apart
  homes : ∀ r ∈ regions, pool.Home r

/-- Blocks that start at the current chunk are the current chunk. -/
theorem Wf.apart_curr (hw : pool.Wf regions) {b : Extent} (hb : b ∈ pool.used) (hne : b.start ≠ pool.curr_buf) :
    b.Apart ⟨pool.curr_buf, pool.curr_buf + pool.curr_size⟩ := by
  obtain ⟨header, hcurr, -⟩ := hw.curr
  apply hw.used_apart.forall hb hcurr.1
  rintro rfl
  exact hne rfl

/-- A region between the edges is apart from all others. -/
theorem Wf.between (hw : pool.Wf regions) {r : Extent} (hlo : pool.curr_buf + pool.left_edge ≤ r.start)
    (hhi : r.stop ≤ pool.curr_buf + pool.right_edge) : ∀ s ∈ regions, r.Apart s := by
  intro s hs
  obtain ⟨b, header, hb, hlo', hs', hhi', hedge⟩ := hw.homes s hs
  have hright := hw.right_le
  by_cases hcurr : b.start = pool.curr_buf
  · have := hedge hcurr
    unfold Extent.Apart
    omega
  · have hap := (hw.apart_curr hb.1 hcurr).symm
    refine hap.mono ⟨?_, ?_⟩ ⟨?_, hhi'⟩
    · show pool.curr_buf ≤ r.start
      omega
    · show r.stop ≤ pool.curr_buf + pool.curr_size
      omega
    · omega

/-- The edges move over the new region. -/
theorem Wf.narrow (hw : pool.Wf regions) {start stop l right : Nat} (hleft : pool.left_edge ≤ l) (hlr : l ≤ right)
    (hright : right ≤ pool.right_edge) (hr : start ≤ stop) (hlo : pool.curr_buf + pool.left_edge ≤ start)
    (hhi : stop ≤ pool.curr_buf + pool.right_edge) (hedge : stop ≤ pool.curr_buf + l ∨ pool.curr_buf + right ≤ start) :
    { pool with left_edge := l, right_edge := right }.Wf (⟨start, stop⟩ :: regions) where
  header_le := Nat.le_trans hw.header_le hleft
  left_le := hlr
  right_le := Nat.le_trans hright hw.right_le
  size_lt := hw.size_lt
  used_apart := hw.used_apart
  self := hw.self
  chunk_blocks := hw.chunk_blocks
  self_not_chunk := hw.self_not_chunk
  curr := by
    obtain ⟨header, hp, hle⟩ := hw.curr
    exact ⟨header, hp, Nat.le_trans hle hleft⟩
  curr_aligned := hw.curr_aligned
  curr_fits := hw.curr_fits
  regions_apart := List.pairwise_cons.2 ⟨hw.between hlo hhi, hw.regions_apart⟩
  homes s hs := by
    rcases List.mem_cons.1 hs with rfl | hs
    · obtain ⟨header, hp, hle⟩ := hw.curr
      have hsize := hw.right_le
      refine ⟨_, header, hp, ?_, hr, ?_, fun _ => hedge⟩
      · show pool.curr_buf + header ≤ start
        omega
      · show stop ≤ pool.curr_buf + pool.curr_size
        omega
    · obtain ⟨b, header, hb, hlo', hs', hhi', hold⟩ := hw.homes s hs
      refine ⟨b, header, hb, hlo', hs', hhi', fun hcurr => ?_⟩
      show s.stop ≤ pool.curr_buf + l ∨ pool.curr_buf + right ≤ s.start
      have := hold hcurr
      omega

theorem part_withChunk {chunk size header : Nat} {b : Extent} (hb : pool.Part b header) : (pool.withChunk chunk size).Part b header :=
  ⟨List.mem_cons_of_mem _ hb.1, hb.2.imp_right fun h => ⟨List.mem_cons_of_mem _ h.1, h.2⟩⟩

theorem part_new (pool : GuPoolState) (chunk size : Nat) : (pool.withChunk chunk size).Part ⟨chunk, chunk + size⟩ chunkHeader :=
  ⟨List.mem_cons_self, .inr ⟨List.mem_cons_self, rfl⟩⟩

/-- A region in a new block is apart from those in the old ones. -/
theorem Wf.apart_new (hw : pool.Wf regions) (hm : malloc.Sound) {chunk size : Nat} (hc : malloc pool.used size = some chunk) {r : Extent}
    (hlo : chunk ≤ r.start) (hhi : r.stop ≤ chunk + size) : ∀ s ∈ regions, r.Apart s := by
  intro s hs
  obtain ⟨b, header, hb, hlo', hs', hhi', -⟩ := hw.homes s hs
  refine (hm.apart hc b hb.1).mono ⟨hlo, hhi⟩ ⟨?_, hhi'⟩
  omega

/-- A new block does not start where the pool is. -/
theorem Wf.new_ne_self (hw : pool.Wf regions) (hm : malloc.Sound) {chunk size : Nat} (hc : malloc pool.used size = some chunk) (h0 : 0 < size) :
    pool.addr ∉ chunk :: pool.chunks := by
  obtain ⟨stop, hlt, hmem⟩ := hw.self
  have hap := hm.apart hc _ hmem
  unfold Extent.Apart at hap
  unfold poolHeader at hlt
  simp only at hap
  rw [List.mem_cons]
  rintro (heq | hin)
  · omega
  · exact hw.self_not_chunk hin

theorem Wf.blocks_new (hw : pool.Wf regions) {chunk size : Nat} (hsize : chunkHeader ≤ size) :
    ∀ c ∈ chunk :: pool.chunks, ∃ stop, c + chunkHeader ≤ stop ∧ (⟨c, stop⟩ : Extent) ∈ (⟨chunk, chunk + size⟩ : Extent) :: pool.used := by
  intro c hc
  rcases List.mem_cons.1 hc with rfl | hc
  · exact ⟨c + size, by omega, List.mem_cons_self⟩
  · obtain ⟨stop, hle, hmem⟩ := hw.chunk_blocks c hc
    exact ⟨stop, hle, List.mem_cons_of_mem _ hmem⟩

/-- A block of its own for one object. -/
theorem Wf.withChunk (hw : pool.Wf regions) (hm : malloc.Sound) {chunk size start stop : Nat} (hc : malloc pool.used size = some chunk)
    (hlo : chunk + chunkHeader ≤ start) (hr : start ≤ stop) (hhi : stop ≤ chunk + size) :
    (pool.withChunk chunk size).Wf (⟨start, stop⟩ :: regions) where
  toEdged := ⟨hw.header_le, hw.left_le, hw.right_le, hw.size_lt⟩
  used_apart := List.pairwise_cons.2 ⟨hm.apart hc, hw.used_apart⟩
  self := hw.self.imp fun _ h => ⟨h.1, List.mem_cons_of_mem _ h.2⟩
  chunk_blocks := hw.blocks_new (by omega)
  self_not_chunk := hw.new_ne_self hm hc (by unfold chunkHeader at hlo; omega)
  curr := by
    obtain ⟨header, hp, hle⟩ := hw.curr
    exact ⟨header, part_withChunk hp, hle⟩
  curr_aligned := hw.curr_aligned
  curr_fits := hw.curr_fits
  regions_apart := List.pairwise_cons.2 ⟨hw.apart_new hm hc (Nat.le_trans (Nat.le_add_right _ _) hlo) hhi, hw.regions_apart⟩
  homes s hs := by
    rcases List.mem_cons.1 hs with rfl | hs
    · refine ⟨_, chunkHeader, part_new pool chunk size, hlo, hr, hhi, ?_⟩
      -- the new block is not the current chunk
      intro hcurr
      obtain ⟨header, hp, -⟩ := hw.curr
      have hap := hm.apart hc _ hp.1
      have hhead := hw.header_le
      have hl := hw.left_le
      have hri := hw.right_le
      have hstart : chunk = pool.curr_buf := hcurr
      unfold Extent.Apart at hap
      unfold chunkHeader at *
      exfalso
      simp only at hap
      omega
    · obtain ⟨b, header, hb, hlo', hs', hhi', hold⟩ := hw.homes s hs
      exact ⟨b, header, part_withChunk hb, hlo', hs', hhi', hold⟩

/-- A new current chunk. -/
theorem Wf.renewed (hw : pool.Wf regions) (hm : malloc.Sound) {chunk size : Nat} (hc : malloc pool.used size = some chunk)
    (hlo : chunkHeader ≤ size) (hhi : size < edgeMod) : (pool.renewed chunk size).Wf regions where
  toEdged := renewed_edged _ _ hlo hhi
  used_apart := List.pairwise_cons.2 ⟨hm.apart hc, hw.used_apart⟩
  self := hw.self.imp fun _ h => ⟨h.1, List.mem_cons_of_mem _ h.2⟩
  chunk_blocks := hw.blocks_new (by omega)
  self_not_chunk := hw.new_ne_self hm hc (by unfold chunkHeader at hlo; omega)
  curr := ⟨chunkHeader, part_new pool chunk size, Nat.le_refl _⟩
  curr_aligned := hm.aligned hc
  curr_fits := hm.fits hc
  regions_apart := hw.regions_apart
  homes s hs := by
    obtain ⟨b, header, hb, hlo', hs', hhi', -⟩ := hw.homes s hs
    refine ⟨b, header, part_withChunk hb, hlo', hs', hhi', fun hcurr => ?_⟩
    -- an old block does not start where the new one does
    have hap := hm.apart hc b hb.1
    have hstart : b.start = chunk := hcurr
    have hhead : 0 < header := by
      rcases hb.2 with ⟨-, rfl⟩ | ⟨-, rfl⟩
      · decide
      · decide
    unfold Extent.Apart at hap
    unfold chunkHeader at hlo
    simp only at hap
    omega

end GuPoolState

/-- A request and the address that it got. -/
structure Grant where
  request : Request
  addr : Nat

/-- The memory of a grant: the prefix and the object. -/
def Grant.extent (g : Grant) : Extent := ⟨g.addr - g.request.pre_size, g.addr + g.request.size⟩

/-- The address of the object and of its prefix are as requested. -/
structure Grant.Aligned (g : Grant) : Prop where
  pre_size_le : g.request.pre_size ≤ g.addr
  align : g.request.align ∣ g.addr
  pre_align : g.request.pre_align ∣ g.addr - g.request.pre_size

namespace GuPoolState
variable {malloc : Malloc} {pool pool' : GuPoolState} {regions : List Extent} {q : Request} {addr : Nat}

theorem Alignment.dvd_add {a base offset : Nat} (ha : Alignment a) (hb : 16 ∣ base) (ho : a ∣ offset) : a ∣ base + offset := by
  refine Nat.dvd_add (Nat.dvd_trans ?_ hb) ho
  rcases ha.cases with rfl | rfl | rfl | rfl | rfl <;> decide

/-- An offset in an aligned block, as `Request.offset` computes it. -/
theorem aligned_at {base old : Nat} (hq : q.Valid) (hb : 16 ∣ base) : Grant.Aligned ⟨q, base + q.offset old⟩ where
  pre_size_le := by
    have := hq.le_offset old
    show q.pre_size ≤ base + q.offset old
    omega
  align := Alignment.dvd_add hq.align hb hq.offset_dvd
  pre_align := by
    have hle := hq.le_offset old
    have hsub : base + q.offset old - q.pre_size = base + (q.offset old - q.pre_size) := by omega
    show q.pre_align ∣ base + q.offset old - q.pre_size
    rw [hsub]
    exact Alignment.dvd_add hq.pre_align hb hq.prefix_dvd

theorem aligned_one {addr : Nat} (hone : q.pre_align = 1 ∧ q.align = 1) (hle : q.pre_size ≤ addr) : Grant.Aligned ⟨q, addr⟩ where
  pre_size_le := hle
  align := hone.2 ▸ Nat.one_dvd _
  pre_align := hone.1 ▸ Nat.one_dvd _

/-- Each case hands out new memory of the pool. -/
theorem Wf.served (hw : pool.Wf regions) (hm : malloc.Sound) (hq : q.Valid) (hs : Served malloc pool q addr pool') :
    pool'.Wf ((⟨q, addr⟩ : Grant).extent :: regions) ∧ Grant.Aligned ⟨q, addr⟩ := by
  show pool'.Wf (⟨addr - q.pre_size, addr + q.size⟩ :: regions) ∧ _
  have hlo := hq.le_offset chunkHeader
  have hhead := hw.header_le
  have hleft := hw.left_le
  cases hs with
  | @own chunk hfull hc =>
    have hend : q.full = q.offset chunkHeader + q.size := rfl
    exact ⟨hw.withChunk hm hc (by omega) (by omega) (by omega), aligned_at hq (hm.aligned hc)⟩
  | left hfull hne hfits =>
    have hlo' := hq.le_offset pool.left_edge
    exact ⟨hw.narrow (by omega) hfits (Nat.le_refl _) (by omega) (by omega) (by omega) (.inl (by omega)), aligned_at hq hw.curr_aligned⟩
  | @left_new chunk size hfull hne hfits hc hge hedge hmod =>
    have hend : q.full = q.offset chunkHeader + q.size := rfl
    have hnew := hw.renewed hm hc (by omega) hedge
    refine ⟨hnew.narrow (l := q.full) ?_ hge (Nat.le_refl _) (by omega) ?_ ?_ (.inl ?_), aligned_at hq (hm.aligned hc)⟩
    · show chunkHeader ≤ q.full
      omega
    · show chunk + chunkHeader ≤ chunk + q.offset chunkHeader - q.pre_size
      omega
    · show chunk + q.offset chunkHeader + q.size ≤ chunk + size
      omega
    · show chunk + q.offset chunkHeader + q.size ≤ chunk + q.full
      omega
  | right hfull hone hfits =>
    have hright : pool.left_edge ≤ pool.right_edge - (q.pre_size + q.size) := by omega
    exact ⟨hw.narrow (Nat.le_refl _) hright (Nat.sub_le _ _) (by omega) (by omega) (by omega) (.inr (by omega)),
      aligned_one hone (by omega)⟩
  | @right_new chunk size hfull hone hfits hc hge hedge hmod =>
    have hnew := hw.renewed hm hc (by omega) hedge
    have hright : chunkHeader ≤ size - (q.pre_size + q.size) := by omega
    refine ⟨hnew.narrow (l := chunkHeader) (Nat.le_refl _) hright (Nat.sub_le _ _) (by omega) ?_ ?_ (.inr ?_),
      aligned_one hone (by omega)⟩
    · show chunk + chunkHeader ≤ chunk + (size - q.size) - q.pre_size
      omega
    · show chunk + (size - q.size) + q.size ≤ chunk + size
      omega
    · show chunk + (size - (q.pre_size + q.size)) ≤ chunk + (size - q.size) - q.pre_size
      omega

/-- Where a request is served, and that this is an address. -/
theorem Wf.served_bounds (hw : pool.Wf regions) (hm : malloc.Sound) (hq : q.Valid) (hs : Served malloc pool q addr pool') :
    chunkHeader + q.pre_size ≤ addr ∧ addr + q.size < sizeMod := by
  have hlo := hq.le_offset chunkHeader
  have hhead := hw.header_le
  have hright := hw.right_le
  have hfits := hw.curr_fits
  have hend : q.full = q.offset chunkHeader + q.size := rfl
  cases hs with
  | own hfull hc =>
    have := hm.fits hc
    omega
  | left hfull hne hroom =>
    have := hq.le_offset pool.left_edge
    omega
  | left_new hfull hne hroom hc hge hedge hmod =>
    have := hm.fits hc
    omega
  | right hfull hone hroom => omega
  | right_new hfull hone hroom hc hge hedge hmod =>
    have := hm.fits hc
    omega

/-- What is in use in a home is apart from what else is in use. -/
theorem Wf.apart_block (hw : pool.Wf regions) {r : Extent} (hr : r ∈ regions) {start stop header : Nat} (hmem : ⟨start, stop⟩ ∈ pool.used)
    (hle : start + header ≤ stop) (hpart : ∀ header', pool.Part ⟨start, stop⟩ header' → header ≤ header') :
    r.Apart ⟨start, start + header⟩ := by
  obtain ⟨b, header', hb, hlo, hr', hhi, -⟩ := hw.homes r hr
  by_cases heq : b = ⟨start, stop⟩
  · subst heq
    have := hpart header' hb
    refine .inr ?_
    show start + header ≤ r.start
    have hstart : start + header' ≤ r.start := hlo
    omega
  · have hap := hw.used_apart.forall hb.1 hmem heq
    exact hap.mono ⟨by omega, hhi⟩ ⟨Nat.le_refl _, hle⟩

/-- The headers of the pool and its chunks are apart from all regions. -/
theorem Wf.apart_headers (hw : pool.Wf regions) {r : Extent} (hr : r ∈ regions) :
    r.Apart ⟨pool.addr, pool.addr + poolHeader⟩ ∧ ∀ c ∈ pool.chunks, r.Apart ⟨c, c + chunkHeader⟩ := by
  constructor
  · obtain ⟨stop, hle, hmem⟩ := hw.self
    refine hw.apart_block hr hmem hle ?_
    rintro header' ⟨-, ⟨-, rfl⟩ | ⟨hin, -⟩⟩
    · exact Nat.le_refl _
    · exact absurd hin hw.self_not_chunk
  · intro c hc
    obtain ⟨stop, hle, hmem⟩ := hw.chunk_blocks c hc
    refine hw.apart_block hr hmem hle ?_
    rintro header' ⟨-, ⟨-, rfl⟩ | ⟨-, rfl⟩⟩
    · decide
    · exact Nat.le_refl _

/-! ## New pools -/

theorem init_wf {used : List Extent} {sz : Nat} (hap : used.Pairwise Extent.Apart) (hmem : ⟨addr, addr + sz⟩ ∈ used) (h16 : 16 ∣ addr)
    (hsz : sz < edgeMod) (hfits : addr + sz < sizeMod) (h : gu_init_pool used addr sz = .ok pool) : pool.Wf [] := by
  unfold gu_init_pool at h
  obtain ⟨_, -, h⟩ := Exec.bind_ok.1 h
  obtain ⟨_, hreq, h⟩ := Exec.bind_ok.1 h
  have hge := Exec.require_ok.1 hreq
  rw [Nat.mod_eq_of_lt hsz] at h
  obtain rfl := Except.ok.inj h
  exact {
    header_le := by show chunkHeader ≤ poolHeader; decide
    left_le := hge
    right_le := Nat.le_refl _
    size_lt := hsz
    used_apart := hap
    self := ⟨addr + sz, Nat.add_le_add_left hge addr, hmem⟩
    chunk_blocks := fun c hc => absurd hc List.not_mem_nil
    self_not_chunk := List.not_mem_nil
    curr := ⟨poolHeader, ⟨hmem, .inl ⟨rfl, rfl⟩⟩, Nat.le_refl _⟩
    curr_aligned := h16
    curr_fits := hfits
    regions_apart := List.Pairwise.nil
    homes := fun r hr => absurd hr List.not_mem_nil }

/-- A pool that was just made. -/
inductive Fresh (malloc : Malloc) : GuPoolState → Prop where
  | heap {used : List Extent} {pool : GuPoolState} : used.Pairwise Extent.Apart → gu_new_pool malloc used = .ok pool → Fresh malloc pool
  /-- The buffer is an array of the type with the largest alignment. -/
  | stack {used : List Extent} {addr : Nat} {pool : GuPoolState} : used.Pairwise Extent.Apart → ⟨addr, addr + localPoolSize⟩ ∈ used →
      gu_max_align ∣ addr → addr + localPoolSize < sizeMod → gu_local_pool used addr = .ok pool → Fresh malloc pool

theorem Fresh.wf (hm : malloc.Sound) (hp : Fresh malloc pool) : pool.Wf [] := by
  cases hp with
  | heap hap h =>
    unfold gu_new_pool gu_mem_buf_slice gu_mem_alloc at h
    rename_i used
    have hsize : gu_mem_buf_size (max poolHeader (poolHeader + gu_mem_pool_initial_size)) = .ok 248 := by decide +kernel
    rw [hsize, Exec.ok_bind] at h
    cases hc : malloc used 248 with
    | none =>
      rw [hc] at h
      exact absurd h (Exec.fatal_ne_ok pool)
    | some addr =>
      rw [hc] at h
      exact init_wf (List.pairwise_cons.2 ⟨hm.apart hc, hap⟩) List.mem_cons_self (hm.aligned hc) (by decide) (hm.fits hc) h
  | stack hap hmem halign hfits h => exact init_wf hap hmem halign (by decide) hfits h

/-! ## Sequences of requests -/

/-- Serves a request; the grants are in reverse order. -/
def serve (malloc : Malloc) (s : GuPoolState × List Grant) (q : Request) : Exec (GuPoolState × List Grant) := do
  let (addr, pool) ← gu_malloc_prefixed malloc s.1 q.pre_align q.pre_size q.align q.size
  return (pool, ⟨q, addr⟩ :: s.2)

/-- What a pool is to have handed out for the requests `qs`. -/
structure HandedOut (pool : GuPoolState) (qs : List Request) (grants : List Grant) : Prop where
  requests : grants.map Grant.request = qs.reverse
  apart : (grants.map Grant.extent).Pairwise Extent.Apart
  aligned : ∀ g ∈ grants, g.Aligned
  inside : ∀ g ∈ grants, ∃ b header, pool.Part b header ∧ b.start + header ≤ g.extent.start ∧ g.extent.stop ≤ b.stop
  headers : ∀ g ∈ grants, g.extent.Apart ⟨pool.addr, pool.addr + poolHeader⟩ ∧ ∀ c ∈ pool.chunks, g.extent.Apart ⟨c, c + chunkHeader⟩
  /-- The size that the pool has for its current chunk is the size of the block. -/
  size_kept : ∃ header, pool.Part ⟨pool.curr_buf, pool.curr_buf + pool.curr_size⟩ header

/-- The requests before one for which `malloc` returns no block are served. -/
def StopsAt (malloc : Malloc) (pool : GuPoolState) (grants : List Grant) (qs : List Request) : Prop :=
  ∃ served q rest pool' grants', qs = served ++ q :: rest ∧ forEach (serve malloc) served (pool, grants) = .ok (pool', grants') ∧
    NoBlock malloc pool' q

theorem serve_all (hm : malloc.Sound) {qs : List Request} (hqs : ∀ q ∈ qs, q.Valid) {grants : List Grant}
    (hw : pool.Wf (grants.map Grant.extent)) (hal : ∀ g ∈ grants, g.Aligned) :
    (∃ pool' grants', forEach (serve malloc) qs (pool, grants) = .ok (pool', grants') ∧ pool'.Wf (grants'.map Grant.extent) ∧
        (∀ g ∈ grants', g.Aligned) ∧ grants'.map Grant.request = qs.reverse ++ grants.map Grant.request) ∨
      (forEach (serve malloc) qs (pool, grants) = Exec.fatal ∧ StopsAt malloc pool grants qs) := by
  induction qs generalizing pool grants with
  | nil => exact .inl ⟨pool, grants, rfl, hw, hal, rfl⟩
  | cons q qs ih =>
    have hq := hqs q List.mem_cons_self
    rcases malloc_prefixed_served malloc hw.toEdged hq with ⟨addr, pool₁, hr, hs⟩ | ⟨hr, href⟩
    · obtain ⟨hw₁, hal₁⟩ := hw.served hm hq hs
      have hserve : serve malloc (pool, grants) q = .ok (pool₁, ⟨q, addr⟩ :: grants) := by
        unfold serve
        rw [hr]
        rfl
      rw [forEach_cons, hserve, Exec.ok_bind]
      have hw₂ : pool₁.Wf ((⟨q, addr⟩ :: grants : List Grant).map Grant.extent) := hw₁
      rcases ih (fun q hq => hqs q (List.mem_cons_of_mem _ hq)) hw₂ (List.forall_mem_cons.2 ⟨hal₁, hal⟩) with
        ⟨pool', grants', hrun, hw', hal', hreq⟩ | ⟨hstop, served, q', rest, pool', grants', rfl, hrun, href⟩
      · refine .inl ⟨pool', grants', hrun, hw', hal', ?_⟩
        rw [hreq, List.map_cons, List.reverse_cons, List.append_assoc]
        rfl
      · refine .inr ⟨hstop, q :: served, q', rest, pool', grants', rfl, ?_, href⟩
        rw [forEach_cons, hserve]
        exact hrun
    · refine .inr ⟨?_, [], q, qs, pool, grants, rfl, rfl, href⟩
      rw [forEach_cons]
      unfold serve
      rw [hr]
      rfl

theorem Fresh.serve_all (hm : malloc.Sound) (hp : Fresh malloc pool) {qs : List Request} (hqs : ∀ q ∈ qs, q.Valid) :
    (∃ pool' grants, forEach (serve malloc) qs (pool, []) = .ok (pool', grants) ∧ pool'.Wf (grants.map Grant.extent) ∧
        (∀ g ∈ grants, g.Aligned) ∧ grants.map Grant.request = qs.reverse) ∨
      (forEach (serve malloc) qs (pool, []) = Exec.fatal ∧ StopsAt malloc pool [] qs) := by
  have hw : pool.Wf (([] : List Grant).map Grant.extent) := hp.wf hm
  rcases GuPoolState.serve_all hm hqs hw (fun g hg => absurd hg List.not_mem_nil) with ⟨pool', grants, hrun, hw', hal, hreq⟩ | hstop
  · rw [List.map_nil, List.append_nil] at hreq
    exact .inl ⟨pool', grants, hrun, hw', hal, hreq⟩
  · exact .inr hstop

/-- What a new pool has handed out after any requests that it served. -/
theorem Fresh.handed_out (hm : malloc.Sound) (hp : Fresh malloc pool) {qs : List Request} (hqs : ∀ q ∈ qs, q.Valid) {pool' : GuPoolState}
    {grants : List Grant} (hrun : forEach (serve malloc) qs (pool, []) = .ok (pool', grants)) : pool'.HandedOut qs grants := by
  rcases hp.serve_all hm hqs with ⟨pool₁, grants₁, hrun₁, hw, hal, hreq⟩ | ⟨hfatal, -⟩
  · rw [hrun] at hrun₁
    cases hrun₁
    exact {
      requests := hreq
      apart := hw.regions_apart
      aligned := hal
      inside := fun g hg => by
        obtain ⟨b, header, hb, hlo, -, hhi, -⟩ := hw.homes _ (List.mem_map_of_mem hg)
        exact ⟨b, header, hb, hlo, hhi⟩
      headers := fun g hg => hw.apart_headers (List.mem_map_of_mem hg)
      size_kept := by
        obtain ⟨header, hpart, -⟩ := hw.curr
        exact ⟨header, hpart⟩ }
  · rw [hrun] at hfatal
    cases hfatal

end GuPoolState

/-- A new pool serves any sequence of requests, or those before one for which `malloc` returns no block. -/
theorem pool_allocations {malloc : Malloc} (hm : malloc.Sound) {pool : GuPoolState} (hp : GuPoolState.Fresh malloc pool) {qs : List Request}
    (hqs : ∀ q ∈ qs, q.Allowed) :
    (∃ pool' grants, forEach (GuPoolState.serve malloc) qs (pool, []) = .ok (pool', grants) ∧ pool'.HandedOut qs grants) ∨
      (forEach (GuPoolState.serve malloc) qs (pool, []) = Exec.fatal ∧
        ∃ served q rest pool' grants, qs = served ++ q :: rest ∧ forEach (GuPoolState.serve malloc) served (pool, []) = .ok (pool', grants) ∧
          pool'.HandedOut served grants ∧ NoBlock malloc pool' q) := by
  rcases hp.serve_all hm (fun q hq => (hqs q hq).valid) with
    ⟨pool', grants, hrun, -⟩ | ⟨hfatal, served, q, rest, pool', grants, rfl, hrun, href⟩
  · exact .inl ⟨pool', grants, hrun, hp.handed_out hm (fun q hq => (hqs q hq).valid) hrun⟩
  · refine .inr ⟨hfatal, served, q, rest, pool', grants, rfl, hrun, ?_, href⟩
    exact hp.handed_out hm (fun q hq => (hqs q (List.mem_append_left _ hq)).valid) hrun

/-- A `malloc` that takes memory behind all that is in use. -/
def mallocBehind : Malloc := fun used size =>
  let addr := ((used.map Extent.stop).foldr max 0 / 16 + 1) * 16
  if addr + size < sizeMod then some addr else none

theorem mallocBehind_sound : mallocBehind.Sound := by
  have hspec : ∀ {used size addr}, mallocBehind used size = some addr →
      addr = ((used.map Extent.stop).foldr max 0 / 16 + 1) * 16 ∧ addr + size < sizeMod := by
    intro used size addr h
    unfold mallocBehind at h
    dsimp only at h
    split at h
    · cases h
      exact ⟨rfl, ‹_›⟩
    · cases h
  refine ⟨?_, ?_, ?_⟩
  · intro used size addr h
    rw [(hspec h).1]
    exact Nat.dvd_mul_left _ _
  · intro used size addr h b hb
    have hle : b.stop ≤ (used.map Extent.stop).foldr max 0 := by
      have hmem := List.mem_map_of_mem (f := Extent.stop) hb
      generalize used.map Extent.stop = stops at hmem
      induction stops with
      | nil => cases hmem
      | cons x xs ih =>
        rw [List.foldr_cons]
        rcases List.mem_cons.1 hmem with heq | hin
        · omega
        · have := ih hin
          omega
    have haddr := (hspec h).1
    refine .inr ?_
    show b.stop ≤ addr
    omega
  · intro used size addr h
    exact (hspec h).2

/-- A word with a prefix, three bytes, and a large object, in a pool on the stack. -/
theorem pool_allocations_three :
    ∃ pool' grants, forEach (GuPoolState.serve mallocBehind) [⟨8, 8, 16, 100⟩, ⟨1, 0, 1, 3⟩, ⟨8, 8, 1, 1000⟩]
      (⟨16, 16, [], 32, 128, 128, [⟨16, 144⟩]⟩, []) = .ok (pool', grants) ∧
      pool'.HandedOut [⟨8, 8, 16, 100⟩, ⟨1, 0, 1, 3⟩, ⟨8, 8, 1, 1000⟩] grants := by
  have hmem : (⟨16, 16 + localPoolSize⟩ : Extent) ∈ [⟨16, 144⟩] := List.mem_cons_self
  have hall : ∀ q ∈ [(⟨8, 8, 16, 100⟩ : Request), ⟨1, 0, 1, 3⟩, ⟨8, 8, 1, 1000⟩], q.Allowed := by
    intro q hq
    simp only [List.mem_cons, List.not_mem_nil, or_false] at hq
    rcases hq with rfl | rfl | rfl
    · exact ⟨⟨3, by decide, rfl⟩, ⟨4, by decide, rfl⟩, by decide, by decide, by decide⟩
    · exact ⟨⟨0, by decide, rfl⟩, ⟨0, by decide, rfl⟩, by decide, by decide, by decide⟩
    · exact ⟨⟨3, by decide, rfl⟩, ⟨0, by decide, rfl⟩, by decide, by decide, by decide⟩
  have hserved : (forEach (GuPoolState.serve mallocBehind) [⟨8, 8, 16, 100⟩, ⟨1, 0, 1, 3⟩, ⟨8, 8, 1, 1000⟩]
      (⟨16, 16, [], 32, 128, 128, [⟨16, 144⟩]⟩, [])).isOk = true := by decide +kernel
  have hfresh : GuPoolState.Fresh mallocBehind ⟨16, 16, [], 32, 128, 128, [⟨16, 144⟩]⟩ :=
    .stack (List.pairwise_singleton _ _) hmem (by decide) (by decide) rfl
  rcases pool_allocations mallocBehind_sound hfresh hall with hrun | ⟨hfatal, -⟩
  · exact hrun
  · rw [hfatal] at hserved
    cases hserved

/-- The states that a pool can get to. -/
def GuPoolState.Reached (malloc : Malloc) (pool : GuPoolState) : Prop :=
  ∃ new qs grants, GuPoolState.Fresh malloc new ∧ (∀ q ∈ qs, q.Valid) ∧ forEach (GuPoolState.serve malloc) qs (new, []) = .ok (pool, grants)

theorem GuPoolState.Reached.wf {malloc : Malloc} {pool : GuPoolState} (hm : malloc.Sound) (hp : pool.Reached malloc) : ∃ regions, pool.Wf regions := by
  obtain ⟨new, qs, grants, hnew, hqs, hrun⟩ := hp
  rcases hnew.serve_all hm hqs with ⟨pool', grants', hrun', hw, -, -⟩ | ⟨hfatal, -⟩
  · rw [hrun] at hrun'
    cases hrun'
    exact ⟨_, hw⟩
  · rw [hrun] at hfatal
    cases hfatal

end Libpgf
