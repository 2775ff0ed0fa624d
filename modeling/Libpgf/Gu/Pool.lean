import Libpgf.Gu.MemSizes
/-!
# Memory pools (`gu/mem.c`)

A pool hands out addresses in the blocks that it gets from `malloc`. A chunk is
filled from both ends: aligned objects grow up from `left_edge`, unaligned ones
grow down from `right_edge`. Large requests get a chunk of their own.

Sizes and addresses are `size_t`, modulo `2 ^ 64`; the edges are `uint16_t`.
-/

namespace Libpgf

/-- A piece of memory: the addresses from `start` up to `stop`. -/
structure Extent where
  start : Nat
  stop : Nat
  deriving DecidableEq, Repr

namespace Extent

/-- Two extents do not overlap. -/
def Apart (r s : Extent) : Prop := r.stop ≤ s.start ∨ s.stop ≤ r.start

theorem Apart.symm {r s : Extent} (h : r.Apart s) : s.Apart r := Or.symm h

end Extent

/-- `malloc`, given the memory in use: the address of a new block, or `NULL`. -/
abbrev Malloc := List Extent → Nat → Option Nat

/-- New blocks are aligned for every type, and are apart from the memory in use. -/
structure Malloc.Sound (malloc : Malloc) : Prop where
  aligned : ∀ {used size addr}, malloc used size = some addr → 16 ∣ addr
  apart : ∀ {used size addr}, malloc used size = some addr → ∀ b ∈ used, Extent.Apart ⟨addr, addr + size⟩ b
  fits : ∀ {used size addr}, malloc used size = some addr → addr + size < sizeMod

def edgeMod : Nat := 2 ^ 16

def gu_mem_chunk_max_size : Nat := 8192
def gu_mem_pool_initial_size : Nat := 192
def gu_mem_max_shared_alloc : Nat := 512

/-- `gu_alignof(GuMaxAlign)` -/
def gu_max_align : Nat := 16

/-- `sizeof(GuPoolState)`, and the offset of `init_buf`. -/
def poolHeader : Nat := 32

/-- `sizeof(GuMemChunk)`, and the offset of `data`. -/
def chunkHeader : Nat := 8

/-- `GU_LOCAL_POOL_INIT_SIZE_` -/
def localPoolSize : Nat := 128

/-- A pool, and the blocks of memory in use by it or by anything else. -/
structure GuPoolState where
  /-- Where the pool itself is. -/
  addr : Nat
  curr_buf : Nat
  chunks : List Nat
  left_edge : Nat
  right_edge : Nat
  curr_size : Nat
  used : List Extent
  deriving DecidableEq

/-! ## Alignment -/

/-- `unsigned` arithmetic, modulo `2 ^ 32`. -/
def gu_ceil2e (u : Nat) : Nat :=
  let u := (u + 2 ^ 32 - 1) % 2 ^ 32
  let u := u ||| u >>> 1
  let u := u ||| u >>> 2
  let u := u ||| u >>> 4
  let u := u ||| u >>> 8
  let u := u ||| u >>> 16
  (u + 1) % 2 ^ 32

def gu_align_forward (addr alignment : Nat) : Exec Nat := do
  Exec.require (alignment = gu_ceil2e (alignment % 2 ^ 32))
  let mask := (alignment + sizeMod - 1) % sizeMod
  return (addr + mask) % sizeMod &&& (sizeMax - mask)

def gu_align_backward (addr alignment : Nat) : Exec Nat := do
  Exec.require (alignment = gu_ceil2e (alignment % 2 ^ 32))
  return addr &&& (sizeMax - (alignment + sizeMod - 1) % sizeMod)

/-- One line of `gu_lowest_set_bit`. -/
def keepLow (u mask : Nat) : Nat := if u &&& mask ≠ 0 then u &&& mask else u

def gu_lowest_set_bit (u : Nat) : Nat :=
  let u := keepLow u 0x00000000ffffffff
  let u := keepLow u 0x0000ffff0000ffff
  let u := keepLow u 0x00ff00ff00ff00ff
  let u := keepLow u 0x0f0f0f0f0f0f0f0f
  let u := keepLow u 0x3333333333333333
  keepLow u 0x5555555555555555

def gu_mem_advance (old_pos pre_align pre_size align size : Nat) : Exec Nat := do
  let p ← gu_align_forward old_pos pre_align
  let p := (p + pre_size) % sizeMod
  let p ← gu_align_forward p align
  return (p + size) % sizeMod

/-! ## Pools -/

section
variable (malloc : Malloc)

/-- `gu_mem_alloc` and `gu_mem_realloc` of a new block. -/
def gu_mem_alloc (used : List Extent) (size : Nat) : Exec (Nat × List Extent) :=
  match malloc used size with
  | some addr => .ok (addr, ⟨addr, addr + size⟩ :: used)
  | none => Exec.fatal

/-- The slice that `gu_mem_buf_alloc` returns. -/
def gu_mem_buf_slice (used : List Extent) (min_size : Nat) : Exec (Nat × Nat × List Extent) := do
  let size ← gu_mem_buf_size min_size
  let (addr, used) ← gu_mem_alloc malloc used size
  return (addr, size, used)

/-- `gu_init_pool`: a pool in the buffer of `sz` bytes at `addr`. -/
def gu_init_pool (used : List Extent) (addr sz : Nat) : Exec GuPoolState := do
  Exec.require (addr % 8 = 0)
  Exec.require (sz ≥ poolHeader)
  return { addr, curr_buf := addr, chunks := [], left_edge := poolHeader, right_edge := sz % edgeMod,
           curr_size := sz % edgeMod, used }

/-- The buffer at `addr` is on the stack. -/
def gu_local_pool (used : List Extent) (addr : Nat) : Exec GuPoolState := gu_init_pool used addr localPoolSize

def gu_new_pool (used : List Extent) : Exec GuPoolState := do
  let (addr, sz, used) ← gu_mem_buf_slice malloc used (max poolHeader (poolHeader + gu_mem_pool_initial_size))
  gu_init_pool used addr sz

def gu_pool_expand (pool : GuPoolState) (req : Nat) : Exec GuPoolState := do
  let real_req := max req (min (pool.curr_size + 1) gu_mem_chunk_max_size)
  Exec.require (real_req ≥ chunkHeader)
  let (chunk, sz, used) ← gu_mem_buf_slice malloc pool.used real_req
  Exec.require (sz % edgeMod = sz)
  return { pool with curr_buf := chunk, chunks := chunk :: pool.chunks, left_edge := chunkHeader, right_edge := sz % edgeMod,
                     curr_size := sz % edgeMod, used }

def gu_pool_malloc_aligned (pool : GuPoolState) (pre_align pre_size align size : Nat) : Exec (Nat × GuPoolState) := do
  Exec.require (size ≤ gu_mem_max_shared_alloc)
  let pos ← gu_mem_advance pool.left_edge pre_align pre_size align size
  if pos > pool.right_edge then
    let pos ← gu_mem_advance chunkHeader pre_align pre_size align size
    let pool ← gu_pool_expand malloc pool pos
    Exec.require (pos ≤ pool.right_edge)
    return (pool.curr_buf + (pos + sizeMod - size) % sizeMod, { pool with left_edge := pos % edgeMod })
  return (pool.curr_buf + (pos + sizeMod - size) % sizeMod, { pool with left_edge := pos % edgeMod })

def gu_pool_avail (pool : GuPoolState) : Nat := (pool.right_edge + sizeMod - pool.left_edge) % sizeMod

/-- Takes `size` bytes from the right end. -/
def takeRight (pool : GuPoolState) (size : Nat) : Nat × GuPoolState :=
  let right_edge := (pool.right_edge + edgeMod - size % edgeMod) % edgeMod
  (pool.curr_buf + right_edge, { pool with right_edge })

def gu_pool_malloc_unaligned (pool : GuPoolState) (size : Nat) : Exec (Nat × GuPoolState) := do
  if size > gu_pool_avail pool then
    let pool ← gu_pool_expand malloc pool ((chunkHeader + size) % sizeMod)
    Exec.require (size ≤ gu_pool_avail pool)
    return takeRight pool size
  return takeRight pool size

def gu_malloc_prefixed (pool : GuPoolState) (pre_align pre_size align size : Nat) : Exec (Nat × GuPoolState) := do
  let pre_align := if pre_align = 0 then gu_max_align else pre_align
  let align := if align = 0 then gu_max_align else align
  let full_size ← gu_mem_advance chunkHeader pre_align pre_size align size
  if full_size > gu_mem_max_shared_alloc then
    let (chunk, used) ← gu_mem_alloc malloc pool.used full_size
    return (chunk + (full_size + sizeMod - size) % sizeMod, { pool with chunks := chunk :: pool.chunks, used })
  else if pre_align = 1 ∧ align = 1 then
    let (buf, pool) ← gu_pool_malloc_unaligned malloc pool ((pre_size + size) % sizeMod)
    return (buf + pre_size, pool)
  else gu_pool_malloc_aligned malloc pool pre_align pre_size align size

def gu_malloc_aligned (pool : GuPoolState) (size align : Nat) : Exec (Nat × GuPoolState) :=
  gu_malloc_prefixed malloc pool 1 0 (if align = 0 then min (gu_lowest_set_bit size) gu_max_align else align) size

def gu_malloc (pool : GuPoolState) (size : Nat) : Exec (Nat × GuPoolState) := gu_malloc_aligned malloc pool size 0

end

end Libpgf
