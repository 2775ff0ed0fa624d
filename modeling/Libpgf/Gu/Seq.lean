import Libpgf.Gu.Bits
/-!
# Sequences (`gu/seq.h`, `gu/seq.c`)

A `GuSeq` is a word: a pointer to the elements, with the length of a short
sequence in its low bits. The length of a long one is in the word before the
elements. A pointer to a `GuBuf` is a sequence as well: the word before the
buffer has its lowest bit set.

Memory is a function from addresses to the words that begin there. What the
elements are does not matter here.
-/

namespace Libpgf

structure SeqHeap where
  pool : GuPoolState
  words : Nat → Nat
  /-- Where `gu_empty_seq_[1]` is. -/
  empty_seq : Nat

abbrev GuSeq := Nat

/-- `GU_TAG_MAX` -/
def gu_tag_max : Nat := 7

def gu_tagged_tag (t : Nat) : Nat := t &&& 7

def gu_tagged_ptr (w : Nat) : Exec Nat := gu_align_backward w 8

def gu_tagged (ptr tag : Nat) : Exec Nat := do
  Exec.require (tag < 8)
  let u ← gu_align_backward ptr 8
  Exec.require (u = ptr)
  return ptr ||| tag

namespace SeqHeap

/-- The word at `addr`, which is not null. -/
def load (h : SeqHeap) (addr : Nat) : Exec Nat := do
  Exec.require (0 < addr)
  return h.words addr

def store (h : SeqHeap) (addr w : Nat) : SeqHeap := { h with words := fun a => if a = addr then w else h.words a }

/-- `p[-1]` -/
def loadBefore (h : SeqHeap) (p : Nat) : Exec Nat := do
  Exec.require (8 < p)
  h.load (p - 8)

section
variable (malloc : Malloc) (h : SeqHeap)

def gu_seq_length (seq : GuSeq) : Exec Nat := do
  let tag := gu_tagged_tag seq
  if tag = 0 then
    let p ← gu_tagged_ptr seq
    let w ← h.loadBefore p
    return w >>> 1
  return tag

def gu_seq_data (seq : GuSeq) : Exec Nat := do
  let tag := gu_tagged_tag seq
  let ptr ← gu_tagged_ptr seq
  if tag = 0 then
    let w ← h.loadBefore ptr
    if w &&& 1 ≠ 0 then h.load ptr else return ptr
  else return ptr

def gu_seq_is_null (seq : GuSeq) : Exec Bool := do
  let ptr ← gu_tagged_ptr seq
  return ptr = 0

def gu_seq_is_buf (seq : GuSeq) : Exec Bool := do
  if gu_tagged_tag seq ≠ 0 then return false
  let w ← h.loadBefore seq
  return w &&& 1 = 1

def gu_empty_seq : Exec GuSeq := gu_tagged h.empty_seq 0

def gu_make_seq (elem_size length : Nat) : Exec (GuSeq × SeqHeap) := do
  let size := elem_size * length % sizeMod
  if 0 < length ∧ length ≤ gu_tag_max then
    let (buf, pool) ← gu_malloc malloc h.pool size
    let seq ← gu_tagged buf length
    return (seq, { h with pool })
  else if size = 0 then
    let seq ← gu_empty_seq h
    return (seq, h)
  else
    let (buf, pool) ← gu_malloc_prefixed malloc h.pool 8 8 0 size
    let seq ← gu_tagged buf 0
    return (seq, { h with pool }.store (buf - 8) (length <<< 1 % sizeMod))

/-- Copies the words that begin in `n` bytes. -/
def memcpy (dest src n : Nat) : SeqHeap :=
  { h with words := fun a => if dest ≤ a ∧ a < dest + n then h.words (src + (a - dest)) else h.words a }

def gu_seq_copy (seq : GuSeq) (elem_size : Nat) : Exec (GuSeq × SeqHeap) := do
  let length ← gu_seq_length h seq
  let (copy, h) ← gu_make_seq malloc h elem_size length
  let src ← gu_seq_data h seq
  let dest ← gu_seq_data h copy
  return (copy, memcpy h dest src (elem_size * length % sizeMod))

/-! ## Buffers

A `GuBuf` has the fields `data`, `elem_size` and `avail_len`, in this order. -/

def gu_buf_seq (buf : Nat) : GuSeq := buf

def gu_buf_length (buf : Nat) : Nat := h.words (buf - 8) >>> 1

def gu_buf_data (buf : Nat) : Nat := h.words buf

def gu_buf_elem_size (buf : Nat) : Nat := h.words (buf + 8)

def gu_buf_avail (buf : Nat) : Nat := h.words (buf + 16)

def gu_buf_set_length (buf new_len : Nat) : SeqHeap := h.store (buf - 8) (new_len <<< 1 % sizeMod ||| 1)

/-- `sizeof(GuBuf)` -/
def bufStruct : Nat := 32

/-- `sizeof(GuFinalizerNode)` -/
def finalizerNode : Nat := 16

/-- The last allocation is for the buffer's finalizer. -/
def gu_make_buf (elem_size : Nat) : Exec (Nat × SeqHeap) := do
  let (buf, pool) ← gu_malloc_prefixed malloc h.pool 8 8 8 bufStruct
  let h := gu_buf_set_length { h with pool } buf 0
  let h := ((h.store (buf + 8) elem_size).store buf 0).store (buf + 16) 0
  let (_, pool) ← gu_malloc_aligned malloc h.pool finalizerNode 8
  return (buf, gu_buf_set_length { h with pool } buf 0)

def gu_buf_require (buf req_len : Nat) : Exec SeqHeap := do
  if req_len ≤ gu_buf_avail h buf then return h
  let elem_size := gu_buf_elem_size h buf
  Exec.require (elem_size ≠ 0)
  let (data, sz, used) ← gu_mem_buf_slice malloc h.pool.used (elem_size * req_len % sizeMod)
  return (({ h with pool := { h.pool with used } }).store buf data).store (buf + 16) (sz / elem_size)

/-- Where element `i` of a buffer is. -/
def bufElem (buf i : Nat) : Nat := (gu_buf_data h buf + gu_buf_elem_size h buf * i) % sizeMod

def gu_buf_extend_n (buf n_elems : Nat) : Exec (Nat × SeqHeap) := do
  let len := gu_buf_length h buf
  let new_len := (len + n_elems) % sizeMod
  let h ← gu_buf_require malloc h buf new_len
  let h := gu_buf_set_length h buf new_len
  return (bufElem h buf len, h)

def gu_buf_trim_n (buf n_elems : Nat) : Exec (Nat × SeqHeap) := do
  Exec.require (n_elems ≤ gu_buf_length h buf)
  let new_len := gu_buf_length h buf - n_elems
  let h := gu_buf_set_length h buf new_len
  return (bufElem h buf new_len, h)

def gu_buf_freeze (buf : Nat) : Exec (GuSeq × SeqHeap) := do
  let len := gu_buf_length h buf
  let (seq, h') ← gu_make_seq malloc h (gu_buf_elem_size h buf) len
  let bufdata := gu_buf_data h' buf
  let seqdata ← gu_seq_data h' seq
  return (seq, memcpy h' seqdata bufdata (gu_buf_elem_size h' buf * len % sizeMod))

end

/-- The operations that change a buffer's length: extending covers pushes, trimming covers pops. -/
inductive BufOp where
  | extend (n_elems : Nat)
  | trim (n_elems : Nat)

def BufOp.run (malloc : Malloc) (buf : Nat) (h : SeqHeap) : BufOp → Exec SeqHeap
  | .extend n => do
    let (_, h) ← gu_buf_extend_n malloc h buf n
    return h
  | .trim n => do
    let (_, h) ← gu_buf_trim_n h buf n
    return h

end SeqHeap

end Libpgf
