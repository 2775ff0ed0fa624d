import Libpgf.Gu.Exn
/-!
# Input streams (`gu/in.c`, `gu/in.h`)

A stream is a state with a table of functions. A `GuIn` reads from a stream:
either from a buffer that it borrows, or directly. The streams here are a
slice of memory, a file, a buffer over another `GuIn`, and another `GuIn`.

A function that fills a slice returns the bytes that it puts there. Addresses
are left out: a borrowed buffer is its contents, which do not change while it is
borrowed.
-/

namespace Libpgf

abbrev Bytes := List UInt8

def PTRDIFF_MAX : Nat := 2 ^ 63 - 1

/-- `none` is a null pointer. -/
structure GuInStreamFuns (σ : Type) where
  begin_buffer : Option (σ → GuExn → Exec (Bytes × σ × GuExn))
  end_buffer : Option (σ → Nat → GuExn → Exec (σ × GuExn))
  input : Option (σ → Nat → GuExn → Exec (Bytes × σ × GuExn))

structure GuIn (σ : Type) where
  /-- The borrowed buffer, which ends at `buf_end`; its length is `buf_size`. -/
  buf : Option Bytes
  /-- `-buf_curr`: how much of the buffer is unread. -/
  left : Nat
  stream : σ
  stream_pos : Nat

def gu_init_in {σ : Type} (stream : σ) : GuIn σ := ⟨none, 0, stream, 0⟩

namespace GuIn
variable {σ : Type}

/-- From `&buf_end[buf_curr]` on. -/
def unread (in_ : GuIn σ) : Bytes := (in_.buf.getD []).drop ((in_.buf.getD []).length - in_.left)

def gu_in_tell (in_ : GuIn σ) : Nat := in_.stream_pos + (in_.buf.getD []).length - in_.left

def gu_in_is_buffering (in_ : GuIn σ) : Bool := in_.buf.isSome

section Ops
variable (S : GuInStreamFuns σ)

def gu_in_end_buffering (in_ : GuIn σ) (err : GuExn) : Exec (GuIn σ × GuExn) :=
  match in_.buf with
  | none => .ok (in_, err)
  | some buf => do
    let len := buf.length - in_.left
    let (stream, err) ← match S.end_buffer with
      | some end_buffer => end_buffer in_.stream len err
      | none => pure (in_.stream, err)
    return (⟨none, 0, stream, in_.stream_pos + len⟩, err)

/-- The second half of `gu_in_begin_buffering`: asks the stream for a buffer. -/
def gu_in_borrow (in_ : GuIn σ) (err : GuExn) : Exec (Bool × GuIn σ × GuExn) :=
  match S.begin_buffer with
  | none => .ok (false, in_, err)
  | some begin_buffer => do
    let (new_buf, stream, err) ← begin_buffer in_.stream err
    if gu_ok err && decide (0 < new_buf.length) then
      return (true, { in_ with buf := some new_buf, left := new_buf.length, stream }, err)
    return (false, { in_ with stream }, err)

def gu_in_begin_buffering (in_ : GuIn σ) (err : GuExn) : Exec (Bool × GuIn σ × GuExn) :=
  if in_.gu_in_is_buffering then
    if 0 < in_.left then .ok (true, in_, err)
    else do
      let (in_, err) ← gu_in_end_buffering S in_ err
      if !gu_ok err then return (false, in_, err)
      gu_in_borrow S in_ err
  else gu_in_borrow S in_ err

def gu_in_input (in_ : GuIn σ) (sz : Nat) (err : GuExn) : Exec (Bytes × GuIn σ × GuExn) :=
  if sz = 0 then .ok ([], in_, err)
  else do
    let (in_, err) ← gu_in_end_buffering S in_ err
    if !gu_ok err then return ([], in_, err)
    let (got, stream, err) ← match S.input with
      | some input => input in_.stream sz err
      | none => pure ([], in_.stream, err)
    return (got, { in_ with stream, stream_pos := in_.stream_pos + got.length }, err)

/-- `in->buf_curr += sz` -/
def advance (in_ : GuIn σ) (sz : Nat) : GuIn σ := { in_ with left := in_.left - sz }

/-- The `while` loop of `gu_in_some`, with a bound on its rounds. -/
def gu_in_some_loop (sz min_sz : Nat) : Nat → Bytes → GuIn σ → GuExn → Exec (Bytes × GuIn σ × GuExn)
  | n, got, in_, err =>
    if got.length < min_sz then
      match n with
      | 0 => Exec.hang
      | n + 1 => do
        let (igot, in_, err) ← gu_in_input S in_ (sz - got.length) err
        if igot.length = 0 then return (got, in_, err)
        gu_in_some_loop sz min_sz n (got ++ igot) in_ err
    else .ok (got, in_, err)

def gu_in_some (in_ : GuIn σ) (sz min_sz : Nat) (err : GuExn) : Exec (Bytes × GuIn σ × GuExn) := do
  Exec.require (min_sz ≤ sz)
  Exec.require (sz ≤ PTRDIFF_MAX)
  let (buffering, in_, err) ← gu_in_begin_buffering S in_ err
  if buffering then
    let got := min sz in_.left
    gu_in_some_loop S sz min_sz min_sz (in_.unread.take got) (in_.advance got) err
  else if !gu_ok err then return ([], in_, err)
  else gu_in_some_loop S sz min_sz min_sz [] in_ err

def gu_in_bytes_ (in_ : GuIn σ) (sz : Nat) (err : GuExn) : Exec (Bytes × GuIn σ × GuExn) := do
  let (got, in_, err) ← gu_in_some S in_ sz sz err
  if !gu_ok err then return (got, in_, err)
  return (got, in_, if got.length < sz then gu_raise err .GuEOF else err)

def gu_in_bytes (in_ : GuIn σ) (sz : Nat) (err : GuExn) : Exec (Bytes × GuIn σ × GuExn) := do
  Exec.require (sz < PTRDIFF_MAX)
  if sz > in_.left then gu_in_bytes_ S in_ sz err
  else return (in_.unread.take sz, in_.advance sz, err)

/-- A span, and whether it is in the buffer of the caller. -/
def gu_in_begin_span (in_ : GuIn σ) (req_sz : Nat) (err : GuExn) : Exec ((Bytes × Bool) × GuIn σ × GuExn) := do
  let (buffering, in_, err) ← gu_in_begin_buffering S in_ err
  if buffering then return ((in_.unread, false), in_, err)
  let (got, in_, err) ← gu_in_input S in_ req_sz err
  return ((got, true), in_, err)

def gu_in_end_span (in_ : GuIn σ) (consumed : Nat) : Exec (GuIn σ) :=
  if !in_.gu_in_is_buffering then .ok in_
  else do
    Exec.require (consumed ≤ in_.left)
    return in_.advance consumed

def gu_in_u8_ (in_ : GuIn σ) (err : GuExn) : Exec (UInt8 × GuIn σ × GuExn) := do
  let (buffering, in_, err) ← gu_in_begin_buffering S in_ err
  if buffering && decide (0 < in_.left) then
    let u ← Exec.deref in_.unread[0]?
    return (u, in_.advance 1, err)
  let (got, in_, err) ← gu_in_input S in_ 1 err
  match got with
  | [] => return (0, in_, if gu_ok err then gu_raise err .GuEOF else err)
  | u :: _ => return (u, in_, err)

def gu_in_u8 (in_ : GuIn σ) (err : GuExn) : Exec (UInt8 × GuIn σ × GuExn) :=
  if in_.left = 0 then gu_in_u8_ S in_ err
  else do
    let u ← Exec.deref in_.unread[0]?
    return (u, in_.advance 1, err)

end Ops

/-- `none` is -1. -/
def gu_in_peek_u8 (in_ : GuIn σ) : Exec (Option UInt8) :=
  if in_.left = 0 then .ok none
  else do
    let u ← Exec.deref in_.unread[0]?
    return some u

def gu_in_consume (in_ : GuIn σ) (sz : Nat) : Exec (GuIn σ) := do
  Exec.require (sz ≤ in_.left)
  return in_.advance sz

end GuIn

/-! ## A slice of memory -/

def gu_data_in_funs : GuInStreamFuns Bytes where
  begin_buffer := some fun data err => .ok (data, data, err)
  end_buffer := some fun data consumed err => .ok (data.drop consumed, err)
  input := none

def gu_data_in (data : Bytes) : GuIn Bytes := gu_init_in data

/-! ## A file -/

/-- `fread` takes at most as many bytes as the next chunk has, but one at least. -/
structure GuFileInStream where
  file : Bytes
  chunks : Nat → Nat

def gu_file_input (s : GuFileInStream) (sz : Nat) (err : GuExn) : Exec (Bytes × GuFileInStream × GuExn) :=
  let got := min sz (max 1 (s.chunks 0))
  .ok (s.file.take got, ⟨s.file.drop got, fun n => s.chunks (n + 1)⟩, err)

def gu_file_in_funs : GuInStreamFuns GuFileInStream where
  begin_buffer := none
  end_buffer := none
  input := some gu_file_input

def gu_file_in (file : Bytes) (chunks : Nat → Nat) : GuIn GuFileInStream := gu_init_in ⟨file, chunks⟩

/-! ## Another `GuIn` -/

section Proxy
variable {σ : Type} (S : GuInStreamFuns σ)

def gu_proxy_in_begin_buffer (real_in : GuIn σ) (err : GuExn) : Exec (Bytes × GuIn σ × GuExn) := do
  let (span, real_in, err) ← real_in.gu_in_begin_span S 0 err
  return (span.1, real_in, err)

def gu_proxy_in_end_buffer (real_in : GuIn σ) (sz : Nat) (err : GuExn) : Exec (GuIn σ × GuExn) := do
  let real_in ← real_in.gu_in_end_span sz
  return (real_in, err)

def gu_proxy_in_input (real_in : GuIn σ) (sz : Nat) (err : GuExn) : Exec (Bytes × GuIn σ × GuExn) := real_in.gu_in_some S sz 1 err

def gu_proxy_in_funs : GuInStreamFuns (GuIn σ) where
  begin_buffer := some (gu_proxy_in_begin_buffer S)
  end_buffer := some gu_proxy_in_end_buffer
  input := some (gu_proxy_in_input S)

def gu_in_proxy_stream (in_ : GuIn σ) : GuIn σ := in_

end Proxy

/-! ## A buffer over a `GuIn` -/

structure GuBufferedInStream (σ : Type) where
  alloc : Nat
  /-- The first `have` bytes of the buffer. -/
  buf : Bytes
  curr : Nat
  in_ : GuIn σ

section Buffered
variable {σ : Type} (S : GuInStreamFuns σ)

def gu_buffered_in_begin_buffer (bis : GuBufferedInStream σ) (err : GuExn) : Exec (Bytes × GuBufferedInStream σ × GuExn) :=
  if bis.curr = bis.buf.length then do
    let (got, in_, err) ← bis.in_.gu_in_some S bis.alloc 1 err
    return (if gu_ok err then got else [], { bis with buf := got, curr := 0, in_ }, err)
  else .ok (bis.buf.drop bis.curr, bis, err)

def gu_buffered_in_end_buffer (bis : GuBufferedInStream σ) (consumed : Nat) (err : GuExn) : Exec (GuBufferedInStream σ × GuExn) := do
  Exec.require (consumed ≤ bis.buf.length - bis.curr)
  return ({ bis with curr := bis.curr + consumed }, err)

def gu_buffered_in_input (bis : GuBufferedInStream σ) (sz : Nat) (err : GuExn) : Exec (Bytes × GuBufferedInStream σ × GuExn) := do
  let (got, in_, err) ← bis.in_.gu_in_some S sz 1 err
  return (got, { bis with in_ }, err)

def gu_buffered_in_funs : GuInStreamFuns (GuBufferedInStream σ) where
  begin_buffer := some (gu_buffered_in_begin_buffer S)
  end_buffer := some gu_buffered_in_end_buffer
  input := some (gu_buffered_in_input S)

def gu_new_buffered_in (in_ : GuIn σ) (buf_sz : Nat) : GuIn (GuBufferedInStream σ) := gu_init_in ⟨buf_sz, [], 0, in_⟩

end Buffered

end Libpgf
