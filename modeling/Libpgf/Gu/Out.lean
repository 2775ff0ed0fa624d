import Libpgf.Gu.In
import Libpgf.Gu.Mem
/-!
# Output streams (`gu/out.c`, `gu/out.h`, `gu/seq.c`)

A `GuOut` writes to a stream: into a buffer that it borrows, or directly. The
streams here are a sink without a buffer, a growing `GuBuf`, a buffer over
another `GuOut`, and another `GuOut`.

A borrowed buffer is what has been written into it, and the address of its end:
when a span ends, `gu_out_end_span` tells by its address alone whether it was in
the buffer.
-/

namespace Libpgf

/-- Its address is `none` if it is null, or an array of the function that writes: such an array is deeper in the stack than
whatever has been lent, at the end of no buffer. -/
structure GuSlice where
  p : Option Nat
  sz : Nat
  deriving DecidableEq

def gu_null_slice : GuSlice := ⟨none, 0⟩

/-- `none` is a null pointer. What is written into a buffer is handed back with it. -/
structure GuOutStreamFuns (σ : Type) where
  begin_buf : Option (σ → Nat → GuExn → Exec (GuSlice × σ × GuExn))
  end_buf : Option (σ → Bytes → GuExn → Exec (σ × GuExn))
  output : Option (σ → Bytes → GuExn → Exec (Nat × σ × GuExn))
  flush : Option (σ → GuExn → Exec (σ × GuExn))

structure GuOut (σ : Type) where
  /-- The first `buf_size + buf_curr` bytes of the borrowed buffer. -/
  buf : Option Bytes
  /-- `-buf_curr`: how much of the buffer is free. -/
  left : Nat
  buf_end : Nat
  stream : σ

def gu_init_out {σ : Type} (stream : σ) : GuOut σ := ⟨none, 0, 0, stream⟩

namespace GuOut
variable {σ : Type}

def gu_out_is_buffering (out : GuOut σ) : Bool := out.buf.isSome

/-- `&out->buf_end[out->buf_curr]` -/
def curr (out : GuOut σ) : Nat := out.buf_end - out.left

/-- `memcpy(&out->buf_end[curr], src.p, src.sz)`, and `out->buf_curr = new_curr` -/
def put (out : GuOut σ) (src : Bytes) : GuOut σ := { out with buf := out.buf.map (· ++ src), left := out.left - src.length }

def gu_out_try_buf_ (out : GuOut σ) (src : Bytes) : Exec (Bool × GuOut σ) := do
  Exec.require (src.length ≤ PTRDIFF_MAX)
  if src.length > out.left then return (false, out)
  return (true, out.put src)

def gu_out_try_u8_ (out : GuOut σ) (u : UInt8) : Bool × GuOut σ := if out.left < 1 then (false, out) else (true, out.put [u])

section Ops
variable (S : GuOutStreamFuns σ)

def gu_out_end_buf (out : GuOut σ) (err : GuExn) : Exec (GuOut σ × GuExn) :=
  match out.buf with
  | none => .ok (out, err)
  | some written => do
    let end_buf ← Exec.deref S.end_buf
    let (stream, err) ← end_buf out.stream written err
    return (⟨none, 0, 0, stream⟩, err)

/-- The second half of `gu_out_begin_buf`: asks the stream for a buffer. -/
def gu_out_borrow (out : GuOut σ) (req : Nat) (err : GuExn) : Exec (Bool × GuOut σ × GuExn) :=
  match S.begin_buf with
  | none => .ok (false, out, err)
  | some begin_buf => do
    let (buf, stream, err) ← begin_buf out.stream req err
    Exec.require (buf.sz ≤ PTRDIFF_MAX)
    if buf.sz ≠ 0 then return (true, ⟨some [], buf.sz, buf.p.getD 0 + buf.sz, stream⟩, err)
    return (false, { out with stream }, err)

def gu_out_begin_buf (out : GuOut σ) (req : Nat) (err : GuExn) : Exec (Bool × GuOut σ × GuExn) :=
  if out.gu_out_is_buffering then
    if 0 < out.left then .ok (true, out, err)
    else do
      let (out, err) ← gu_out_end_buf S out err
      if !gu_ok err then return (false, out, err)
      gu_out_borrow S out req err
  else gu_out_borrow S out req err

def gu_out_output (out : GuOut σ) (src : Bytes) (err : GuExn) : Exec (Nat × GuOut σ × GuExn) := do
  let (out, err) ← gu_out_end_buf S out err
  if !gu_ok err then return (0, out, err)
  let output ← Exec.deref S.output
  let (sz, stream, err) ← output out.stream src err
  return (sz, { out with stream }, err)

/-- `gu_invoke_maybe` on `flush`. -/
def gu_out_flush_stream (out : GuOut σ) (err : GuExn) : Exec (GuOut σ × GuExn) :=
  match S.flush with
  | none => .ok (out, err)
  | some flush => do
    let (stream, err) ← flush out.stream err
    return ({ out with stream }, err)

def gu_out_flush (out : GuOut σ) (err : GuExn) : Exec (GuOut σ × GuExn) :=
  if out.gu_out_is_buffering then do
    let (out, err) ← gu_out_end_buf S out err
    if !gu_ok err then return (out, err)
    gu_out_flush_stream S out err
  else gu_out_flush_stream S out err

def gu_out_bytes_ (out : GuOut σ) (src : Bytes) (err : GuExn) : Exec (Nat × GuOut σ × GuExn) := do
  if !gu_ok err then return (0, out, err)
  let (done, out) ← out.gu_out_try_buf_ src
  if done then return (src.length, out, err)
  let (buffering, out, err) ← gu_out_begin_buf S out src.length err
  if buffering then
    let (done, out) ← out.gu_out_try_buf_ src
    if done then return (src.length, out, err)
    gu_out_output S out src err
  else if !gu_ok err then return (0, out, err)
  else gu_out_output S out src err

def gu_out_bytes (out : GuOut σ) (src : Bytes) (err : GuExn) : Exec (Nat × GuOut σ × GuExn) := do
  let (done, out) ← out.gu_out_try_buf_ src
  if done then return (src.length, out, err)
  gu_out_bytes_ S out src err

def gu_out_u8_ (out : GuOut σ) (u : UInt8) (err : GuExn) : Exec (GuOut σ × GuExn) := do
  let (buffering, out, err) ← gu_out_begin_buf S out 1 err
  if buffering && (out.gu_out_try_u8_ u).1 then return ((out.gu_out_try_u8_ u).2, err)
  if !buffering && !gu_ok err then return (out, err)
  let (_, out, err) ← gu_out_output S out [u] err
  return (out, err)

def gu_out_u8 (out : GuOut σ) (u : UInt8) (err : GuExn) : Exec (GuOut σ × GuExn) :=
  if (out.gu_out_try_u8_ u).1 then .ok ((out.gu_out_try_u8_ u).2, err)
  else gu_out_u8_ S out u err

/-- `gu_out_is_buffering(out) || gu_out_begin_buf(out, fallback.sz, err)` -/
def gu_out_span_buf (out : GuOut σ) (fallback : Nat) (err : GuExn) : Exec (Bool × GuOut σ × GuExn) :=
  if out.gu_out_is_buffering then .ok (true, out, err) else gu_out_begin_buf S out fallback err

def gu_out_begin_span (out : GuOut σ) (fallback : GuSlice) (err : GuExn) : Exec (GuSlice × GuOut σ × GuExn) := do
  let (buffering, out, err) ← gu_out_span_buf S out fallback.sz err
  if !buffering || decide (out.left < fallback.sz) then
    return (if gu_ok err then fallback else gu_null_slice, out, err)
  return (⟨some out.curr, out.left⟩, out, err)

/-- `span` is what has been written into the span at `p`. -/
def gu_out_end_span (out : GuOut σ) (p : Option Nat) (span : Bytes) (err : GuExn) : Exec (GuOut σ × GuExn) :=
  if out.gu_out_is_buffering && decide (p = some out.curr) then do
    Exec.require (span.length ≤ out.left)
    return (out.put span, err)
  else do
    let (_, out, err) ← gu_out_bytes_ S out span err
    return (out, err)

end Ops

end GuOut

/-! ## A sink without a buffer -/

def gu_sink_output (sink src : Bytes) (err : GuExn) : Exec (Nat × Bytes × GuExn) := .ok (src.length, sink ++ src, err)

def gu_sink_out_funs : GuOutStreamFuns Bytes where
  begin_buf := none
  end_buf := none
  output := some gu_sink_output
  flush := none

/-! ## A `GuBuf` of bytes -/

/-- Elements are bytes: `elem_size` is 1. -/
structure GuBuf where
  data : Bytes
  avail_len : Nat
  /-- Where the data is, for each `avail_len`: it moves when there is to be room for more. -/
  addr : Nat → Nat

def gu_make_buf (addr : Nat → Nat) : GuBuf := ⟨[], 0, addr⟩

def GuBuf.gu_buf_length (buf : GuBuf) : Nat := buf.data.length

def GuBuf.gu_buf_require (buf : GuBuf) (req_len : Nat) : Exec GuBuf :=
  if req_len ≤ buf.avail_len then .ok buf
  else do
    let size ← gu_mem_buf_size req_len
    return { buf with avail_len := size }

def GuBuf.gu_buf_push_n (buf : GuBuf) (data : Bytes) : Exec GuBuf := do
  let buf ← buf.gu_buf_require ((buf.gu_buf_length + data.length) % sizeMod)
  return { buf with data := buf.data ++ data }

def gu_buf_out_output (buf : GuBuf) (src : Bytes) (err : GuExn) : Exec (Nat × GuBuf × GuExn) := do
  let buf ← buf.gu_buf_push_n src
  return (src.length, buf, err)

def gu_buf_outbuf_begin (buf : GuBuf) (req : Nat) (err : GuExn) : Exec (GuSlice × GuBuf × GuExn) := do
  let buf ← buf.gu_buf_require ((buf.gu_buf_length + req) % sizeMod)
  Exec.require (buf.gu_buf_length ≤ buf.avail_len)
  return (⟨some (buf.addr buf.avail_len + buf.gu_buf_length), buf.avail_len - buf.gu_buf_length⟩, buf, err)

def gu_buf_outbuf_end (buf : GuBuf) (written : Bytes) (err : GuExn) : Exec (GuBuf × GuExn) := do
  -- the difference is that of two `size_t`, the wrong way round
  Exec.require (written.length < (buf.gu_buf_length + sizeMod - buf.avail_len) % sizeMod)
  return ({ buf with data := buf.data ++ written }, err)

def gu_buf_out_funs : GuOutStreamFuns GuBuf where
  begin_buf := some gu_buf_outbuf_begin
  end_buf := some gu_buf_outbuf_end
  output := some gu_buf_out_output
  flush := none

def gu_buf_out (buf : GuBuf) : GuOut GuBuf := gu_init_out buf

/-! ## Another `GuOut` -/

structure GuProxyOutStream (σ : Type) where
  /-- Where the span is that was lent. -/
  buf : Option Nat
  real_out : GuOut σ

section Proxy
variable {σ : Type} (S : GuOutStreamFuns σ)

def gu_proxy_out_buf_begin (pos : GuProxyOutStream σ) (_req : Nat) (err : GuExn) : Exec (GuSlice × GuProxyOutStream σ × GuExn) := do
  let (ret, real_out, err) ← pos.real_out.gu_out_begin_span S gu_null_slice err
  return (ret, ⟨ret.p, real_out⟩, err)

def gu_proxy_out_buf_end (pos : GuProxyOutStream σ) (written : Bytes) (err : GuExn) : Exec (GuProxyOutStream σ × GuExn) := do
  let (real_out, err) ← pos.real_out.gu_out_end_span S pos.buf written err
  return ({ pos with real_out }, err)

def gu_proxy_out_output (pos : GuProxyOutStream σ) (src : Bytes) (err : GuExn) : Exec (Nat × GuProxyOutStream σ × GuExn) := do
  let (sz, real_out, err) ← pos.real_out.gu_out_bytes S src err
  return (sz, { pos with real_out }, err)

def gu_proxy_out_flush (pos : GuProxyOutStream σ) (err : GuExn) : Exec (GuProxyOutStream σ × GuExn) := do
  let (real_out, err) ← pos.real_out.gu_out_flush S err
  return ({ pos with real_out }, err)

def gu_proxy_out_funs : GuOutStreamFuns (GuProxyOutStream σ) where
  begin_buf := some (gu_proxy_out_buf_begin S)
  end_buf := some (gu_proxy_out_buf_end S)
  output := some (gu_proxy_out_output S)
  flush := some (gu_proxy_out_flush S)

def gu_out_proxy_stream (out : GuOut σ) : GuProxyOutStream σ := ⟨none, out⟩

end Proxy

/-! ## A buffer over a `GuOut` -/

def GU_DEFAULT_BUFFER_SIZE : Nat := 4096

structure GuBufferedOutStream (σ : Type) where
  pstream : GuProxyOutStream σ
  sz : Nat
  /-- Where its buffer is. -/
  buf : Nat

section Buffered
variable {σ : Type} (S : GuOutStreamFuns σ)

def gu_buffered_out_buf_begin (b : GuBufferedOutStream σ) (_req : Nat) (err : GuExn) : Exec (GuSlice × GuBufferedOutStream σ × GuExn) :=
  .ok (⟨some b.buf, b.sz⟩, b, err)

def gu_buffered_out_buf_end (b : GuBufferedOutStream σ) (written : Bytes) (err : GuExn) : Exec (GuBufferedOutStream σ × GuExn) := do
  Exec.require (written.length ≤ b.sz)
  let (_, real_out, err) ← b.pstream.real_out.gu_out_bytes S written err
  return ({ b with pstream := { b.pstream with real_out } }, err)

def gu_buffered_out_output (b : GuBufferedOutStream σ) (src : Bytes) (err : GuExn) : Exec (Nat × GuBufferedOutStream σ × GuExn) := do
  let (sz, pstream, err) ← gu_proxy_out_output S b.pstream src err
  return (sz, { b with pstream }, err)

def gu_buffered_out_flush (b : GuBufferedOutStream σ) (err : GuExn) : Exec (GuBufferedOutStream σ × GuExn) := do
  let (pstream, err) ← gu_proxy_out_flush S b.pstream err
  return ({ b with pstream }, err)

def gu_buffered_out_funs : GuOutStreamFuns (GuBufferedOutStream σ) where
  begin_buf := some gu_buffered_out_buf_begin
  end_buf := some (gu_buffered_out_buf_end S)
  output := some (gu_buffered_out_output S)
  flush := some (gu_buffered_out_flush S)

/-- `buf` is where the pool has room for the buffer. -/
def gu_init_buffered_out (out : GuOut σ) (sz buf : Nat) : GuOut (GuBufferedOutStream σ) :=
  gu_init_out ⟨⟨none, out⟩, if sz = 0 then GU_DEFAULT_BUFFER_SIZE else sz, buf⟩

def gu_new_buffered_out (out : GuOut σ) (sz buf : Nat) : GuOut (GuBufferedOutStream σ) := gu_init_buffered_out out sz buf

end Buffered

end Libpgf
