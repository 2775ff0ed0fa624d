import Libpgf.Gu.Out
/-!
# UTF-8 (`gu/utf8.c`, `gu/utf8.h`)

A code point is a natural number: the code never has a negative one in hand.
The slices from `src` to `src_end` are lists: a read beyond `src_end` is an
abort, and so is a write beyond `dst_end`.
-/

namespace Libpgf

abbrev GuUCS := Nat

def GU_UCS_MAX : GuUCS := 0x10FFFF

def gu_ucs_valid (ucs : GuUCS) : Bool := ucs ≤ GU_UCS_MAX

/-! ## Decoding -/

/-- `u << 6 | (c & 0x3f)` for each of `src[1]`, ..., `src[len]`. -/
def gu_utf8_assemble (src : Bytes) (len : Nat) (u : GuUCS) : Exec GuUCS :=
  forEach (fun u i => do
    let c ← Exec.deref src[i]?
    return u <<< 6 ||| (c.toNat &&& 0x3f)) (List.range' 1 len) u

/-- How many bytes come after the first byte `c`. -/
def gu_utf8_len (c : UInt8) : Nat := if c < 0xe0 then 1 else if c < 0xf0 then 2 else 3

/-- What the first byte `c` of `len + 1` contributes. -/
def gu_utf8_mask (c : UInt8) (len : Nat) : GuUCS := c.toNat &&& (0x070f1f7f >>> (len * 8))

/-- The size of the sequence at `src`, and its code point. -/
def gu_utf8_decode_one_unsafe (src : Bytes) : Exec (Nat × GuUCS) := do
  let c ← Exec.deref src[0]?
  if c < 0x80 then return (1, c.toNat)
  let len := gu_utf8_len c
  let u ← gu_utf8_assemble src len (gu_utf8_mask c len)
  return (len + 1, u)

/-- `*dst` is what it was when the decoding fails. -/
def gu_utf8_decode_one (src : Bytes) (dst : GuUCS) (err : GuExn) : Exec (Nat × GuUCS × GuExn) := do
  let c ← Exec.deref src[0]?
  if c < 0x80 then return (1, c.toNat, err)
  else if c < 0xc2 ∨ c > 0xf4 then return (0, dst, gu_raise err .GuUCSExn)
  let len := gu_utf8_len c
  let u ← gu_utf8_assemble src len (gu_utf8_mask c len)
  if !gu_ucs_valid u then return (0, dst, gu_raise err .GuUCSExn)
  return (len + 1, u, err)

/-- The inner loop of `gu_utf8_decode_unsafe`: decodes `sz` sequences. -/
def gu_utf8_decode_some : Nat → Bytes → Exec (List GuUCS × Bytes)
  | 0, src => .ok ([], src)
  | sz + 1, src => do
    let (len, u) ← gu_utf8_decode_one_unsafe src
    let (us, src) ← gu_utf8_decode_some sz (src.drop len)
    return (u :: us, src)

/-- The outer loop, with a bound on its rounds. -/
def gu_utf8_decode_loop : Nat → Bytes → Nat → Exec (List GuUCS × Bytes)
  | n, src, dst_rem =>
    let sz := min ((src.length + 3) / 4) dst_rem
    if sz = 0 then .ok ([], src)
    else match n with
      | 0 => Exec.hang
      | n + 1 => do
        let (us, src) ← gu_utf8_decode_some sz src
        let (us', src) ← gu_utf8_decode_loop n src (dst_rem - sz)
        return (us ++ us', src)

/-- The code points put at `dst`, where `dst_rem` fit, and what is left of `src`. -/
def gu_utf8_decode_unsafe (src : Bytes) (dst_rem : Nat) : Exec (List GuUCS × Bytes) := gu_utf8_decode_loop dst_rem src dst_rem

/-! ## Encoding -/

def gu_utf8_encode_length (ucs : GuUCS) : Nat := if ucs < 0x80 then 1 else if ucs < 0x800 then 2 else if ucs < 0x10000 then 3 else 4

/-- The loop from `buf[n]` down to `buf[1]`: what is left of `ucs`, and the bytes in front of `buf`. -/
def gu_utf8_encode_tail : Nat → GuUCS → Bytes → GuUCS × Bytes
  | 0, ucs, buf => (ucs, buf)
  | n + 1, ucs, buf => gu_utf8_encode_tail n (ucs >>> 6) ((0x80 ||| UInt8.ofNat (ucs &&& 0x3f)) :: buf)

def gu_utf8_encode_one_unsafe (ucs : GuUCS) : Exec Bytes := do
  Exec.require (gu_ucs_valid ucs)
  if ucs < 0x80 then return [UInt8.ofNat ucs]
  let n := if ucs < 0x800 then 1 else if ucs < 0x10000 then 2 else 3
  let (ucs, buf) := gu_utf8_encode_tail n ucs []
  return (UInt8.ofNat ucs ||| ~~~((0x7f : UInt8) >>> UInt8.ofNat n)) :: buf

/-- The inner loop of `gu_utf8_encode`. -/
def gu_utf8_encode_some : List GuUCS → Exec Bytes
  | [] => .ok []
  | ucs :: src => do
    let buf ← gu_utf8_encode_one_unsafe ucs
    let dst ← gu_utf8_encode_some src
    return buf ++ dst

/-- The first loop, with a bound on its rounds: while a quarter of what is free at `dst` is not nothing. -/
def gu_utf8_encode_bulk : Nat → List GuUCS → Nat → Exec (Bytes × List GuUCS × Nat)
  | rounds, src, dst_rem =>
    let n := min src.length (dst_rem / 4)
    if n = 0 then .ok ([], src, dst_rem)
    else match rounds with
      | 0 => Exec.hang
      | rounds + 1 => do
        let dst ← gu_utf8_encode_some (src.take n)
        Exec.require (dst.length ≤ dst_rem)
        let (dst', src, dst_rem) ← gu_utf8_encode_bulk rounds (src.drop n) (dst_rem - dst.length)
        return (dst ++ dst', src, dst_rem)

/-- The second loop: one at a time, as long as the next one fits. -/
def gu_utf8_encode_rest : List GuUCS → Nat → Exec (Bytes × List GuUCS)
  | [], _ => .ok ([], [])
  | ucs :: src, dst_rem =>
    if dst_rem = 0 then .ok ([], ucs :: src)
    else
      let len := gu_utf8_encode_length ucs
      if len > dst_rem then .ok ([], ucs :: src)
      else do
        let buf ← gu_utf8_encode_one_unsafe ucs
        let (dst, src) ← gu_utf8_encode_rest src (dst_rem - len)
        return (buf ++ dst, src)

/-- The bytes put at `dst`, where `dst_rem` fit, and what is left of `src`. -/
def gu_utf8_encode (src : List GuUCS) (dst_rem : Nat) : Exec (Bytes × List GuUCS) := do
  let (dst, src, dst_rem) ← gu_utf8_encode_bulk src.length src dst_rem
  let (dst', src) ← gu_utf8_encode_rest src dst_rem
  return (dst ++ dst', src)

/-! ## Reading from a stream -/

namespace GuIn
variable {σ : Type} (S : GuInStreamFuns σ)

def gu_in_utf8_ (in_ : GuIn σ) (err : GuExn) : Exec (GuUCS × GuIn σ × GuExn) := do
  let (c, in_, err) ← in_.gu_in_u8 S err
  if !gu_ok err then return (0, in_, err)
  let len := if c < 0xc0 then 0 else gu_utf8_len c
  let (got, in_, err) ← in_.gu_in_some S len len err
  if got.length < len then
    -- the end of the stream within a sequence is an error of encoding
    return (0, in_, if gu_ok err then gu_raise err .GuUCSExn else err)
  let (_, ret, err) ← gu_utf8_decode_one (c :: got) 0 err
  return (ret, in_, err)

def gu_in_utf8 (in_ : GuIn σ) (err : GuExn) : Exec (GuUCS × GuIn σ × GuExn) := do
  let i ← in_.gu_in_peek_u8
  match i with
  | some c =>
    if c < 0x80 then
      let in_ ← in_.gu_in_consume 1
      return (c.toNat, in_, err)
    gu_in_utf8_ S in_ err
  | none => gu_in_utf8_ S in_ err

end GuIn

/-! ## Writing to a stream -/

namespace GuOut
variable {σ : Type} (S : GuOutStreamFuns σ)

def gu_out_utf8_long_ (out : GuOut σ) (ucs : GuUCS) (err : GuExn) : Exec (GuOut σ × GuExn) := do
  let (span, out, err) ← out.gu_out_begin_span S ⟨none, 4⟩ err
  if !gu_ok err then return (out, err)
  let buf ← gu_utf8_encode_one_unsafe ucs
  Exec.require (buf.length ≤ span.sz)
  out.gu_out_end_span S span.p buf err

def gu_out_utf8 (out : GuOut σ) (ucs : GuUCS) (err : GuExn) : Exec (GuOut σ × GuExn) := do
  Exec.require (gu_ucs_valid ucs)
  if ucs < 0x80 then out.gu_out_u8 S (UInt8.ofNat ucs) err
  else gu_out_utf8_long_ S out ucs err

/-- Up to `n` rounds of the loop of `gu_utf32_out_utf8`: what is left of `src`. -/
def gu_utf32_out_utf8_loop : Nat → List GuUCS → GuOut σ → GuExn → Exec (List GuUCS × GuOut σ × GuExn)
  | 0, src, out, err => .ok (src, out, err)
  | n + 1, src, out, err =>
    if src = [] then .ok (src, out, err)
    else do
      let (span, out, err) ← out.gu_out_begin_span S ⟨none, 4⟩ err
      if !gu_ok err then return (src, out, err)
      let (dst, src_tmp) ← gu_utf8_encode src span.sz
      let (out, err) ← out.gu_out_end_span S span.p dst err
      if !gu_ok err then return (src, out, err)
      gu_utf32_out_utf8_loop n src_tmp out err

/-- Every round but the last takes a code point at least. -/
def gu_utf32_out_utf8 (out : GuOut σ) (src : List GuUCS) (err : GuExn) : Exec (Nat × GuOut σ × GuExn) := do
  let (rest, out, err) ← gu_utf32_out_utf8_loop S src.length src out err
  if rest ≠ [] ∧ gu_ok err then Exec.hang
  else return (src.length - rest.length, out, err)

end GuOut

end Libpgf
