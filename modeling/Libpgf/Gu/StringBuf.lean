import Libpgf.Gu.OutCalm
import Libpgf.Gu.String
/-!
# String buffers (`gu/string.c`)

A string buffer is a UTF-8 writer over a buffer of bytes. What is written to it
is what the string has that it is frozen to, if that has fewer than 256 bytes.
-/

namespace Libpgf

/-! ## Any code point -/

/-- The bytes that a valid code point is written with. -/
def ucsBytes (ucs : GuUCS) : Bytes :=
  match gu_utf8_encode_one_unsafe ucs with
  | .ok bytes => bytes
  | .error _ => []

def ucsText (codes : List GuUCS) : Bytes := codes.flatMap ucsBytes

theorem encode_tail_length (n : Nat) (ucs : GuUCS) (buf : Bytes) : (gu_utf8_encode_tail n ucs buf).2.length = n + buf.length := by
  induction n generalizing ucs buf with
  | zero => exact (Nat.zero_add _).symm
  | succ n ih =>
    rw [gu_utf8_encode_tail, ih, List.length_cons]
    omega

theorem ucsBytes_ascii {ucs : GuUCS} (h : ucs < 0x80) : ucsBytes ucs = [UInt8.ofNat ucs] := by
  have hvalid : gu_ucs_valid ucs = true := decide_eq_true ((Nat.le_of_lt h).trans (by decide))
  unfold ucsBytes gu_utf8_encode_one_unsafe
  simp only [Exec.require, hvalid, if_true, Exec.ok_bind, h, Exec.pure_eq]

theorem encode_one_valid {ucs : GuUCS} (h : gu_ucs_valid ucs = true) :
    gu_utf8_encode_one_unsafe ucs = .ok (ucsBytes ucs) ∧ 1 ≤ (ucsBytes ucs).length ∧ (ucsBytes ucs).length ≤ 4 := by
  by_cases hlt : ucs < 0x80
  · rw [ucsBytes_ascii hlt]
    refine ⟨?_, Nat.le_refl 1, (by decide : 1 ≤ 4)⟩
    unfold gu_utf8_encode_one_unsafe
    simp only [Exec.require, h, if_true, Exec.ok_bind, hlt, Exec.pure_eq]
  · have hrun : gu_utf8_encode_one_unsafe ucs = .ok (ucsBytes ucs) ∧
        (ucsBytes ucs).length = (if ucs < 0x800 then 1 else if ucs < 0x10000 then 2 else 3) + 1 := by
      unfold ucsBytes gu_utf8_encode_one_unsafe
      simp only [Exec.require, h, if_true, Exec.ok_bind, hlt, if_false, Exec.pure_eq, List.length_cons,
        encode_tail_length, List.length_nil, Nat.add_zero, and_self]
    refine ⟨hrun.1, ?_, ?_⟩ <;> rw [hrun.2] <;> split_ifs <;> decide

theorem ucsBytes_char (c : Char) : ucsBytes c.toNat = String.utf8EncodeChar c := by
  unfold ucsBytes
  rw [encode_one_eq]

theorem ucsText_length {codes : List GuUCS} (h : ∀ u ∈ codes, gu_ucs_valid u = true) :
    codes.length ≤ (ucsText codes).length ∧ (ucsText codes).length ≤ 4 * codes.length := by
  induction codes with
  | nil => exact ⟨Nat.le_refl _, Nat.le_refl _⟩
  | cons u codes ih =>
    obtain ⟨-, hpos, hle⟩ := encode_one_valid (h u List.mem_cons_self)
    obtain ⟨ih₁, ih₂⟩ := ih fun u' hu' => h u' (List.mem_cons_of_mem _ hu')
    rw [show ucsText (u :: codes) = ucsBytes u ++ ucsText codes from rfl, List.length_append, List.length_cons]
    omega

theorem out_ucs_spec {σ : Type} {S : GuOutStreamFuns σ} {init : Bytes} {v : OutView (fun _ => True) init S} {out : GuOut σ} {ucs : GuUCS}
    {n : Nat} (hvalid : gu_ucs_valid ucs = true) (h : out.Ok v (8 + n)) :
    ∃ out', out.gu_out_utf8 S ucs none = .ok (out', none) ∧ out'.Ok v n ∧ out'.taken v = out.taken v ++ ucsBytes ucs := by
  unfold GuOut.gu_out_utf8
  simp only [Exec.require, hvalid, if_true, Exec.ok_bind]
  by_cases hlt : ucs < 0x80
  · rw [if_pos hlt, ucsBytes_ascii hlt]
    exact GuOut.u8_spec any_blocks (h.less (by omega)) trivial
  · obtain ⟨henc, -, hle⟩ := encode_one_valid hvalid
    obtain ⟨span, out₁, hbegin, hok, htaken, hsz, hspan⟩ := GuOut.begin_span_spec any_blocks ⟨none, 4⟩ h (by omega : 4 ≤ 8 + n)
    obtain ⟨out', hend, hok', htaken'⟩ := GuOut.end_span_spec any_blocks span.p (ucsBytes ucs) (hok.less (by omega : _ + n ≤ _))
      (hle.trans (by decide)) trivial (GuOut.not_overruns rfl hspan (hle.trans hsz))
    refine ⟨out', ?_, hok', by rw [htaken', htaken]⟩
    rw [if_neg hlt, GuOut.gu_out_utf8_long_, hbegin]
    simp only [Exec.ok_bind, gu_ok_none, Bool.not_true, Bool.false_eq_true, if_false, henc, Exec.require,
      hle.trans hsz, if_true, hend]

/-! ## Buffers -/

/-- The functions of the stream of a UTF-8 writer over a buffer. -/
def stringBufFuns : GuOutStreamFuns (GuProxyOutStream GuBuf) := gu_proxy_out_funs gu_buf_out_funs

/-- Its `bbuf` is at the bottom of its writer. -/
structure GuStringBuf where
  wtr : GuOut (GuProxyOutStream GuBuf)

/-- Where the buffer is matters to nothing that a writer does. -/
def gu_string_buf : GuStringBuf := ⟨gu_init_out (gu_out_proxy_stream (gu_buf_out (gu_make_buf fun _ => 0)))⟩

/-- `gu_ucs_write` on `gu_string_buf_writer`. -/
def gu_ucs_write (ucs : GuUCS) (sb : GuStringBuf) (err : GuExn) : Exec (GuStringBuf × GuExn) := do
  let (wtr, err) ← sb.wtr.gu_out_utf8 stringBufFuns ucs err
  return (⟨wtr⟩, err)

/-- The bytes of the string: see `freeze_refines`. -/
def gu_string_buf_freeze (sb : GuStringBuf) : Exec (List UInt8) := do
  let (wtr, _) ← sb.wtr.gu_out_flush stringBufFuns none
  let data := wtr.stream.real_out.stream.data
  Exec.require (data.length < 256)
  return data

/-- `gu_string_buf_freeze` returns when `gu_utf8_string` does, and its string has the bytes. -/
theorem freeze_refines {sb : GuStringBuf} {s : Bytes} (h : gu_string_buf_freeze sb = .ok s) (pool : GuPool) (mem : GuMemory) :
    ∃ w mem', pool.gu_utf8_string s mem = .ok (w, mem') ∧ GuPool.Made pool mem' w s := by
  obtain ⟨⟨wtr, err⟩, -, h⟩ := Exec.bind_ok.1 h
  obtain ⟨_, hlt, h⟩ := Exec.bind_ok.1 h
  cases h
  obtain ⟨w, more, hrun, -⟩ := GuPool.utf8_string_spec pool (Exec.require_ok.1 hlt) mem
  exact ⟨w, mem ++ more, hrun, .new hrun⟩

def stringBufView : OutView (fun _ => True) [] stringBufFuns := proxyOutView any_blocks (bufView any_blocks [])

theorem stringBufView_calm : stringBufView.Calm := proxyOutView_calm any_blocks (bufView_calm any_blocks)

/-- The buffer has taken the bytes, and there is room for `n` characters more. -/
structure GuStringBuf.Has (sb : GuStringBuf) (text : Bytes) (n : Nat) : Prop where
  ok : sb.wtr.Ok stringBufView (8 * n)
  taken : sb.wtr.taken stringBufView = text

theorem string_buf_has {n : Nat} (h : n ≤ 2 ^ 57) : gu_string_buf.Has [] n := by
  have hbuf : BufOk (fun _ => True) [] (gu_make_buf fun _ => 0) (8 * n) :=
    ⟨⟨[], trivial, rfl⟩, Nat.le_refl _, Nat.zero_le _, by
      show 0 + 8 * n ≤ 2 ^ 60
      omega⟩
  exact ⟨GuOut.init_ok any_blocks (GuOut.init_ok any_blocks hbuf), rfl⟩

theorem ucs_write_has {sb : GuStringBuf} {text : Bytes} {n : Nat} {ucs : GuUCS} (h : sb.Has text (n + 1)) (hvalid : gu_ucs_valid ucs = true) :
    ∃ sb', gu_ucs_write ucs sb none = .ok (sb', none) ∧ sb'.Has (text ++ ucsBytes ucs) n := by
  obtain ⟨wtr, hrun, hok, htaken⟩ := out_ucs_spec hvalid (h.ok.less (by omega : 8 + 8 * n ≤ 8 * (n + 1)))
  exact ⟨⟨wtr⟩, by rw [gu_ucs_write, hrun]; rfl, hok, by rw [htaken, h.taken]⟩

/-- With an exception raised, at most a byte is taken. -/
theorem ucs_write_calm {sb : GuStringBuf} {text : Bytes} {n : Nat} {ucs : GuUCS} {t : GuExnType} (h : sb.Has text (n + 1))
    (hvalid : gu_ucs_valid ucs = true) :
    ∃ sb' text', gu_ucs_write ucs sb (some t) = .ok (sb', some t) ∧ sb'.Has text' n ∧ text'.length ≤ text.length + 1 := by
  obtain ⟨wtr, hrun, hok, hle⟩ := GuOut.calm_utf8 (t := t) any_blocks stringBufView_calm hvalid (h.ok.less (by omega : 4 + 8 * n ≤ 8 * (n + 1)))
    fun _ => trivial
  exact ⟨⟨wtr⟩, wtr.taken stringBufView, by rw [gu_ucs_write, hrun]; rfl, ⟨hok, rfl⟩, by rw [← h.taken]; exact hle⟩

theorem freeze_eq {sb : GuStringBuf} {text : Bytes} {n : Nat} (h : sb.Has text n) :
    gu_string_buf_freeze sb = if text.length < 256 then .ok text else Exec.abort := by
  obtain ⟨wtr, hrun, -, -, hsink⟩ := GuOut.flush_spec any_blocks h.ok
  have hdata : wtr.stream.real_out.stream.data = text := hsink.trans h.taken
  unfold gu_string_buf_freeze
  rw [hrun]
  simp only [Exec.ok_bind, hdata, Exec.require]
  split_ifs <;> rfl

end Libpgf
