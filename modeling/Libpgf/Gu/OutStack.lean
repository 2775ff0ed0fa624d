import Libpgf.Gu.OutLaws
import Libpgf.Gu.Pool
/-!
# Stacks of output streams

A sink, a buffer in memory, a buffer over another stream and a proxy have views,
so that whatever is stacked up hands over the bytes that are written to it:
after a flush they are in the sink, all of them and in order.
-/

namespace Libpgf

/-- How large a `GuBuf` may grow here: the code has no overflow checks of its own. -/
def GU_BUF_ROOM : Nat := 2 ^ 60

/-! ## Views of the streams -/

section Views
variable {W : Bytes → Prop} (hW : Blocks W) (init : Bytes)

def sinkView : OutView W init gu_sink_out_funs where
  taken s := s
  sink s := s
  Ok s _ := ∃ x, W x ∧ s = init ++ x
  Lent _ _ := False
  whole h := h
  lent_le _ h := h.elim
  less h _ := h
  begin_buf h := by cases h
  end_buf _ h := h.elim
  output := by
    rintro s n src ⟨x, hx, rfl⟩ - hsrc
    exact ⟨src.length, init ++ x ++ src, rfl, ⟨x ++ src, hW.append hx hsrc, List.append_assoc _ _ _⟩, rfl⟩
  flush {s n} h := ⟨s, rfl, h, rfl, rfl⟩

/-- The invariant of a `GuBuf` that may grow by `n` bytes. -/
structure BufOk (W : Bytes → Prop) (init : Bytes) (buf : GuBuf) (n : Nat) : Prop where
  whole : ∃ x, W x ∧ buf.data = init ++ x
  length_le : buf.data.length ≤ buf.avail_len
  avail_le : buf.avail_len ≤ PTRDIFF_MAX
  room : buf.data.length + n ≤ GU_BUF_ROOM

theorem BufOk.require {W : Bytes → Prop} {init : Bytes} {buf : GuBuf} {n req : Nat} (h : BufOk W init buf n) (hreq : req ≤ n) :
    ∃ avail, buf.gu_buf_require ((buf.gu_buf_length + req) % sizeMod) = .ok { buf with avail_len := avail } ∧
      buf.data.length + req ≤ avail ∧ avail ≤ PTRDIFF_MAX := by
  have hroom := h.room
  have hlen : (buf.gu_buf_length + req) % sizeMod = buf.data.length + req := by
    unfold GU_BUF_ROOM at hroom
    exact Nat.mod_eq_of_lt (show buf.data.length + req < sizeMod by unfold sizeMod; omega)
  rw [hlen, GuBuf.gu_buf_require]
  by_cases hle : buf.data.length + req ≤ buf.avail_len
  · exact ⟨buf.avail_len, if_pos hle, hle, h.avail_le⟩
  · unfold GU_BUF_ROOM at hroom
    obtain ⟨size, hsize, hlo, hhi⟩ := gu_mem_buf_size_spec (by omega : buf.data.length + req ≤ 2 ^ 61)
    refine ⟨size, ?_, hlo, ?_⟩
    · rw [if_neg hle, hsize]
      rfl
    · unfold PTRDIFF_MAX
      omega

/-- The buffer has taken `src`. -/
theorem BufOk.append {W : Bytes → Prop} (hW : Blocks W) {init : Bytes} {buf : GuBuf} {n avail : Nat} {src : Bytes}
    (h : BufOk W init buf (src.length + n)) (hsrc : W src) (hlo : buf.data.length + src.length ≤ avail) (hhi : avail ≤ PTRDIFF_MAX) :
    BufOk W init { buf with data := buf.data ++ src, avail_len := avail } n := by
  obtain ⟨x, hx, hdata⟩ := h.whole
  have hroom := h.room
  refine ⟨⟨x ++ src, hW.append hx hsrc, ?_⟩, ?_, hhi, ?_⟩
  · rw [hdata, List.append_assoc]
  · rw [List.length_append]
    exact hlo
  · rw [List.length_append]
    omega

/-- The difference that the code compares with wraps around to more than any buffer holds. -/
theorem outbuf_end_eq {buf : GuBuf} {w : Bytes} (hlen : buf.data.length ≤ buf.avail_len) (havail : buf.avail_len ≤ PTRDIFF_MAX)
    (hw : w.length ≤ buf.avail_len - buf.data.length) (h0 : buf.avail_len - buf.data.length ≠ 0) :
    gu_buf_outbuf_end buf w none = .ok ({ buf with data := buf.data ++ w }, none) := by
  have hwrap : w.length < (buf.gu_buf_length + sizeMod - buf.avail_len) % sizeMod := by
    unfold GuBuf.gu_buf_length sizeMod
    unfold PTRDIFF_MAX at havail
    omega
  unfold gu_buf_outbuf_end
  rw [Exec.require, if_pos hwrap, Exec.ok_bind, Exec.pure_eq]

theorem buf_begin {buf : GuBuf} {n req : Nat} (h : BufOk W init buf n) (hreq : req ≤ n) :
    ∃ (lent : GuSlice) (buf' : GuBuf), gu_buf_outbuf_begin buf req none = .ok (lent, buf', none) ∧ lent.sz ≤ PTRDIFF_MAX ∧
      BufOk W init buf' n ∧ buf'.data = buf.data ∧ lent.sz = buf'.avail_len - buf'.data.length := by
  obtain ⟨avail, hrun, hlo, hhi⟩ := h.require hreq
  have hlen : buf.data.length ≤ avail := by omega
  refine ⟨⟨some (buf.addr avail + buf.data.length), avail - buf.data.length⟩, { buf with avail_len := avail }, ?_,
    (Nat.sub_le _ _).trans hhi, ⟨h.whole, hlen, hhi, h.room⟩, rfl, rfl⟩
  simp only [gu_buf_outbuf_begin, hrun, Exec.ok_bind]
  simp only [GuBuf.gu_buf_length, Exec.require, hlen, if_true, Exec.ok_bind, Exec.pure_eq]

theorem buf_end (hW : Blocks W) {buf : GuBuf} {n : Nat} {w : Bytes} (h : BufOk W init buf (w.length + n))
    (h0 : buf.avail_len - buf.data.length ≠ 0) (hle : w.length ≤ buf.avail_len - buf.data.length) (hw : W w) :
    gu_buf_out_funs.endBuf buf w none = .ok ({ buf with data := buf.data ++ w }, none) ∧
      BufOk W init { buf with data := buf.data ++ w } n := by
  have hlen := h.length_le
  refine ⟨?_, h.append hW hw (by omega) h.avail_le⟩
  show (Exec.deref (some gu_buf_outbuf_end) >>= fun end_buf => end_buf buf w none) = _
  rw [Exec.deref_some, Exec.ok_bind]
  exact outbuf_end_eq hlen h.avail_le hle h0

theorem buf_output (hW : Blocks W) {buf : GuBuf} {n : Nat} {src : Bytes} (h : BufOk W init buf (src.length + n)) (hsrc : W src) :
    ∃ buf', gu_buf_out_funs.doOutput buf src none = .ok (src.length, buf', none) ∧ BufOk W init buf' n ∧ buf'.data = buf.data ++ src := by
  obtain ⟨avail, hrun, hlo, hhi⟩ := h.require (Nat.le_add_right _ _)
  refine ⟨{ buf with data := buf.data ++ src, avail_len := avail }, ?_, h.append hW hsrc hlo hhi, rfl⟩
  simp only [GuOutStreamFuns.doOutput, gu_buf_out_funs, Exec.deref_some, Exec.ok_bind, gu_buf_out_output, GuBuf.gu_buf_push_n, hrun,
    Exec.pure_eq]

def bufView : OutView W init gu_buf_out_funs where
  taken buf := buf.data
  sink buf := buf.data
  Ok := BufOk W init
  Lent buf sz := sz ≠ 0 ∧ sz = buf.avail_len - buf.data.length
  whole h := h.whole
  lent_le h hl := hl.2 ▸ (Nat.sub_le _ _).trans h.avail_le
  less h hm := ⟨h.whole, h.length_le, h.avail_le, (Nat.add_le_add_left hm _).trans h.room⟩
  begin_buf {f} hf buf n req h hreq := by
    cases hf
    obtain ⟨lent, buf', hrun, hsz, hok, hdata, hlent⟩ := buf_begin init h hreq
    exact ⟨lent, buf', hrun, hsz, hok, hdata, fun h0 => ⟨h0, hlent⟩⟩
  end_buf {buf n sz w} h hl hle hw := by
    obtain ⟨h0, rfl⟩ := hl
    obtain ⟨hrun, hok⟩ := buf_end init hW h h0 hle hw
    exact ⟨_, hrun, hok, rfl⟩
  output {buf n src} h _ hsrc := by
    obtain ⟨buf', hrun, hok, hdata⟩ := buf_output init hW h hsrc
    exact ⟨src.length, buf', hrun, hok, hdata⟩
  flush {buf n} h := ⟨buf, rfl, h, rfl, rfl⟩

variable {init} {σ : Type} {S : GuOutStreamFuns σ} {v : OutView W init S}

theorem proxy_begin (hW : Blocks W) {pos : GuProxyOutStream σ} {n : Nat} (req : Nat) (h : pos.real_out.Ok v n) :
    ∃ (lent : GuSlice) (pos' : GuProxyOutStream σ), gu_proxy_out_buf_begin S pos req none = .ok (lent, pos', none) ∧
      lent.sz ≤ PTRDIFF_MAX ∧ pos'.real_out.Ok v n ∧ pos'.real_out.taken v = pos.real_out.taken v ∧
      (lent.sz ≠ 0 → pos'.buf = some pos'.real_out.curr ∧ pos'.real_out.gu_out_is_buffering = true ∧ lent.sz = pos'.real_out.left) := by
  obtain ⟨span, out', hrun, hok, htaken, -, hspan⟩ := GuOut.begin_span_spec hW gu_null_slice h (Nat.zero_le n)
  refine ⟨span, ⟨span.p, out'⟩, ?_, ?_, hok, htaken, fun h0 => ?_⟩
  · simp only [gu_proxy_out_buf_begin, hrun, Exec.ok_bind, Exec.pure_eq]
  · rcases hspan with rfl | ⟨-, rfl⟩
    · exact Nat.zero_le _
    · exact hok.left_le
  · rcases hspan with rfl | ⟨hbuf, rfl⟩
    · exact absurd rfl h0
    · exact ⟨rfl, hbuf, rfl⟩

theorem proxy_end (hW : Blocks W) {pos : GuProxyOutStream σ} {n : Nat} {w : Bytes} (h : pos.real_out.Ok v (w.length + n))
    (hsz : w.length ≤ PTRDIFF_MAX) (hle : w.length ≤ pos.real_out.left) (hw : W w) :
    ∃ pos', (gu_proxy_out_funs S).endBuf pos w none = .ok (pos', none) ∧ pos'.real_out.Ok v n ∧
      pos'.real_out.taken v = pos.real_out.taken v ++ w := by
  obtain ⟨out', hrun, hok, htaken⟩ := GuOut.end_span_spec hW pos.buf w h hsz hw fun hover => Nat.not_lt.2 hle hover.2.2
  refine ⟨{ pos with real_out := out' }, ?_, hok, htaken⟩
  simp only [GuOutStreamFuns.endBuf, gu_proxy_out_funs, Exec.deref_some, Exec.ok_bind, gu_proxy_out_buf_end, hrun, Exec.pure_eq]

theorem proxy_output (hW : Blocks W) {pos : GuProxyOutStream σ} {n : Nat} {src : Bytes} (h : pos.real_out.Ok v (src.length + n))
    (hsz : src.length ≤ PTRDIFF_MAX) (hsrc : W src) : ∃ k pos', gu_proxy_out_output S pos src none = .ok (k, pos', none) ∧
      pos'.real_out.Ok v n ∧ pos'.real_out.taken v = pos.real_out.taken v ++ src := by
  obtain ⟨k, out', hrun, hok, htaken⟩ := GuOut.bytes_spec hW h hsz hsrc
  refine ⟨k, { pos with real_out := out' }, ?_, hok, htaken⟩
  simp only [gu_proxy_out_output, hrun, Exec.ok_bind, Exec.pure_eq]

theorem proxy_flush (hW : Blocks W) {pos : GuProxyOutStream σ} {n : Nat} (h : pos.real_out.Ok v n) :
    ∃ pos', gu_proxy_out_flush S pos none = .ok (pos', none) ∧ pos'.real_out.Ok v n ∧ pos'.real_out.taken v = pos.real_out.taken v ∧
      v.sink pos'.real_out.stream = pos.real_out.taken v := by
  obtain ⟨out', hrun, hok, htaken, hsink⟩ := GuOut.flush_spec hW h
  refine ⟨{ pos with real_out := out' }, ?_, hok, htaken, hsink⟩
  simp only [gu_proxy_out_flush, hrun, Exec.ok_bind, Exec.pure_eq]

/-- A proxy lends what is free in the buffer below. -/
def proxyOutView (v : OutView W init S) : OutView W init (gu_proxy_out_funs S) where
  taken pos := pos.real_out.taken v
  sink pos := v.sink pos.real_out.stream
  Ok pos n := pos.real_out.Ok v n
  Lent pos sz := pos.buf = some pos.real_out.curr ∧ pos.real_out.gu_out_is_buffering = true ∧ sz = pos.real_out.left
  whole h := v.whole h.stream
  lent_le h hl := hl.2.2 ▸ h.left_le
  less h hm := h.less hm
  begin_buf {f} hf pos n req h _ := by
    cases hf
    exact proxy_begin hW req h
  end_buf {pos n sz w} h hl hle hw := by
    obtain ⟨-, -, rfl⟩ := hl
    exact proxy_end hW h (hle.trans h.left_le) hle hw
  output h hsz hsrc := proxy_output hW h hsz hsrc
  flush h := proxy_flush hW h

theorem buffered_end (hW : Blocks W) {b : GuBufferedOutStream σ} {n : Nat} {w : Bytes} (h : b.pstream.real_out.Ok v (w.length + n))
    (hle : w.length ≤ b.sz) (hsz : b.sz ≤ PTRDIFF_MAX) (hw : W w) :
    ∃ b', (gu_buffered_out_funs S).endBuf b w none = .ok (b', none) ∧ (b'.pstream.real_out.Ok v n ∧ b'.sz ≤ PTRDIFF_MAX) ∧
      b'.pstream.real_out.taken v = b.pstream.real_out.taken v ++ w := by
  obtain ⟨k, out', hrun, hok, htaken⟩ := GuOut.bytes_spec hW h (hle.trans hsz) hw
  refine ⟨{ b with pstream := { b.pstream with real_out := out' } }, ?_, ⟨hok, hsz⟩, htaken⟩
  simp only [GuOutStreamFuns.endBuf, gu_buffered_out_funs, Exec.deref_some, Exec.ok_bind, gu_buffered_out_buf_end, Exec.require, hle,
    if_true, hrun, Exec.pure_eq]

/-- A buffer hands over what has been written into it. -/
def bufferedOutView (v : OutView W init S) : OutView W init (gu_buffered_out_funs S) where
  taken b := b.pstream.real_out.taken v
  sink b := v.sink b.pstream.real_out.stream
  Ok b n := b.pstream.real_out.Ok v n ∧ b.sz ≤ PTRDIFF_MAX
  Lent b sz := sz = b.sz
  whole h := v.whole h.1.stream
  lent_le h hl := hl ▸ h.2
  less h hm := ⟨h.1.less hm, h.2⟩
  begin_buf {f} hf b n req h _ := by
    cases hf
    exact ⟨⟨some b.buf, b.sz⟩, b, rfl, h.2, h, rfl, fun _ => rfl⟩
  end_buf {b n sz w} h hl hle hw := by
    subst hl
    exact buffered_end hW h.1 hle h.2 hw
  output {b n src} h hsz hsrc := by
    obtain ⟨k, pos', hrun, hok, htaken⟩ := proxy_output hW h.1 hsz hsrc
    refine ⟨k, { b with pstream := pos' }, ?_, ⟨hok, h.2⟩, htaken⟩
    simp only [GuOutStreamFuns.doOutput, gu_buffered_out_funs, Exec.deref_some, Exec.ok_bind, gu_buffered_out_output, hrun, Exec.pure_eq]
  flush {b n} h := by
    obtain ⟨pos', hrun, hok, htaken, hsink⟩ := proxy_flush hW h.1
    refine ⟨{ b with pstream := pos' }, ?_, ⟨hok, h.2⟩, htaken, hsink⟩
    simp only [GuOutStreamFuns.doFlush, gu_buffered_out_funs, gu_buffered_out_flush, hrun, Exec.ok_bind, Exec.pure_eq]

end Views

/-! ## Stacks -/

/-- Streams stacked up over a sink that holds `init`, where there is memory for `lim` bytes more; and what is in the sink. -/
inductive OutStack (lim : Nat) : {σ : Type} → GuOutStreamFuns σ → (σ → Bytes) → GuOut σ → Bytes → Prop
  | sink (init : Bytes) : OutStack lim gu_sink_out_funs id (gu_init_out init) init
  | buf (buf : GuBuf) (hlen : buf.data.length ≤ buf.avail_len) (havail : buf.avail_len ≤ PTRDIFF_MAX)
      (hlim : buf.data.length + lim ≤ GU_BUF_ROOM) : OutStack lim gu_buf_out_funs GuBuf.data (gu_buf_out buf) buf.data
  | buffered {σ : Type} {S : GuOutStreamFuns σ} {sink : σ → Bytes} {out : GuOut σ} {init : Bytes} (h : OutStack lim S sink out init)
      {sz buf : Nat} (hsz : sz ≤ PTRDIFF_MAX) :
      OutStack lim (gu_buffered_out_funs S) (fun b => sink b.pstream.real_out.stream) (gu_new_buffered_out out sz buf) init
  | proxy {σ : Type} {S : GuOutStreamFuns σ} {sink : σ → Bytes} {out : GuOut σ} {init : Bytes} (h : OutStack lim S sink out init) :
      OutStack lim (gu_proxy_out_funs S) (fun pos => sink pos.real_out.stream) (gu_init_out (gu_out_proxy_stream out)) init

theorem OutStack.view {W : Bytes → Prop} (hW : Blocks W) {lim : Nat} {σ : Type} {S : GuOutStreamFuns σ} {sink : σ → Bytes} {out : GuOut σ}
    {init : Bytes} (h : OutStack lim S sink out init) :
    ∃ v : OutView W init S, out.Ok v lim ∧ out.taken v = init ∧ v.sink = sink := by
  induction h with
  | sink init => exact ⟨sinkView hW init, GuOut.init_ok hW ⟨[], hW.nil, (List.append_nil _).symm⟩, GuOut.taken_none rfl, rfl⟩
  | buf buf hlen havail hlim =>
    have hok : BufOk W buf.data buf lim := ⟨⟨[], hW.nil, (List.append_nil _).symm⟩, hlen, havail, hlim⟩
    exact ⟨bufView hW buf.data, GuOut.init_ok hW hok, GuOut.taken_none rfl, rfl⟩
  | @buffered σ S sink out init _ sz _ hsz ih =>
    obtain ⟨v, hok, htaken, rfl⟩ := ih
    have hsz' : (if sz = 0 then GU_DEFAULT_BUFFER_SIZE else sz) ≤ PTRDIFF_MAX := by
      split
      · decide
      · exact hsz
    exact ⟨bufferedOutView hW v, GuOut.init_ok hW ⟨hok, hsz'⟩, (GuOut.taken_none rfl).trans htaken, rfl⟩
  | proxy _ ih =>
    obtain ⟨v, hok, htaken, rfl⟩ := ih
    exact ⟨proxyOutView hW v, GuOut.init_ok hW hok, (GuOut.taken_none rfl).trans htaken, rfl⟩

/-! ## Operations -/

/-- What a client does with the top of the stack. -/
inductive GuOutOp where
  | out_u8 (u : UInt8)
  | out_bytes (src : Bytes)
  /-- A span into which as much of `src` is written as fits there. -/
  | out_span (fallback : GuSlice) (src : Bytes)
  | out_flush

/-- What the code requires of sizes. -/
def GuOutOp.Fits : GuOutOp → Prop
  | .out_bytes src => src.length ≤ PTRDIFF_MAX
  | .out_span _ src => src.length ≤ PTRDIFF_MAX
  | _ => True

/-- The memory that an operation may ask for. -/
def GuOutOp.room : GuOutOp → Nat
  | .out_u8 _ => 1
  | .out_bytes src => src.length
  | .out_span fallback src => fallback.sz + src.length
  | .out_flush => 0

/-- The bytes that are written. -/
def GuOutOp.run {σ : Type} (S : GuOutStreamFuns σ) (op : GuOutOp) (out : GuOut σ) : Exec (Bytes × GuOut σ × GuExn) :=
  match op with
  | .out_u8 u => do
    let (out, err) ← out.gu_out_u8 S u none
    return ([u], out, err)
  | .out_bytes src => do
    let (_, out, err) ← out.gu_out_bytes S src none
    return (src, out, err)
  | .out_span fallback src => do
    let (span, out, err) ← out.gu_out_begin_span S fallback none
    let (out, err) ← out.gu_out_end_span S span.p (src.take span.sz) err
    return (src.take span.sz, out, err)
  | .out_flush => do
    let (out, err) ← out.gu_out_flush S none
    return ([], out, err)

/-- Makes the operations in turn, up to the first that raises an exception. -/
def GuOut.runOps {σ : Type} (S : GuOutStreamFuns σ) : List GuOutOp → GuOut σ → Exec (Bytes × GuOut σ × GuExn)
  | [], out => .ok ([], out, none)
  | op :: ops, out => do
    let (written, out, err) ← op.run S out
    if !gu_ok err then return (written, out, err)
    let (written', out, err) ← runOps S ops out
    return (written ++ written', out, err)

/-- The fallback buffer of a span does not begin right where the borrowed buffer goes on, with more in it than is free there. -/
def GuOutOp.Clear {σ : Type} (S : GuOutStreamFuns σ) (op : GuOutOp) (out : GuOut σ) : Prop :=
  match op with
  | .out_span fallback src => ∀ span out' err, out.gu_out_begin_span S fallback none = .ok (span, out', err) →
      ¬ out'.Overruns fallback.p (src.take fallback.sz).length
  | _ => True

/-- At every span of a run. -/
def GuOut.Clear {σ : Type} (S : GuOutStreamFuns σ) : List GuOutOp → GuOut σ → Prop
  | [], _ => True
  | op :: ops, out => op.Clear S out ∧ ∀ written out' err, op.run S out = .ok (written, out', err) → Clear S ops out'

section Run
variable {σ : Type} {S : GuOutStreamFuns σ} {W : Bytes → Prop} {init : Bytes} {v : OutView W init S} {out : GuOut σ}

theorem any_blocks : Blocks fun _ => True := ⟨trivial, fun _ _ => trivial⟩

/-- A span overruns only if it is the fallback buffer. -/
theorem overruns_span {out' : GuOut σ} {fallback span : GuSlice} {src : Bytes} (hsz : fallback.sz ≤ span.sz)
    (hspan : span = fallback ∨ (out'.gu_out_is_buffering = true ∧ span = ⟨some out'.curr, out'.left⟩)) :
    out'.Overruns span.p (src.take span.sz).length ↔ out'.Overruns fallback.p (src.take fallback.sz).length := by
  rcases hspan with rfl | ⟨-, rfl⟩
  · rfl
  · -- what is free holds whatever is written into it, and the fallback buffer is no larger
    have hle : ∀ k, k ≤ out'.left → ¬ out'.left < (src.take k).length :=
      fun k hk => Nat.not_lt.2 ((List.length_take_le k src).trans hk)
    exact iff_of_false (fun h => hle _ (Nat.le_refl _) h.2.2) fun h => hle _ hsz h.2.2

/-- `src` goes into a span that is begun and ended. -/
theorem span_spec {v : OutView (fun _ => True) init S} {fallback : GuSlice} {n : Nat} {src : Bytes}
    (h : out.Ok v (fallback.sz + src.length + n)) (hsz : src.length ≤ PTRDIFF_MAX) (hclear : (GuOutOp.out_span fallback src).Clear S out) :
    ∃ sz out', (GuOutOp.out_span fallback src).run S out = .ok (src.take sz, out', none) ∧ out'.Ok v n ∧
      out'.taken v = out.taken v ++ src.take sz := by
  obtain ⟨span, out₁, hbegin, hok, htaken, hle, hspan⟩ := GuOut.begin_span_spec any_blocks fallback h (by omega)
  have hfit := mt (overruns_span hle hspan).1 (hclear span out₁ none hbegin)
  have htake : (src.take span.sz).length ≤ src.length := List.length_take_le' _ _
  obtain ⟨out', hend, hok', htaken'⟩ := GuOut.end_span_spec any_blocks span.p (src.take span.sz)
    (hok.less (by omega : (src.take span.sz).length + n ≤ _)) (htake.trans hsz) trivial hfit
  refine ⟨span.sz, out', ?_, hok', by rw [htaken', htaken]⟩
  simp only [GuOutOp.run, hbegin, Exec.ok_bind, hend, Exec.pure_eq]

end Run

end Libpgf
