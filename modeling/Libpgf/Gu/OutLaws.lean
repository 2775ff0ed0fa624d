import Libpgf.Gu.Out
/-!
# What output streams take

A view of a stream tells which bytes it has taken, and which of them have
reached the sink at the bottom. A `GuOut` over a stream with a view takes what
is written to it, once and in order, whether it borrows a buffer or not.

What is written comes in blocks. A predicate that holds of every block and of
their concatenations holds of what is in the sink at any time: no block is ever
there in part.
-/

namespace Libpgf

namespace GuOutStreamFuns
variable {σ : Type}

/-- `gu_invoke` on `end_buf`. -/
def endBuf (S : GuOutStreamFuns σ) (s : σ) (written : Bytes) (err : GuExn) : Exec (σ × GuExn) := do
  let end_buf ← Exec.deref S.end_buf
  end_buf s written err

/-- `gu_invoke` on `output`. -/
def doOutput (S : GuOutStreamFuns σ) (s : σ) (src : Bytes) (err : GuExn) : Exec (Nat × σ × GuExn) := do
  let output ← Exec.deref S.output
  output s src err

/-- `gu_invoke_maybe` on `flush`. -/
def doFlush (S : GuOutStreamFuns σ) (s : σ) (err : GuExn) : Exec (σ × GuExn) :=
  match S.flush with
  | none => .ok (s, err)
  | some flush => flush s err

end GuOutStreamFuns

/-- A predicate on what is written, block by block. -/
structure Blocks (W : Bytes → Prop) : Prop where
  nil : W []
  append : ∀ {a b}, W a → W b → W (a ++ b)

/-- The bytes that a stream has taken, those that are in the sink, which had `init` at first, and the laws of its functions. `Ok s n`
says that there is room for `n` bytes more. -/
structure OutView {σ : Type} (W : Bytes → Prop) (init : Bytes) (S : GuOutStreamFuns σ) where
  taken : σ → Bytes
  sink : σ → Bytes
  Ok : σ → Nat → Prop
  /-- The stream has lent a buffer of this size. -/
  Lent : σ → Nat → Prop
  whole : ∀ {s n}, Ok s n → ∃ x, W x ∧ sink s = init ++ x
  lent_le : ∀ {s n sz}, Ok s n → Lent s sz → sz ≤ PTRDIFF_MAX
  less : ∀ {s n m}, Ok s n → m ≤ n → Ok s m
  begin_buf : ∀ {f}, S.begin_buf = some f → ∀ {s n req}, Ok s n → req ≤ n →
    ∃ (buf : GuSlice) (s' : σ), f s req none = .ok (buf, s', none) ∧ buf.sz ≤ PTRDIFF_MAX ∧ Ok s' n ∧ taken s' = taken s ∧
      (buf.sz ≠ 0 → Lent s' buf.sz)
  end_buf : ∀ {s n sz w}, Ok s (w.length + n) → Lent s sz → w.length ≤ sz → W w →
    ∃ s', S.endBuf s w none = .ok (s', none) ∧ Ok s' n ∧ taken s' = taken s ++ w
  output : ∀ {s n src}, Ok s (src.length + n) → src.length ≤ PTRDIFF_MAX → W src →
    ∃ k s', S.doOutput s src none = .ok (k, s', none) ∧ Ok s' n ∧ taken s' = taken s ++ src
  flush : ∀ {s n}, Ok s n → ∃ s', S.doFlush s none = .ok (s', none) ∧ Ok s' n ∧ taken s' = taken s ∧ sink s' = taken s

namespace GuOut
variable {σ : Type} {W : Bytes → Prop} {init : Bytes} {S : GuOutStreamFuns σ}

/-- What has been written into the borrowed buffer. -/
def pending (out : GuOut σ) : Bytes := out.buf.getD []

def taken (v : OutView W init S) (out : GuOut σ) : Bytes := v.taken out.stream ++ out.pending

structure Ok (v : OutView W init S) (out : GuOut σ) (n : Nat) : Prop where
  stream : v.Ok out.stream (out.pending.length + n)
  lent : ∀ w, out.buf = some w → v.Lent out.stream (w.length + out.left)
  none_left : out.buf = none → out.left = 0
  none_end : out.buf = none → out.buf_end = 0
  whole : W out.pending

variable {v : OutView W init S} {out out' : GuOut σ} {n : Nat}

theorem pending_none (h : out.buf = none) : out.pending = [] := by rw [pending, h, Option.getD_none]

theorem pending_some {w : Bytes} (h : out.buf = some w) : out.pending = w := by rw [pending, h, Option.getD_some]

theorem taken_none (h : out.buf = none) : out.taken v = v.taken out.stream := by rw [taken, pending_none h, List.append_nil]

theorem init_ok (hW : Blocks W) {s : σ} (h : v.Ok s n) : (gu_init_out s).Ok v n :=
  ⟨by rwa [pending_none rfl, List.length_nil, Nat.zero_add], by simp [gu_init_out], fun _ => rfl, fun _ => rfl, hW.nil⟩

/-- Without a buffer, a `GuOut` is its stream. -/
theorem Ok.restream (h : out.Ok v n) (hbuf : out.buf = none) (s : σ) : { out with stream := s } = gu_init_out s := by
  rw [gu_init_out, hbuf, h.none_left hbuf, h.none_end hbuf]

theorem Ok.stream_ok (h : out.Ok v n) (hbuf : out.buf = none) : v.Ok out.stream n := by
  have hs := h.stream
  rwa [pending_none hbuf, List.length_nil, Nat.zero_add] at hs

theorem Ok.less (h : out.Ok v n) {m : Nat} (hm : m ≤ n) : out.Ok v m :=
  ⟨v.less h.stream (Nat.add_le_add_left hm _), h.lent, h.none_left, h.none_end, h.whole⟩

theorem Ok.left_le (h : out.Ok v n) : out.left ≤ PTRDIFF_MAX := by
  cases hbuf : out.buf with
  | none =>
    rw [h.none_left hbuf]
    exact Nat.zero_le _
  | some w => exact (Nat.le_add_left _ _).trans (v.lent_le h.stream (h.lent w hbuf))

/-! ## Steps -/

/-- Bytes go into the borrowed buffer. -/
theorem put_spec (hW : Blocks W) (src : Bytes) (h : out.Ok v (src.length + n)) (hleft : src.length ≤ out.left) (hsrc : W src) :
    (out.put src).Ok v n ∧ (out.put src).taken v = out.taken v ++ src := by
  cases hbuf : out.buf with
  | none =>
    have hnil : src = [] := List.length_eq_zero_iff.1 (Nat.le_zero.1 (h.none_left hbuf ▸ hleft))
    subst hnil
    have hput : out.put [] = out := by
      rw [put, hbuf, Option.map_none, ← hbuf]
      rfl
    rw [List.length_nil, Nat.zero_add] at h
    rw [hput, List.append_nil]
    exact ⟨h, rfl⟩
  | some w =>
    have hpend : (out.put src).pending = w ++ src := by simp [put, pending, hbuf]
    refine ⟨⟨?_, fun w' hw' => ?_, fun hnone => by simp [put, hbuf] at hnone, fun hnone => by simp [put, hbuf] at hnone, ?_⟩, ?_⟩
    · rw [hpend, List.length_append, Nat.add_assoc]
      rw [← pending_some hbuf]
      exact h.stream
    · obtain rfl : w ++ src = w' := by simpa [put, hbuf] using hw'
      have hl := h.lent w hbuf
      have heq : (w ++ src).length + (out.put src).left = w.length + out.left := by
        rw [List.length_append]
        show w.length + src.length + (out.left - src.length) = _
        omega
      rw [heq]
      exact hl
    · rw [hpend]
      exact hW.append (pending_some hbuf ▸ h.whole) hsrc
    · rw [taken, hpend, taken, pending_some hbuf, List.append_assoc]
      rfl

theorem end_buf_spec (hW : Blocks W) (h : out.Ok v n) : ∃ out', out.gu_out_end_buf S none = .ok (out', none) ∧ out'.Ok v n ∧
    out'.buf = none ∧ out'.taken v = out.taken v := by
  cases hbuf : out.buf with
  | none => exact ⟨out, by simp only [gu_out_end_buf, hbuf], h, hbuf, rfl⟩
  | some w =>
    have hstream := h.stream
    have hwhole := h.whole
    rw [pending_some hbuf] at hstream hwhole
    obtain ⟨s', hend, hok, htaken⟩ := v.end_buf hstream (h.lent w hbuf) (Nat.le_add_right _ _) hwhole
    refine ⟨gu_init_out s', ?_, init_ok hW hok, rfl, ?_⟩
    · unfold GuOutStreamFuns.endBuf at hend
      obtain ⟨f, hf, hend⟩ := Exec.bind_ok.1 hend
      simp only [gu_out_end_buf, hbuf, hf, Exec.ok_bind, hend, Exec.pure_eq]
      rfl
    · rw [taken_none rfl, taken, pending_some hbuf, ← htaken]
      rfl

theorem borrow_spec (hW : Blocks W) {req : Nat} (h : out.Ok v n) (hbuf : out.buf = none) (hreq : req ≤ n) :
    ∃ b out', out.gu_out_borrow S req none = .ok (b, out', none) ∧ out'.Ok v n ∧ out'.taken v = out.taken v ∧
      (b = true → out'.gu_out_is_buffering = true ∧ 0 < out'.left) ∧ (b = false → out'.buf = none) := by
  cases hf : S.begin_buf with
  | none =>
    refine ⟨false, out, ?_, h, rfl, by simp, fun _ => hbuf⟩
    simp only [gu_out_borrow, hf]
  | some f =>
    obtain ⟨buf, s', hb, hsz, hok, htaken, hlent⟩ := v.begin_buf hf (h.stream_ok hbuf) hreq
    have hrun : out.gu_out_borrow S req none =
        if buf.sz ≠ 0 then .ok (true, ⟨some [], buf.sz, buf.p.getD 0 + buf.sz, s'⟩, none)
        else .ok (false, { out with stream := s' }, none) := by
      simp only [gu_out_borrow, hf, hb, Exec.ok_bind, Exec.require, hsz, if_true, Exec.pure_eq]
    by_cases h0 : buf.sz = 0
    · refine ⟨false, gu_init_out s', ?_, init_ok hW hok, ?_, by simp, fun _ => rfl⟩
      · rw [hrun, if_neg (not_not.2 h0), h.restream hbuf]
      · rw [taken_none rfl, taken_none hbuf, ← htaken]
        rfl
    · refine ⟨true, ⟨some [], buf.sz, buf.p.getD 0 + buf.sz, s'⟩, ?_, ⟨?_, fun w hw => ?_, by simp, by simp, hW.nil⟩, ?_,
        fun _ => ⟨rfl, Nat.pos_of_ne_zero h0⟩, by simp⟩
      · rw [hrun, if_pos h0]
      · show v.Ok s' (0 + n)
        rwa [Nat.zero_add]
      · cases hw
        simpa only [List.length_nil, Nat.zero_add] using hlent h0
      · rw [taken_none hbuf, taken, pending_some rfl, List.append_nil, htaken]

theorem begin_buf_spec (hW : Blocks W) {req : Nat} (h : out.Ok v n) (hreq : req ≤ n) :
    ∃ b out', out.gu_out_begin_buf S req none = .ok (b, out', none) ∧ out'.Ok v n ∧ out'.taken v = out.taken v ∧
      (b = true → out'.gu_out_is_buffering = true ∧ 0 < out'.left) ∧ (b = false → out'.buf = none) := by
  cases hbuf : out.buf with
  | none =>
    simp only [gu_out_begin_buf, gu_out_is_buffering, hbuf, Option.isSome_none, Bool.false_eq_true, if_false]
    exact borrow_spec hW h hbuf hreq
  | some w =>
    have hbuffering : out.gu_out_is_buffering = true := by rw [gu_out_is_buffering, hbuf, Option.isSome_some]
    by_cases hleft : 0 < out.left
    · exact ⟨true, out, by rw [gu_out_begin_buf, if_pos hbuffering, if_pos hleft], h, rfl, fun _ => ⟨hbuffering, hleft⟩, by simp⟩
    · obtain ⟨out₁, hend, hok, hnone, htaken⟩ := end_buf_spec hW h
      obtain ⟨b, out', hb, hok', htaken', htrue, hfalse⟩ := borrow_spec hW hok hnone hreq
      refine ⟨b, out', ?_, hok', htaken'.trans htaken, htrue, hfalse⟩
      rw [gu_out_begin_buf, if_pos hbuffering, if_neg hleft, hend]
      exact hb

theorem output_spec (hW : Blocks W) (src : Bytes) (h : out.Ok v (src.length + n)) (hsz : src.length ≤ PTRDIFF_MAX) (hsrc : W src) :
    ∃ k out', out.gu_out_output S src none = .ok (k, out', none) ∧ out'.Ok v n ∧ out'.taken v = out.taken v ++ src := by
  obtain ⟨out₁, hend, hok, hbuf, htaken⟩ := end_buf_spec hW h
  obtain ⟨k, s', hout, hok', htaken'⟩ := v.output (hok.stream_ok hbuf) hsz hsrc
  refine ⟨k, gu_init_out s', ?_, init_ok hW hok', ?_⟩
  · unfold GuOutStreamFuns.doOutput at hout
    obtain ⟨f, hf, hout⟩ := Exec.bind_ok.1 hout
    simp only [gu_out_output, hend, Exec.ok_bind, gu_ok_none, Bool.not_true, Bool.false_eq_true, if_false, hf, hout, Exec.pure_eq,
      hok.restream hbuf]
  · rw [taken_none rfl, ← htaken, taken_none hbuf, ← htaken']
    rfl

/-- What fits into the buffer goes there. -/
theorem try_buf_spec (hW : Blocks W) {src : Bytes} (h : out.Ok v (src.length + n)) (hsz : src.length ≤ PTRDIFF_MAX) (hsrc : W src) :
    out.gu_out_try_buf_ src = .ok (false, out) ∨
      (out.gu_out_try_buf_ src = .ok (true, out.put src) ∧ (out.put src).Ok v n ∧ (out.put src).taken v = out.taken v ++ src) := by
  unfold gu_out_try_buf_
  simp only [Exec.require, hsz, if_true, Exec.ok_bind]
  by_cases hleft : src.length > out.left
  · exact .inl (if_pos hleft)
  · exact .inr ⟨if_neg hleft, put_spec hW src h (Nat.not_lt.1 hleft) hsrc⟩

theorem long_bytes_spec (hW : Blocks W) {src : Bytes} (h : out.Ok v (src.length + n)) (hsz : src.length ≤ PTRDIFF_MAX) (hsrc : W src) :
    ∃ k out', out.gu_out_bytes_ S src none = .ok (k, out', none) ∧ out'.Ok v n ∧ out'.taken v = out.taken v ++ src := by
  unfold gu_out_bytes_
  simp only [gu_ok_none, Bool.not_true, Bool.false_eq_true, if_false]
  rcases try_buf_spec hW h hsz hsrc with htry | ⟨htry, hok, htaken⟩
  · obtain ⟨b, out₁, hb, hok₁, htaken₁, -, -⟩ := begin_buf_spec hW h (Nat.le_add_right _ _)
    obtain ⟨k, out', hout, hok', htaken'⟩ := output_spec hW src hok₁ hsz hsrc
    rw [htaken₁] at htaken'
    simp only [htry, Exec.ok_bind, Bool.false_eq_true, if_false, hb]
    cases b with
    | false => exact ⟨k, out', hout, hok', htaken'⟩
    | true =>
      simp only [if_true]
      rcases try_buf_spec hW hok₁ hsz hsrc with htry₁ | ⟨htry₁, hok₂, htaken₂⟩
      · simp only [htry₁, Exec.ok_bind, Bool.false_eq_true, if_false]
        exact ⟨k, out', hout, hok', htaken'⟩
      · simp only [htry₁, Exec.ok_bind, if_true, Exec.pure_eq]
        exact ⟨_, _, rfl, hok₂, by rw [htaken₂, htaken₁]⟩
  · simp only [htry, Exec.ok_bind, if_true, Exec.pure_eq]
    exact ⟨_, _, rfl, hok, htaken⟩

theorem bytes_spec (hW : Blocks W) {src : Bytes} (h : out.Ok v (src.length + n)) (hsz : src.length ≤ PTRDIFF_MAX) (hsrc : W src) :
    ∃ k out', out.gu_out_bytes S src none = .ok (k, out', none) ∧ out'.Ok v n ∧ out'.taken v = out.taken v ++ src := by
  unfold gu_out_bytes
  rcases try_buf_spec hW h hsz hsrc with htry | ⟨htry, hok, htaken⟩
  · simp only [htry, Exec.ok_bind, Bool.false_eq_true, if_false]
    exact long_bytes_spec hW h hsz hsrc
  · simp only [htry, Exec.ok_bind, if_true, Exec.pure_eq]
    exact ⟨_, _, rfl, hok, htaken⟩

theorem u8_spec (hW : Blocks W) {u : UInt8} (h : out.Ok v (1 + n)) (hu : W [u]) :
    ∃ out', out.gu_out_u8 S u none = .ok (out', none) ∧ out'.Ok v n ∧ out'.taken v = out.taken v ++ [u] := by
  have hsz : [u].length ≤ PTRDIFF_MAX := (by decide : 1 ≤ PTRDIFF_MAX)
  unfold gu_out_u8
  by_cases hleft : out.left < 1
  · have htry : out.gu_out_try_u8_ u = (false, out) := if_pos hleft
    obtain ⟨b, out₁, hb, hok₁, htaken₁, htrue, -⟩ := begin_buf_spec hW h (Nat.le_add_right _ _)
    simp only [htry, Bool.false_eq_true, if_false, gu_out_u8_, hb, Exec.ok_bind, gu_ok_none, Bool.not_true, Bool.and_false]
    cases b with
    | false =>
      obtain ⟨k, out', hout, hok', htaken'⟩ := output_spec hW [u] hok₁ hsz hu
      simp only [Bool.false_and, Bool.false_eq_true, if_false, hout, Exec.ok_bind, Exec.pure_eq]
      exact ⟨out', rfl, hok', by rw [htaken', htaken₁]⟩
    | true =>
      have hle : 1 ≤ out₁.left := (htrue rfl).2
      have htry₁ : out₁.gu_out_try_u8_ u = (true, out₁.put [u]) := if_neg (Nat.not_lt.2 hle)
      obtain ⟨hok', htaken'⟩ := put_spec hW [u] hok₁ hle hu
      simp only [htry₁, Bool.and_true, if_true, Exec.pure_eq]
      exact ⟨_, rfl, hok', by rw [htaken', htaken₁]⟩
  · have htry : out.gu_out_try_u8_ u = (true, out.put [u]) := if_neg hleft
    obtain ⟨hok', htaken'⟩ := put_spec hW [u] h (Nat.not_lt.1 hleft) hu
    simp only [htry, if_true]
    exact ⟨_, rfl, hok', htaken'⟩

/-- A span is the fallback buffer, or what is free in the borrowed buffer. -/
theorem begin_span_spec (hW : Blocks W) (fallback : GuSlice) (h : out.Ok v n) (hfb : fallback.sz ≤ n) :
    ∃ span out', out.gu_out_begin_span S fallback none = .ok (span, out', none) ∧ out'.Ok v n ∧ out'.taken v = out.taken v ∧
      fallback.sz ≤ span.sz ∧ (span = fallback ∨ (out'.gu_out_is_buffering = true ∧ span = ⟨some out'.curr, out'.left⟩)) := by
  have hbegin : ∃ b out', out.gu_out_span_buf S fallback.sz none = .ok (b, out', none) ∧ out'.Ok v n ∧ out'.taken v = out.taken v ∧
      (b = true → out'.gu_out_is_buffering = true) := by
    by_cases hbuf : out.gu_out_is_buffering = true
    · exact ⟨true, out, by rw [gu_out_span_buf, if_pos hbuf], h, rfl, fun _ => hbuf⟩
    · obtain ⟨b, out', hb, hok, htaken, htrue, -⟩ := begin_buf_spec hW h hfb
      exact ⟨b, out', by rw [gu_out_span_buf, if_neg hbuf, hb], hok, htaken, fun hb => (htrue hb).1⟩
  obtain ⟨b, out', hb, hok, htaken, htrue⟩ := hbegin
  by_cases hcond : (!b || decide (out'.left < fallback.sz)) = true
  · refine ⟨fallback, out', ?_, hok, htaken, Nat.le_refl _, .inl rfl⟩
    rw [gu_out_begin_span, hb]
    simp only [Exec.ok_bind, if_pos hcond, gu_ok_none, if_true, Exec.pure_eq]
  · have hcond' : b = true ∧ fallback.sz ≤ out'.left := by simpa using hcond
    refine ⟨⟨some out'.curr, out'.left⟩, out', ?_, hok, htaken, hcond'.2, .inr ⟨htrue hcond'.1, rfl⟩⟩
    rw [gu_out_begin_span, hb]
    simp only [Exec.ok_bind, if_neg hcond, Exec.pure_eq]

/-- Something in a span that begins where the free part of the borrowed buffer does, but more than is free. -/
def Overruns (out : GuOut σ) (p : Option Nat) (len : Nat) : Prop :=
  out.gu_out_is_buffering = true ∧ p = some out.curr ∧ out.left < len

/-- What fits into a span does not overrun it, if the fallback buffer is an array of the function that writes. -/
theorem not_overruns {fallback span : GuSlice} {len : Nat} (hp : fallback.p = none)
    (hspan : span = fallback ∨ (out.gu_out_is_buffering = true ∧ span = ⟨some out.curr, out.left⟩)) (hlen : len ≤ span.sz) :
    ¬ out.Overruns span.p len := by
  rintro ⟨-, hcurr, hlt⟩
  rcases hspan with rfl | ⟨-, rfl⟩
  · rw [hp] at hcurr
    cases hcurr
  · exact Nat.not_lt.2 hlen hlt

theorem end_span_spec (hW : Blocks W) (p : Option Nat) (span : Bytes) (h : out.Ok v (span.length + n))
    (hsz : span.length ≤ PTRDIFF_MAX) (hspan : W span) (hfit : ¬ out.Overruns p span.length) :
    ∃ out', out.gu_out_end_span S p span none = .ok (out', none) ∧ out'.Ok v n ∧ out'.taken v = out.taken v ++ span := by
  unfold gu_out_end_span
  by_cases hin : (out.gu_out_is_buffering && decide (p = some out.curr)) = true
  · rw [if_pos hin]
    rw [Bool.and_eq_true, decide_eq_true_eq] at hin
    have hleft : span.length ≤ out.left := Nat.not_lt.1 fun hlt => hfit ⟨hin.1, hin.2, hlt⟩
    simp only [Exec.require, hleft, if_true, Exec.ok_bind, Exec.pure_eq]
    exact ⟨_, rfl, put_spec hW span h hleft hspan⟩
  · obtain ⟨k, out', hrun, hok, htaken⟩ := long_bytes_spec hW h hsz hspan
    rw [if_neg hin]
    simp only [hrun, Exec.ok_bind, Exec.pure_eq]
    exact ⟨out', rfl, hok, htaken⟩

theorem flush_spec (hW : Blocks W) (h : out.Ok v n) : ∃ out', out.gu_out_flush S none = .ok (out', none) ∧ out'.Ok v n ∧
    out'.taken v = out.taken v ∧ v.sink out'.stream = out.taken v := by
  have hstream : ∀ {out₁ : GuOut σ}, out₁.Ok v n → out₁.buf = none → out₁.taken v = out.taken v →
      ∃ out', out₁.gu_out_flush_stream S none = .ok (out', none) ∧ out'.Ok v n ∧ out'.taken v = out.taken v ∧
        v.sink out'.stream = out.taken v := by
    intro out₁ hok hbuf htaken
    obtain ⟨s', hflush, hok', htaken', hsink⟩ := v.flush (hok.stream_ok hbuf)
    rw [taken_none hbuf] at htaken
    refine ⟨gu_init_out s', ?_, init_ok hW hok', ?_, ?_⟩
    · unfold GuOutStreamFuns.doFlush at hflush
      cases hf : S.flush with
      | none =>
        simp only [hf, Except.ok.injEq, Prod.mk.injEq, and_true] at hflush
        simp only [gu_out_flush_stream, hf, ← hflush, ← hok.restream hbuf out₁.stream]
      | some f =>
        simp only [hf] at hflush
        simp only [gu_out_flush_stream, hf, hflush, Exec.ok_bind, Exec.pure_eq, hok.restream hbuf]
    · rw [taken_none rfl, ← htaken, ← htaken']
      rfl
    · rw [← htaken, ← hsink]
      rfl
  unfold gu_out_flush
  by_cases hbuf : out.gu_out_is_buffering = true
  · obtain ⟨out₁, hend, hok, hnone, htaken⟩ := end_buf_spec hW h
    simp only [hbuf, if_true, hend, Exec.ok_bind, gu_ok_none, Bool.not_true, Bool.false_eq_true, if_false]
    exact hstream hok hnone htaken
  · rw [if_neg hbuf]
    exact hstream h (by simpa [gu_out_is_buffering] using hbuf) rfl

end GuOut

end Libpgf
