import Libpgf.Gu.OutStack
import Libpgf.Gu.Utf8Laws
/-!
# Writing with an exception raised

A loop that does not look at its frame goes on writing. With an exception
raised, a writer onto a buffer in memory returns, and takes a byte for each
character at most.
-/

namespace Libpgf

/-- What the functions of a stream do with an exception raised. -/
structure OutView.Calm {σ : Type} {W : Bytes → Prop} {init : Bytes} {S : GuOutStreamFuns σ} (v : OutView W init S) : Prop where
  begin_buf : ∀ {f}, S.begin_buf = some f → ∀ {s n req}, v.Ok s n → req ≤ n → ∀ t, ∃ (buf : GuSlice) (s' : σ),
    f s req (some t) = .ok (buf, s', some t) ∧ buf.sz ≤ PTRDIFF_MAX ∧ v.Ok s' n ∧ (v.taken s').length ≤ (v.taken s).length ∧
      (buf.sz ≠ 0 → v.Lent s' buf.sz)
  end_buf : ∀ {s n sz w}, v.Ok s (w.length + n) → v.Lent s sz → w.length ≤ sz → W w → ∀ t,
    ∃ s', S.endBuf s w (some t) = .ok (s', some t) ∧ v.Ok s' n ∧ (v.taken s').length ≤ (v.taken s).length + w.length

namespace GuOut
variable {σ : Type} {W : Bytes → Prop} {init : Bytes} {S : GuOutStreamFuns σ} {v : OutView W init S} {out : GuOut σ} {n : Nat}
  {t : GuExnType}

theorem taken_length (v : OutView W init S) (out : GuOut σ) : (out.taken v).length = (v.taken out.stream).length + out.pending.length := by
  rw [taken, List.length_append]

theorem calm_end_buf (hW : Blocks W) (hc : v.Calm) (h : out.Ok v n) : ∃ out', out.gu_out_end_buf S (some t) = .ok (out', some t) ∧
    out'.Ok v n ∧ out'.buf = none ∧ (out'.taken v).length ≤ (out.taken v).length := by
  cases hbuf : out.buf with
  | none => exact ⟨out, by simp only [gu_out_end_buf, hbuf], h, hbuf, Nat.le_refl _⟩
  | some w =>
    have hstream := h.stream
    have hwhole := h.whole
    rw [pending_some hbuf] at hstream hwhole
    obtain ⟨s', hend, hok, htaken⟩ := hc.end_buf hstream (h.lent w hbuf) (Nat.le_add_right _ _) hwhole t
    refine ⟨gu_init_out s', ?_, init_ok hW hok, rfl, ?_⟩
    · unfold GuOutStreamFuns.endBuf at hend
      obtain ⟨f, hf, hend⟩ := Exec.bind_ok.1 hend
      simp only [gu_out_end_buf, hbuf, hf, Exec.ok_bind, hend, Exec.pure_eq]
      rfl
    · rw [taken_none rfl, taken_length, pending_some hbuf]
      exact htaken

theorem calm_borrow (hW : Blocks W) (hc : v.Calm) {req : Nat} (h : out.Ok v n) (hbuf : out.buf = none) (hreq : req ≤ n) :
    ∃ b out', out.gu_out_borrow S req (some t) = .ok (b, out', some t) ∧ out'.Ok v n ∧ (out'.taken v).length ≤ (out.taken v).length ∧
      (b = true → out'.gu_out_is_buffering = true ∧ 0 < out'.left) := by
  cases hf : S.begin_buf with
  | none => exact ⟨false, out, by simp only [gu_out_borrow, hf], h, Nat.le_refl _, by simp⟩
  | some f =>
    obtain ⟨buf, s', hb, hsz, hok, htaken, hlent⟩ := hc.begin_buf hf (h.stream_ok hbuf) hreq t
    have hrun : out.gu_out_borrow S req (some t) =
        if buf.sz ≠ 0 then .ok (true, ⟨some [], buf.sz, buf.p.getD 0 + buf.sz, s'⟩, some t)
        else .ok (false, { out with stream := s' }, some t) := by
      simp only [gu_out_borrow, hf, hb, Exec.ok_bind, Exec.require, hsz, if_true, Exec.pure_eq]
    by_cases h0 : buf.sz = 0
    · refine ⟨false, gu_init_out s', ?_, init_ok hW hok, ?_, by simp⟩
      · rw [hrun, if_neg (not_not.2 h0), h.restream hbuf]
      · rw [taken_none rfl, taken_none hbuf]
        exact htaken
    · refine ⟨true, ⟨some [], buf.sz, buf.p.getD 0 + buf.sz, s'⟩, by rw [hrun, if_pos h0],
        ⟨?_, fun w hw => ?_, by simp, by simp, hW.nil⟩, ?_, fun _ => ⟨rfl, Nat.pos_of_ne_zero h0⟩⟩
      · show v.Ok s' (0 + n)
        rwa [Nat.zero_add]
      · cases hw
        simpa only [List.length_nil, Nat.zero_add] using hlent h0
      · rw [taken_none hbuf, taken_length]
        exact htaken

theorem calm_begin_buf (hW : Blocks W) (hc : v.Calm) {req : Nat} (h : out.Ok v n) (hreq : req ≤ n) :
    ∃ b out', out.gu_out_begin_buf S req (some t) = .ok (b, out', some t) ∧ out'.Ok v n ∧ (out'.taken v).length ≤ (out.taken v).length ∧
      (b = true → out'.gu_out_is_buffering = true ∧ 0 < out'.left) := by
  cases hbuf : out.buf with
  | none =>
    simp only [gu_out_begin_buf, gu_out_is_buffering, hbuf, Option.isSome_none, Bool.false_eq_true, if_false]
    exact calm_borrow hW hc h hbuf hreq
  | some w =>
    have hbuffering : out.gu_out_is_buffering = true := by rw [gu_out_is_buffering, hbuf, Option.isSome_some]
    by_cases hleft : 0 < out.left
    · exact ⟨true, out, by rw [gu_out_begin_buf, if_pos hbuffering, if_pos hleft], h, Nat.le_refl _, fun _ => ⟨hbuffering, hleft⟩⟩
    · obtain ⟨out₁, hend, hok, -, htaken⟩ := calm_end_buf (t := t) hW hc h
      refine ⟨false, out₁, ?_, hok, htaken, by simp⟩
      rw [gu_out_begin_buf, if_pos hbuffering, if_neg hleft, hend]
      rfl

theorem calm_u8 (hW : Blocks W) (hc : v.Calm) {u : UInt8} (h : out.Ok v (1 + n)) (hu : W [u]) :
    ∃ out', out.gu_out_u8 S u (some t) = .ok (out', some t) ∧ out'.Ok v n ∧ (out'.taken v).length ≤ (out.taken v).length + 1 := by
  unfold gu_out_u8
  by_cases hleft : out.left < 1
  · have htry : out.gu_out_try_u8_ u = (false, out) := if_pos hleft
    obtain ⟨b, out₁, hb, hok₁, htaken₁, htrue⟩ := calm_begin_buf (t := t) hW hc h (Nat.le_add_right _ _)
    simp only [htry, Bool.false_eq_true, if_false, gu_out_u8_, hb, Exec.ok_bind, gu_ok_some, Bool.not_false, Bool.and_true]
    cases b with
    | false => exact ⟨out₁, rfl, hok₁.less (Nat.le_add_left _ _), by omega⟩
    | true =>
      have hle : 1 ≤ out₁.left := (htrue rfl).2
      have htry₁ : out₁.gu_out_try_u8_ u = (true, out₁.put [u]) := if_neg (Nat.not_lt.2 hle)
      obtain ⟨hok', htaken'⟩ := put_spec hW [u] hok₁ hle hu
      simp only [htry₁, Bool.and_true, if_true, Exec.pure_eq]
      refine ⟨_, rfl, hok', ?_⟩
      rw [htaken', List.length_append, List.length_singleton]
      omega
  · have htry : out.gu_out_try_u8_ u = (true, out.put [u]) := if_neg hleft
    obtain ⟨hok', htaken'⟩ := put_spec hW [u] h (Nat.not_lt.1 hleft) hu
    simp only [htry, if_true]
    exact ⟨_, rfl, hok', by rw [htaken', List.length_append, List.length_singleton]⟩

theorem calm_begin_span (hW : Blocks W) (hc : v.Calm) (fallback : GuSlice) (h : out.Ok v n) (hfb : fallback.sz ≤ n) :
    ∃ span out', out.gu_out_begin_span S fallback (some t) = .ok (span, out', some t) ∧ out'.Ok v n ∧
      (out'.taken v).length ≤ (out.taken v).length ∧
      (span.sz ≠ 0 → out'.gu_out_is_buffering = true ∧ span = ⟨some out'.curr, out'.left⟩) := by
  have hbegin : ∃ b out', out.gu_out_span_buf S fallback.sz (some t) = .ok (b, out', some t) ∧ out'.Ok v n ∧
      (out'.taken v).length ≤ (out.taken v).length ∧ (b = true → out'.gu_out_is_buffering = true) := by
    by_cases hbuf : out.gu_out_is_buffering = true
    · exact ⟨true, out, by rw [gu_out_span_buf, if_pos hbuf], h, Nat.le_refl _, fun _ => hbuf⟩
    · obtain ⟨b, out', hb, hok, htaken, htrue⟩ := calm_begin_buf (t := t) hW hc h hfb
      exact ⟨b, out', by rw [gu_out_span_buf, if_neg hbuf, hb], hok, htaken, fun hb => (htrue hb).1⟩
  obtain ⟨b, out', hb, hok, htaken, htrue⟩ := hbegin
  by_cases hcond : (!b || decide (out'.left < fallback.sz)) = true
  · refine ⟨gu_null_slice, out', ?_, hok, htaken, fun h0 => absurd rfl h0⟩
    rw [gu_out_begin_span, hb]
    simp only [Exec.ok_bind, if_pos hcond, gu_ok_some, Bool.false_eq_true, if_false, Exec.pure_eq]
  · have hcond' : b = true ∧ fallback.sz ≤ out'.left := by simpa using hcond
    refine ⟨⟨some out'.curr, out'.left⟩, out', ?_, hok, htaken, fun _ => ⟨htrue hcond'.1, rfl⟩⟩
    rw [gu_out_begin_span, hb]
    simp only [Exec.ok_bind, if_neg hcond, Exec.pure_eq]

theorem calm_utf8 (hW : Blocks W) (hc : v.Calm) {ucs : GuUCS} (hvalid : gu_ucs_valid ucs = true) (h : out.Ok v (4 + n))
    (hu : ucs < 0x80 → W [UInt8.ofNat ucs]) :
    ∃ out', out.gu_out_utf8 S ucs (some t) = .ok (out', some t) ∧ out'.Ok v n ∧ (out'.taken v).length ≤ (out.taken v).length + 1 := by
  unfold gu_out_utf8
  simp only [Exec.require, hvalid, if_true, Exec.ok_bind]
  by_cases hlt : ucs < 0x80
  · rw [if_pos hlt]
    exact calm_u8 hW hc (h.less (by omega)) (hu hlt)
  · obtain ⟨span, out', hrun, hok, htaken, -⟩ := calm_begin_span (t := t) hW hc ⟨none, 4⟩ h ((by omega : 4 ≤ 4 + n))
    refine ⟨out', ?_, hok.less (by omega), by omega⟩
    rw [if_neg hlt, gu_out_utf8_long_, hrun]
    rfl

end GuOut

/-! ## The streams -/

section Views
variable {W : Bytes → Prop} {init : Bytes}

theorem outbuf_end_raised {buf buf' : GuBuf} {w : Bytes} {t : GuExnType} (h : gu_buf_outbuf_end buf w none = .ok (buf', none)) :
    gu_buf_outbuf_end buf w (some t) = .ok (buf', some t) := by
  unfold gu_buf_outbuf_end at h ⊢
  by_cases hwrap : w.length < (buf.gu_buf_length + sizeMod - buf.avail_len) % sizeMod
  · rw [Exec.require, if_pos hwrap, Exec.ok_bind, Exec.pure_eq] at h ⊢
    cases h
    rfl
  · rw [Exec.require, if_neg hwrap] at h
    cases h

theorem bufView_calm (hW : Blocks W) : (bufView hW init).Calm where
  begin_buf {f} hf buf n req h hreq t := by
    cases hf
    obtain ⟨avail, hrun, hlo, hhi⟩ := BufOk.require h hreq
    have hlen : buf.data.length ≤ avail := by omega
    refine ⟨⟨some (buf.addr avail + buf.data.length), avail - buf.data.length⟩, { buf with avail_len := avail }, ?_,
      (Nat.sub_le _ _).trans hhi, ⟨h.whole, hlen, hhi, h.room⟩, Nat.le_refl _, fun h0 => ⟨h0, rfl⟩⟩
    simp only [gu_buf_outbuf_begin, hrun, Exec.ok_bind]
    simp only [GuBuf.gu_buf_length, Exec.require, hlen, if_true, Exec.ok_bind, Exec.pure_eq]
  end_buf {buf n sz w} h hl hle hw t := by
    obtain ⟨h0, rfl⟩ := hl
    have hlen := BufOk.length_le h
    refine ⟨{ buf with data := buf.data ++ w }, ?_, BufOk.append hW h hw (by omega) (BufOk.avail_le h), ?_⟩
    · show (Exec.deref (some gu_buf_outbuf_end) >>= fun end_buf => end_buf buf w (some t)) = _
      rw [Exec.deref_some, Exec.ok_bind]
      exact outbuf_end_raised (outbuf_end_eq hlen (BufOk.avail_le h) hle h0)
    · show (buf.data ++ w).length ≤ buf.data.length + w.length
      rw [List.length_append]

theorem proxyOutView_calm {σ : Type} {S : GuOutStreamFuns σ} {v : OutView W init S} (hW : Blocks W) (hc : v.Calm) :
    (proxyOutView hW v).Calm where
  begin_buf {f} hf pos n req h _ t := by
    cases hf
    obtain ⟨span, out', hrun, hok, htaken, hlent⟩ := GuOut.calm_begin_span (t := t) hW hc gu_null_slice h (Nat.zero_le _)
    refine ⟨span, ⟨span.p, out'⟩, ?_, ?_, hok, htaken, fun h0 => ?_⟩
    · unfold gu_proxy_out_buf_begin
      rw [hrun]
      rfl
    · by_cases h0 : span.sz = 0
      · rw [h0]
        exact Nat.zero_le _
      · rw [(hlent h0).2]
        exact hok.left_le
    · obtain ⟨hbuf, rfl⟩ := hlent h0
      exact ⟨rfl, hbuf, rfl⟩
  end_buf {pos n sz w} h hl hle hw t := by
    obtain ⟨hcurr, hbuf, rfl⟩ := hl
    obtain ⟨hok, htaken⟩ := GuOut.put_spec hW w h hle hw
    refine ⟨⟨pos.buf, pos.real_out.put w⟩, ?_, hok, ?_⟩
    · show gu_proxy_out_buf_end S pos w (some t) = _
      unfold gu_proxy_out_buf_end GuOut.gu_out_end_span
      simp only [hcurr, hbuf, decide_true, Bool.and_self, if_true, Exec.require, hle, Exec.ok_bind, Exec.pure_eq]
    · show ((pos.real_out.put w).taken v).length ≤ (pos.real_out.taken v).length + w.length
      rw [htaken, List.length_append]

end Views

end Libpgf
