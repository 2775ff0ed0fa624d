import Libpgf.Gu.InStack
/-!
# Reading with an exception raised

Callers do not always look at the frame before they read on. With an exception
raised, reading from a stack returns, and raises nothing else.
-/

namespace Libpgf

/-- What the functions of a stream do with an exception raised. -/
structure InView.Calm {σ : Type} {S : GuInStreamFuns σ} (v : InView S) : Prop where
  begin_buffer : ∀ {f}, S.begin_buffer = some f → ∀ {s}, v.Ok s → ∀ t, ∃ buf s', f s (some t) = .ok (buf, s', some t) ∧ v.Ok s'
  end_buffer : ∀ {s buf n}, v.Ok s → v.Lent s buf → n ≤ buf.length → ∀ t, ∃ s', S.endBuffer s n (some t) = .ok (s', some t) ∧ v.Ok s'

namespace GuIn
variable {σ : Type} {S : GuInStreamFuns σ} {v : InView S} {in_ : GuIn σ} {t : GuExnType}

theorem calm_end_buffering (hc : v.Calm) (h : in_.Ok v) :
    ∃ in', in_.gu_in_end_buffering S (some t) = .ok (in', some t) ∧ in'.Ok v ∧ in'.buf = none := by
  unfold gu_in_end_buffering
  cases hbuf : in_.buf with
  | none => exact ⟨in_, rfl, h, hbuf⟩
  | some buf =>
    obtain ⟨s', hend, hok⟩ := hc.end_buffer (n := buf.length - in_.left) h.stream (h.lent buf hbuf) (Nat.sub_le _ _) t
    refine ⟨⟨none, 0, s', in_.stream_pos + (buf.length - in_.left)⟩, ?_, ⟨hok, by simp, Nat.le_refl _⟩, rfl⟩
    unfold GuInStreamFuns.endBuffer at hend
    cases hf : S.end_buffer with
    | none =>
      simp only [hf, Except.ok.injEq, Prod.mk.injEq, and_true] at hend
      rw [← hend]
      rfl
    | some f =>
      simp only [hf] at hend
      simp only [hend]
      rfl

theorem calm_begin_buffering (hc : v.Calm) (h : in_.Ok v) : ∃ b in', in_.gu_in_begin_buffering S (some t) = .ok (b, in', some t) ∧
    in'.Ok v ∧ (b = true → 0 < in'.left) := by
  unfold gu_in_begin_buffering
  cases hbuf : in_.gu_in_is_buffering with
  | true =>
    by_cases hleft : 0 < in_.left
    · exact ⟨true, in_, by rw [if_pos rfl, if_pos hleft], h, fun _ => hleft⟩
    · obtain ⟨in₁, hend, hok, -⟩ := calm_end_buffering (t := t) hc h
      refine ⟨false, in₁, ?_, hok, by simp⟩
      rw [if_pos rfl, if_neg hleft, hend]
      rfl
  | false =>
    have hnone : in_.buf = none := by simpa [gu_in_is_buffering] using hbuf
    rw [if_neg Bool.false_ne_true]
    unfold gu_in_borrow
    cases hf : S.begin_buffer with
    | none => exact ⟨false, in_, rfl, h, by simp⟩
    | some f =>
      obtain ⟨buf, s', hb, hok⟩ := hc.begin_buffer hf h.stream t
      refine ⟨false, { in_ with stream := s' }, ?_, ⟨hok, fun _ hb => by simp [hnone] at hb, h.left_le⟩, by simp⟩
      simp only [hb, Exec.ok_bind, gu_ok_some, Bool.false_and, Bool.false_eq_true, if_false, Exec.pure_eq]

theorem calm_input (hc : v.Calm) (h : in_.Ok v) (sz : Nat) : ∃ in', in_.gu_in_input S sz (some t) = .ok ([], in', some t) ∧ in'.Ok v := by
  unfold gu_in_input
  by_cases h0 : sz = 0
  · exact ⟨in_, if_pos h0, h⟩
  · obtain ⟨in', hend, hok, -⟩ := calm_end_buffering (t := t) hc h
    refine ⟨in', ?_, hok⟩
    rw [if_neg h0, hend]
    rfl

theorem calm_some (hc : v.Calm) (h : in_.Ok v) {sz min_sz : Nat} (hmin : min_sz ≤ sz) (hsz : sz ≤ PTRDIFF_MAX) :
    ∃ got in', in_.gu_in_some S sz min_sz (some t) = .ok (got, in', some t) ∧ in'.Ok v := by
  have hloop : ∀ {in₁ : GuIn σ} (got : Bytes), in₁.Ok v →
      ∃ in', in₁.gu_in_some_loop S sz min_sz min_sz got (some t) = .ok (got, in', some t) ∧ in'.Ok v := by
    intro in₁ got hok
    unfold gu_in_some_loop
    by_cases hlt : got.length < min_sz
    · obtain ⟨k, rfl⟩ := Nat.exists_eq_succ_of_ne_zero (Nat.ne_of_gt (Nat.zero_lt_of_lt hlt))
      obtain ⟨in', hin, hok'⟩ := calm_input (t := t) hc hok (sz - got.length)
      refine ⟨in', ?_, hok'⟩
      rw [if_pos hlt]
      simp only [hin, Exec.ok_bind, List.length_nil, if_true, Exec.pure_eq]
    · exact ⟨in₁, if_neg hlt, hok⟩
  obtain ⟨b, in₁, hb, hok, -⟩ := calm_begin_buffering (t := t) hc h
  unfold gu_in_some
  simp only [Exec.require, hmin, hsz, if_true, Exec.ok_bind, hb]
  cases b with
  | true =>
    obtain ⟨hok', -, -⟩ := hok.advance (Nat.min_le_right sz in₁.left)
    obtain ⟨in', hrun, hok''⟩ := hloop (in₁.unread.take (min sz in₁.left)) hok'
    exact ⟨_, in', by rw [if_pos rfl, hrun], hok''⟩
  | false => exact ⟨[], in₁, rfl, hok⟩

theorem calm_begin_span (hc : v.Calm) (h : in_.Ok v) (req_sz : Nat) :
    ∃ span in', in_.gu_in_begin_span S req_sz (some t) = .ok (span, in', some t) ∧ in'.Ok v := by
  obtain ⟨b, in₁, hb, hok, -⟩ := calm_begin_buffering (t := t) hc h
  unfold gu_in_begin_span
  simp only [hb, Exec.ok_bind]
  cases b with
  | true => exact ⟨_, in₁, rfl, hok⟩
  | false =>
    obtain ⟨in', hin, hok'⟩ := calm_input (t := t) hc hok req_sz
    refine ⟨([], true), in', ?_, hok'⟩
    rw [if_neg Bool.false_ne_true, hin]
    rfl

theorem calm_u8 (hc : v.Calm) (h : in_.Ok v) : ∃ u in', in_.gu_in_u8 S (some t) = .ok (u, in', some t) ∧ in'.Ok v := by
  unfold gu_in_u8
  by_cases hleft : in_.left = 0
  · obtain ⟨b, in₁, hb, hok, htrue⟩ := calm_begin_buffering (t := t) hc h
    rw [if_pos hleft]
    unfold gu_in_u8_
    simp only [hb, Exec.ok_bind]
    cases b with
    | true =>
      obtain ⟨u, hu, hok', -⟩ := unread_cons hok (htrue rfl)
      refine ⟨u, in₁.advance 1, ?_, hok'⟩
      simp only [Bool.true_and, decide_eq_true (htrue rfl), if_true, hu, Exec.deref_some, Exec.ok_bind, Exec.pure_eq]
    | false =>
      obtain ⟨in', hin, hok'⟩ := calm_input (t := t) hc hok 1
      refine ⟨0, in', ?_, hok'⟩
      simp only [Bool.false_and, Bool.false_eq_true, if_false, hin, Exec.ok_bind, gu_ok_some, Exec.pure_eq]
  · obtain ⟨u, hu, hok', -⟩ := unread_cons h (Nat.pos_of_ne_zero hleft)
    refine ⟨u, in_.advance 1, ?_, hok'⟩
    rw [if_neg hleft, hu]
    rfl

end GuIn

/-! ## The streams -/

theorem dataView_calm : dataView.Calm where
  begin_buffer {f} hf s _ t := by
    cases hf
    exact ⟨s, s, rfl, trivial⟩
  end_buffer {s buf n} _ _ _ t := ⟨s.drop n, rfl, trivial⟩

theorem fileView_calm : fileView.Calm where
  begin_buffer hf := by cases hf
  end_buffer _ hl := hl.elim

section Over
variable {σ : Type} {S : GuInStreamFuns σ} {v : InView S}

theorem proxyView_calm (hc : v.Calm) : (proxyView v).Calm where
  begin_buffer {f} hf in_ h t := by
    cases hf
    obtain ⟨span, in', hspan, hok⟩ := GuIn.calm_begin_span (t := t) hc h 0
    refine ⟨span.1, in', ?_, hok⟩
    unfold gu_proxy_in_begin_buffer
    rw [hspan]
    rfl
  end_buffer {in_ buf n} h hl hn t := by
    obtain ⟨hbuf, rfl⟩ := hl
    rw [GuIn.Ok.unread_length h] at hn
    obtain ⟨hok, -, -⟩ := GuIn.Ok.advance h hn
    refine ⟨in_.advance n, ?_, hok⟩
    simp only [GuInStreamFuns.endBuffer, gu_proxy_in_funs, gu_proxy_in_end_buffer, GuIn.end_span_spec hbuf hn, Exec.ok_bind, Exec.pure_eq]

theorem bufferedView_calm (hc : v.Calm) : (bufferedView v).Calm where
  begin_buffer {f} hf bis h t := by
    cases hf
    unfold gu_buffered_in_begin_buffer
    by_cases hcurr : bis.curr = bis.buf.length
    · obtain ⟨got, in', hsome, hok⟩ := GuIn.calm_some (t := t) hc h.in_ok h.alloc_pos h.alloc_le
      refine ⟨[], { bis with buf := got, curr := 0, in_ := in' }, ?_, hok, Nat.zero_le _, h.alloc_pos, h.alloc_le⟩
      rw [if_pos hcurr, hsome]
      rfl
    · exact ⟨bis.buf.drop bis.curr, bis, if_neg hcurr, h⟩
  end_buffer {bis buf n} h hl hn t := by
    subst hl
    have hcurr := h.curr_le
    rw [List.length_drop] at hn
    refine ⟨{ bis with curr := bis.curr + n }, ?_, h.in_ok, show bis.curr + n ≤ bis.buf.length by omega, h.alloc_pos, h.alloc_le⟩
    simp only [GuInStreamFuns.endBuffer, gu_buffered_in_funs, gu_buffered_in_end_buffer, Exec.require, hn, if_true, Exec.ok_bind,
      Exec.pure_eq]

end Over

/-- The bytes `rem` are still to come from the place `pos` on. -/
def Source {σ : Type} (S : GuInStreamFuns σ) (in_ : GuIn σ) (pos : Nat) (rem : Bytes) : Prop :=
  ∃ v : InView S, v.Calm ∧ in_.Ok v ∧ in_.gu_in_tell = pos ∧ in_.rest v = rem

theorem InStack.calm {σ : Type} {S : GuInStreamFuns σ} {in_ : GuIn σ} {src : Bytes} (h : InStack S in_ src) :
    ∃ v : InView S, v.Calm ∧ in_.Ok v ∧ in_.rest v = src := by
  induction h with
  | data src => exact ⟨dataView, dataView_calm, GuIn.init_ok trivial, GuIn.init_rest _⟩
  | file src chunks => exact ⟨fileView, fileView_calm, GuIn.init_ok trivial, GuIn.init_rest _⟩
  | buffered _ h0 hsz ih =>
    obtain ⟨v, hc, hok, rfl⟩ := ih
    exact ⟨bufferedView v, bufferedView_calm hc, GuIn.init_ok (BufferedOk.mk hok (Nat.le_refl _) h0 hsz), GuIn.init_rest _⟩
  | proxy _ ih =>
    obtain ⟨v, hc, hok, rfl⟩ := ih
    exact ⟨proxyView v, proxyView_calm hc, GuIn.init_ok hok, GuIn.init_rest _⟩

theorem InReach.source {σ : Type} {S : GuInStreamFuns σ} {in_ : GuIn σ} {rem : Bytes} (h : InReach S in_ rem) :
    Source S in_ in_.gu_in_tell rem := by
  induction h with
  | start h =>
    obtain ⟨v, hc, hok, hrest⟩ := h.calm
    exact ⟨v, hc, hok, rfl, hrest⟩
  | op _ _ hfit hrun ih =>
    obtain ⟨v, hc, hok, -, rfl⟩ := ih
    obtain ⟨got, in', err, hrun', hok', -, hrest⟩ := op_spec hok hfit
    rw [hrun] at hrun'
    cases hrun'
    exact ⟨v, hc, hok', rfl, by rw [(hrest rfl).1, List.drop_left]⟩

/-- Operations on a source see its bytes, from its place on. -/
theorem Source.exact {σ : Type} {S : GuInStreamFuns σ} {in_ : GuIn σ} {pos : Nat} {rem : Bytes} (h : Source S in_ pos rem)
    {ops : List GuInOp} (hfit : ∀ op ∈ ops, op.Fits) : ∃ events, in_.runOps S ops = .ok events ∧ Exact pos rem events := by
  obtain ⟨v, -, hok, rfl, rfl⟩ := h
  exact runOps_exact hok hfit

end Libpgf
