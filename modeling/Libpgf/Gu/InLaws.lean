import Libpgf.Gu.In
/-!
# What input streams deliver

A view of a stream tells which bytes are still to come. Every stream has one,
and a `GuIn` over a stream with a view delivers these bytes in order, whether it
borrows them or asks for them.
-/

namespace Libpgf

namespace GuInStreamFuns
variable {σ : Type}

/-- `gu_invoke_maybe` on `end_buffer`. -/
def endBuffer (S : GuInStreamFuns σ) (s : σ) (len : Nat) (err : GuExn) : Exec (σ × GuExn) :=
  match S.end_buffer with
  | some end_buffer => end_buffer s len err
  | none => .ok (s, err)

/-- `gu_invoke_maybe` on `input`. -/
def doInput (S : GuInStreamFuns σ) (s : σ) (sz : Nat) (err : GuExn) : Exec (Bytes × σ × GuExn) :=
  match S.input with
  | some input => input s sz err
  | none => .ok ([], s, err)

end GuInStreamFuns

/-- The bytes that are still to come from a stream, and the laws of its functions. -/
structure InView {σ : Type} (S : GuInStreamFuns σ) where
  rest : σ → Bytes
  Ok : σ → Prop
  /-- The stream has lent this buffer. -/
  Lent : σ → Bytes → Prop
  /-- The stream has nothing left to lend. -/
  Drained : σ → Prop
  lent_rest : ∀ {s buf}, Ok s → Lent s buf → buf <+: rest s
  no_buffer : S.begin_buffer = none → ∀ {s}, Ok s → Drained s
  begin_buffer : ∀ {f}, S.begin_buffer = some f → ∀ {s}, Ok s →
    ∃ buf s', f s none = .ok (buf, s', none) ∧ Ok s' ∧ rest s' = rest s ∧ (buf = [] → Drained s') ∧ (buf ≠ [] → Lent s' buf)
  end_buffer : ∀ {s buf n}, Ok s → Lent s buf → n ≤ buf.length →
    ∃ s', S.endBuffer s n none = .ok (s', none) ∧ Ok s' ∧ rest s' = (rest s).drop n ∧ (n = buf.length → Drained s')
  input : ∀ {s sz}, Ok s → Drained s → 0 < sz → sz ≤ PTRDIFF_MAX →
    ∃ got s', S.doInput s sz none = .ok (got, s', none) ∧ Ok s' ∧ Drained s' ∧ rest s = got ++ rest s' ∧ got.length ≤ sz ∧
      (got = [] → rest s = [])

namespace GuIn
variable {σ : Type} {S : GuInStreamFuns σ} (v : InView S)

/-- The bytes that are still to come. -/
def rest (in_ : GuIn σ) : Bytes := in_.unread ++ (v.rest in_.stream).drop (in_.buf.getD []).length

structure Ok (in_ : GuIn σ) : Prop where
  stream : v.Ok in_.stream
  lent : ∀ buf, in_.buf = some buf → v.Lent in_.stream buf
  left_le : in_.left ≤ (in_.buf.getD []).length

/-- No buffered byte is unread, and the stream has none to lend. -/
structure Spent (in_ : GuIn σ) : Prop where
  left : in_.left = 0
  drained : in_.buf = none → v.Drained in_.stream

variable {v} {in_ in' : GuIn σ}

theorem Ok.unread_length (h : in_.Ok v) : in_.unread.length = in_.left := by
  have := h.left_le
  rw [unread, List.length_drop]
  omega

theorem Ok.left_none (h : in_.Ok v) (hbuf : in_.buf = none) : in_.left = 0 := by
  have := h.left_le
  rw [hbuf] at this
  exact Nat.le_zero.1 this

theorem rest_none (hbuf : in_.buf = none) : in_.rest v = v.rest in_.stream := by
  simp [rest, unread, hbuf]

theorem rest_some (h : in_.Ok v) {buf : Bytes} (hbuf : in_.buf = some buf) :
    in_.rest v = (v.rest in_.stream).drop (buf.length - in_.left) := by
  obtain ⟨after, hafter⟩ := v.lent_rest h.stream (h.lent buf hbuf)
  rw [rest, unread, hbuf, Option.getD_some, ← hafter, List.drop_left, List.drop_append_of_le_length (Nat.sub_le _ _)]

theorem init_ok {s : σ} (hs : v.Ok s) : (gu_init_in s).Ok v := ⟨hs, by simp [gu_init_in], Nat.le_refl _⟩

theorem init_rest (s : σ) : (gu_init_in s).rest v = v.rest s := rest_none rfl

/-! ## Steps -/

/-- The buffered bytes are read. -/
theorem Ok.advance (h : in_.Ok v) {n : Nat} (hn : n ≤ in_.left) : (in_.advance n).Ok v ∧
    in_.rest v = in_.unread.take n ++ (in_.advance n).rest v ∧ (in_.advance n).gu_in_tell = in_.gu_in_tell + n := by
  have hle := h.left_le
  refine ⟨⟨h.stream, h.lent, (Nat.sub_le _ _).trans hle⟩, ?_, ?_⟩
  · have hdrop : (in_.advance n).unread = in_.unread.drop n := by
      simp only [unread, GuIn.advance, List.drop_drop]
      congr 1
      omega
    rw [rest, rest, hdrop, ← List.append_assoc, List.take_append_drop]
    rfl
  · simp only [gu_in_tell, GuIn.advance]
    omega

theorem end_buffering_spec (h : in_.Ok v) : ∃ in', in_.gu_in_end_buffering S none = .ok (in', none) ∧ in'.Ok v ∧ in'.buf = none ∧
    in'.rest v = in_.rest v ∧ in'.gu_in_tell = in_.gu_in_tell ∧ (in_.Spent v → v.Drained in'.stream) := by
  cases hbuf : in_.buf with
  | none =>
    refine ⟨in_, ?_, h, hbuf, rfl, rfl, fun hs => hs.drained hbuf⟩
    simp only [gu_in_end_buffering, hbuf]
  | some buf =>
    have hle := h.left_le
    rw [hbuf, Option.getD_some] at hle
    obtain ⟨s', hend, hok, hrest, hdr⟩ := v.end_buffer (n := buf.length - in_.left) h.stream (h.lent buf hbuf) (Nat.sub_le _ _)
    refine ⟨⟨none, 0, s', in_.stream_pos + (buf.length - in_.left)⟩, ?_, ⟨hok, by simp, Nat.le_refl _⟩, rfl, ?_, ?_,
      fun hs => hdr (by rw [hs.left, Nat.sub_zero])⟩
    · simp only [gu_in_end_buffering, hbuf]
      unfold GuInStreamFuns.endBuffer at hend
      cases hf : S.end_buffer with
      | none =>
        simp only [hf, Except.ok.injEq, Prod.mk.injEq, and_true] at hend
        rw [← hend]
        rfl
      | some f =>
        simp only [hf] at hend
        simp only [hend]
        rfl
    · rw [rest_none rfl, hrest, rest_some h hbuf]
    · simp only [gu_in_tell, hbuf, Option.getD_none, Option.getD_some, List.length_nil]
      omega

theorem borrow_spec (h : in_.Ok v) (hbuf : in_.buf = none) : ∃ b in', in_.gu_in_borrow S none = .ok (b, in', none) ∧ in'.Ok v ∧
    in'.rest v = in_.rest v ∧ in'.gu_in_tell = in_.gu_in_tell ∧ (b = true → 0 < in'.left) ∧ (b = false → in'.buf = none ∧ in'.Spent v) := by
  have hleft := h.left_none hbuf
  cases hf : S.begin_buffer with
  | none =>
    refine ⟨false, in_, ?_, h, rfl, rfl, by simp, fun _ => ⟨hbuf, hleft, fun _ => v.no_buffer hf h.stream⟩⟩
    simp only [gu_in_borrow, hf]
  | some f =>
    obtain ⟨buf, s', hb, hok, hrest, hnil, hlent⟩ := v.begin_buffer hf h.stream
    cases buf with
    | nil =>
      refine ⟨false, { in_ with stream := s' }, ?_, ⟨hok, fun _ hb => by simp [hbuf] at hb, h.left_le⟩, ?_, rfl, by simp,
        fun _ => ⟨hbuf, hleft, fun _ => hnil rfl⟩⟩
      · simp only [gu_in_borrow, hf, hb]
        rfl
      · rw [rest_none hbuf, ← hrest]
        exact rest_none hbuf
    | cons u us =>
      have hok' : GuIn.Ok v { in_ with buf := some (u :: us), left := (u :: us).length, stream := s' } :=
        ⟨hok, fun _ hb => Option.some.inj hb ▸ hlent (by simp), Nat.le_refl _⟩
      refine ⟨true, _, ?_, hok', ?_, ?_, fun _ => Nat.succ_pos _, by simp⟩
      · simp only [gu_in_borrow, hf, hb]
        rfl
      · rw [rest_some hok' rfl, rest_none hbuf, ← hrest, Nat.sub_self, List.drop_zero]
      · simp only [gu_in_tell, hbuf, hleft, Option.getD_none, Option.getD_some, List.length_nil]
        omega

theorem begin_buffering_spec (h : in_.Ok v) : ∃ b in', in_.gu_in_begin_buffering S none = .ok (b, in', none) ∧ in'.Ok v ∧
    in'.rest v = in_.rest v ∧ in'.gu_in_tell = in_.gu_in_tell ∧ (b = true → 0 < in'.left) ∧ (b = false → in'.buf = none ∧ in'.Spent v) := by
  cases hbuf : in_.buf with
  | none =>
    simp only [gu_in_begin_buffering, gu_in_is_buffering, hbuf, Option.isSome_none, Bool.false_eq_true, if_false]
    exact borrow_spec h hbuf
  | some buf =>
    simp only [gu_in_begin_buffering, gu_in_is_buffering, hbuf, Option.isSome_some, if_true]
    by_cases hleft : 0 < in_.left
    · exact ⟨true, in_, by rw [if_pos hleft], h, rfl, rfl, fun _ => hleft, by simp⟩
    · obtain ⟨in₁, hend, hok, hnone, hrest, htell, -⟩ := end_buffering_spec h
      rw [if_neg hleft, hend]
      obtain ⟨b, in', hb, hok', hrest', htell', htrue, hfalse⟩ := borrow_spec hok hnone
      exact ⟨b, in', hb, hok', hrest'.trans hrest, htell'.trans htell, htrue, hfalse⟩

theorem input_spec (h : in_.Ok v) (hs : in_.Spent v) (sz : Nat) (h0 : 0 < sz) (hsz : sz ≤ PTRDIFF_MAX) :
    ∃ got in', in_.gu_in_input S sz none = .ok (got, in', none) ∧ in'.Ok v ∧ in'.buf = none ∧ in'.Spent v ∧
      in_.rest v = got ++ in'.rest v ∧ in'.gu_in_tell = in_.gu_in_tell + got.length ∧ got.length ≤ sz ∧ (got = [] → in_.rest v = []) := by
  obtain ⟨in₁, hend, hok, hbuf, hrest, htell, hdr⟩ := end_buffering_spec h
  obtain ⟨got, s', hin, hok', hdr', happ, hlen, hnil⟩ := v.input hok.stream (hdr hs) h0 hsz
  have hleft := hok.left_none hbuf
  refine ⟨got, { in₁ with stream := s', stream_pos := in₁.stream_pos + got.length }, ?_,
    ⟨hok', fun _ hb => by simp [hbuf] at hb, hok.left_le⟩, hbuf, ⟨hleft, fun _ => hdr'⟩, ?_, ?_, hlen, fun hg => ?_⟩
  · simp only [gu_in_input, if_neg (Nat.ne_of_gt h0), hend, Exec.ok_bind, gu_ok_none, Bool.not_true, Bool.false_eq_true, if_false]
    unfold GuInStreamFuns.doInput at hin
    cases hf : S.input with
    | none =>
      simp only [hf, Except.ok.injEq, Prod.mk.injEq, and_true] at hin
      rw [← hin.1, ← hin.2]
      rfl
    | some f =>
      simp only [hf] at hin
      simp only [hin]
      rfl
  · rw [← hrest, rest_none hbuf, happ]
    congr 1
    symm
    exact rest_none hbuf
  · rw [← htell]
    simp only [gu_in_tell, hbuf, hleft, Option.getD_none, List.length_nil]
    omega
  · rw [← hrest, rest_none hbuf, hnil hg]

/-- Nothing is asked of the stream for an empty slice. -/
theorem input_zero (err : GuExn) : in_.gu_in_input S 0 err = .ok ([], in_, err) := rfl

theorem some_loop_spec {sz min_sz : Nat} (hmin : min_sz ≤ sz) (hsz : sz ≤ PTRDIFF_MAX) (n : Nat) (got : Bytes) (h : in_.Ok v)
    (hs : got.length < min_sz → in_.Spent v) (hgot : got.length ≤ sz) (hn : min_sz ≤ got.length + n) :
    ∃ more in', in_.gu_in_some_loop S sz min_sz n got none = .ok (got ++ more, in', none) ∧ in'.Ok v ∧
      in_.rest v = more ++ in'.rest v ∧ in'.gu_in_tell = in_.gu_in_tell + more.length ∧ (got ++ more).length ≤ sz ∧
      ((got ++ more).length < min_sz → in'.rest v = []) := by
  induction n generalizing got in_ with
  | zero =>
    have hlt : ¬ got.length < min_sz := by omega
    exact ⟨[], in_, by rw [gu_in_some_loop, if_neg hlt, List.append_nil], h, rfl, rfl, by simpa using hgot, by simp [hlt]⟩
  | succ n ih =>
    by_cases hlt : got.length < min_sz
    · obtain ⟨igot, in₁, hin, hok, -, hs₁, hrest, htell, hlen, hnil⟩ := input_spec h (hs hlt) (sz - got.length) (by omega)
        (by omega)
      cases igot with
      | nil =>
        have hend := hnil rfl
        refine ⟨[], in₁, ?_, hok, hrest, htell, by simpa using hgot, fun _ => ?_⟩
        · simp only [gu_in_some_loop, if_pos hlt, hin, Exec.ok_bind, List.length_nil, if_true, List.append_nil]
          rfl
        · simpa [hend] using hrest.symm
      | cons u us =>
        have hgot' : (got ++ u :: us).length ≤ sz := by
          rw [List.length_append]
          omega
        obtain ⟨more, in', hloop, hok', hrest', htell', hsz', hend⟩ := ih (got ++ u :: us) hok (fun _ => hs₁) hgot'
          (by rw [List.length_append, List.length_cons]; omega)
        refine ⟨u :: us ++ more, in', ?_, hok', ?_, ?_, ?_, ?_⟩
        · rw [gu_in_some_loop, if_pos hlt]
          simp only [hin, Exec.ok_bind, List.length_cons, Nat.succ_ne_zero, if_false, hloop, List.append_assoc]
        · rw [hrest, hrest', List.append_assoc]
        · rw [htell', htell, List.length_append, Nat.add_assoc]
        · rwa [← List.append_assoc]
        · rwa [← List.append_assoc]
    · exact ⟨[], in_, by rw [gu_in_some_loop, if_neg hlt, List.append_nil], h, rfl, rfl, by simpa using hgot, by simp [hlt]⟩

theorem some_spec (h : in_.Ok v) {sz min_sz : Nat} (hmin : min_sz ≤ sz) (hsz : sz ≤ PTRDIFF_MAX) :
    ∃ got in', in_.gu_in_some S sz min_sz none = .ok (got, in', none) ∧ in'.Ok v ∧ in_.rest v = got ++ in'.rest v ∧
      in'.gu_in_tell = in_.gu_in_tell + got.length ∧ got.length ≤ sz ∧ (got.length < min_sz → in'.rest v = []) := by
  obtain ⟨b, in₁, hb, hok, hrest, htell, htrue, hfalse⟩ := begin_buffering_spec h
  cases b with
  | true =>
    have hlen := hok.unread_length
    have htake : (in₁.unread.take (min sz in₁.left)).length = min sz in₁.left := by
      rw [List.length_take]
      omega
    obtain ⟨hok₂, hrest₂, htell₂⟩ := hok.advance (Nat.min_le_right sz in₁.left)
    have hspent : (in₁.unread.take (min sz in₁.left)).length < min_sz → (in₁.advance (min sz in₁.left)).Spent v := by
      intro hlt
      -- the whole buffer has been read
      have hgot : min sz in₁.left = in₁.left := by omega
      refine ⟨by simp [GuIn.advance, hgot], fun hnone => ?_⟩
      have := hok.left_none hnone
      have := htrue rfl
      omega
    obtain ⟨more, in', hloop, hok', hrest', htell', hsz', hend⟩ := some_loop_spec hmin hsz min_sz _ hok₂ hspent (by omega)
      (by omega)
    refine ⟨in₁.unread.take (min sz in₁.left) ++ more, in', ?_, hok', ?_, ?_, hsz', hend⟩
    · simp only [gu_in_some, Exec.require, hmin, hsz, if_true, Exec.ok_bind, hb, hloop]
    · rw [← hrest, hrest₂, hrest', List.append_assoc]
    · rw [htell', htell₂, htell, List.length_append, htake, Nat.add_assoc]
  | false =>
    obtain ⟨hnone, hs⟩ := hfalse rfl
    obtain ⟨more, in', hloop, hok', hrest', htell', hsz', hend⟩ := some_loop_spec hmin hsz min_sz [] hok (fun _ => hs)
      (Nat.zero_le _) (by simp)
    refine ⟨more, in', ?_, hok', hrest ▸ hrest', htell ▸ htell', hsz', hend⟩
    simp only [gu_in_some, Exec.require, hmin, hsz, if_true, Exec.ok_bind, hb, Bool.false_eq_true, if_false, gu_ok_none, Bool.not_true,
      hloop, List.nil_append]

theorem bytes_spec (h : in_.Ok v) {sz : Nat} (hsz : sz < PTRDIFF_MAX) :
    ∃ got in' err, in_.gu_in_bytes S sz none = .ok (got, in', err) ∧ in'.Ok v ∧ in_.rest v = got ++ in'.rest v ∧
      in'.gu_in_tell = in_.gu_in_tell + got.length ∧
      ((got.length = sz ∧ err = none) ∨ (got.length < sz ∧ in'.rest v = [] ∧ err = some .GuEOF)) := by
  by_cases hle : sz > in_.left
  · obtain ⟨got, in', hsome, hok, hrest, htell, hlen, hend⟩ := some_spec h (Nat.le_refl sz) (Nat.le_of_lt hsz)
    refine ⟨got, in', if got.length < sz then some .GuEOF else none, ?_, hok, hrest, htell, ?_⟩
    · simp only [gu_in_bytes, gu_in_bytes_, Exec.require, hsz, hle, if_true, Exec.ok_bind, hsome, gu_ok_none, Bool.not_true,
        Bool.false_eq_true, if_false, gu_raise_none, Exec.pure_eq]
    · by_cases hlt : got.length < sz
      · exact .inr ⟨hlt, hend hlt, if_pos hlt⟩
      · exact .inl ⟨by omega, if_neg hlt⟩
  · obtain ⟨hok, hrest, htell⟩ := h.advance (Nat.le_of_not_lt hle)
    have hlen : (in_.unread.take sz).length = sz := by
      rw [List.length_take, h.unread_length]
      omega
    refine ⟨in_.unread.take sz, in_.advance sz, none, ?_, hok, hrest, by rw [htell, hlen], .inl ⟨hlen, rfl⟩⟩
    simp only [gu_in_bytes, Exec.require, hsz, hle, if_true, if_false, Exec.ok_bind, Exec.pure_eq]

/-- The span is in the buffer of the caller, and has been read, or is borrowed, and may be read in part. -/
theorem span_spec (h : in_.Ok v) {req_sz : Nat} (hsz : req_sz ≤ PTRDIFF_MAX) :
    ∃ span fallback in', in_.gu_in_begin_span S req_sz none = .ok ((span, fallback), in', none) ∧ in'.Ok v ∧
      ((fallback = true ∧ in'.buf = none ∧ in'.Spent v ∧ in_.rest v = span ++ in'.rest v ∧ span.length ≤ req_sz ∧
          (0 < req_sz → span = [] → in_.rest v = []) ∧ in'.gu_in_tell = in_.gu_in_tell + span.length) ∨
        (fallback = false ∧ in'.gu_in_is_buffering = true ∧ span = in'.unread ∧ 0 < in'.left ∧ in'.rest v = in_.rest v ∧
          in'.gu_in_tell = in_.gu_in_tell)) := by
  obtain ⟨b, in₁, hb, hok, hrest, htell, htrue, hfalse⟩ := begin_buffering_spec h
  cases b with
  | true =>
    refine ⟨in₁.unread, false, in₁, ?_, hok, .inr ⟨rfl, ?_, rfl, htrue rfl, hrest, htell⟩⟩
    · simp only [gu_in_begin_span, hb, Exec.ok_bind, if_true, Exec.pure_eq]
    · have := htrue rfl
      cases hbuf : in₁.buf with
      | none =>
        have := hok.left_none hbuf
        omega
      | some buf => simp [gu_in_is_buffering, hbuf]
  | false =>
    obtain ⟨hnone, hs⟩ := hfalse rfl
    by_cases h0 : req_sz = 0
    · subst h0
      refine ⟨[], true, in₁, ?_, hok, .inl ⟨rfl, hnone, hs, hrest.symm, Nat.le_refl _, by simp, htell⟩⟩
      simp only [gu_in_begin_span, hb, Exec.ok_bind, Bool.false_eq_true, if_false, input_zero, Exec.pure_eq]
    · obtain ⟨got, in', hin, hok', hnone', hs', hrest', htell', hlen, hnil⟩ := input_spec hok hs _ (Nat.pos_of_ne_zero h0) hsz
      refine ⟨got, true, in', ?_, hok', .inl ⟨rfl, hnone', hs', hrest ▸ hrest', hlen, fun _ hg => hrest ▸ hnil hg, htell ▸ htell'⟩⟩
      simp only [gu_in_begin_span, hb, Exec.ok_bind, Bool.false_eq_true, if_false, hin, Exec.pure_eq]

theorem end_span_spec (hbuf : in_.gu_in_is_buffering = true) {n : Nat} (hn : n ≤ in_.left) :
    in_.gu_in_end_span n = .ok (in_.advance n) := by
  simp only [gu_in_end_span, hbuf, Bool.not_true, Bool.false_eq_true, if_false, Exec.require, hn, if_true, Exec.ok_bind, Exec.pure_eq]

/-- The next byte is in the buffer. -/
theorem unread_cons (h : in_.Ok v) (hleft : 0 < in_.left) :
    ∃ u, in_.unread[0]? = some u ∧ (in_.advance 1).Ok v ∧ in_.rest v = u :: (in_.advance 1).rest v ∧
      (in_.advance 1).gu_in_tell = in_.gu_in_tell + 1 := by
  obtain ⟨hok, hrest, htell⟩ := h.advance (n := 1) hleft
  cases hu : in_.unread with
  | nil =>
    have := h.unread_length
    rw [hu, List.length_nil] at this
    omega
  | cons u us =>
    rw [hu, List.take_succ_cons, List.take_zero] at hrest
    exact ⟨u, rfl, hok, hrest, htell⟩

theorem u8_spec (h : in_.Ok v) : (in_.rest v = [] ∧ ∃ in', in_.gu_in_u8 S none = .ok (0, in', some .GuEOF) ∧ in'.Ok v ∧ in'.rest v = [] ∧
      in'.gu_in_tell = in_.gu_in_tell) ∨
    ∃ u in', in_.gu_in_u8 S none = .ok (u, in', none) ∧ in'.Ok v ∧ in_.rest v = u :: in'.rest v ∧ in'.gu_in_tell = in_.gu_in_tell + 1 := by
  by_cases hleft : in_.left = 0
  · obtain ⟨b, in₁, hb, hok, hrest, htell, htrue, hfalse⟩ := begin_buffering_spec h
    cases b with
    | true =>
      obtain ⟨u, hu, hok', hrest', htell'⟩ := unread_cons hok (htrue rfl)
      refine .inr ⟨u, in₁.advance 1, ?_, hok', hrest ▸ hrest', htell ▸ htell'⟩
      simp only [gu_in_u8, if_pos hleft, gu_in_u8_, hb, Exec.ok_bind, Bool.true_and, decide_eq_true (htrue rfl), if_true, hu,
        Exec.deref_some, Exec.pure_eq]
    | false =>
      obtain ⟨-, hs⟩ := hfalse rfl
      obtain ⟨got, in', hin, hok', -, -, hrest', htell', hlen, hnil⟩ := input_spec hok hs 1 Nat.zero_lt_one (by decide)
      cases got with
      | nil =>
        have hend : in_.rest v = [] := hrest ▸ hnil rfl
        refine .inl ⟨hend, in', ?_, hok', ?_, by rw [htell', htell]; rfl⟩
        · simp only [gu_in_u8, if_pos hleft, gu_in_u8_, hb, Exec.ok_bind, Bool.false_and, Bool.false_eq_true, if_false, hin, gu_ok_none,
            if_true, gu_raise_none, Exec.pure_eq]
        · rw [← hrest, hrest'] at hend
          exact hend
      | cons u us =>
        obtain rfl : us = [] := by
          simpa using hlen
        refine .inr ⟨u, in', ?_, hok', by rw [← hrest, hrest']; rfl, by rw [htell', htell]; rfl⟩
        simp only [gu_in_u8, if_pos hleft, gu_in_u8_, hb, Exec.ok_bind, Bool.false_and, Bool.false_eq_true, if_false, hin, Exec.pure_eq]
  · obtain ⟨u, hu, hok', hrest', htell'⟩ := unread_cons h (Nat.pos_of_ne_zero hleft)
    refine .inr ⟨u, in_.advance 1, ?_, hok', hrest', htell'⟩
    simp only [gu_in_u8, if_neg hleft, hu, Exec.deref_some, Exec.ok_bind, Exec.pure_eq]

theorem peek_spec (h : in_.Ok v) : (in_.left = 0 ∧ in_.gu_in_peek_u8 = .ok none) ∨
    ∃ u, 0 < in_.left ∧ in_.gu_in_peek_u8 = .ok (some u) ∧ (in_.rest v).head? = some u := by
  by_cases hleft : in_.left = 0
  · exact .inl ⟨hleft, by rw [gu_in_peek_u8, if_pos hleft]⟩
  · obtain ⟨u, hu, -, hrest, -⟩ := unread_cons h (Nat.pos_of_ne_zero hleft)
    refine .inr ⟨u, Nat.pos_of_ne_zero hleft, ?_, by rw [hrest]; rfl⟩
    simp only [gu_in_peek_u8, if_neg hleft, hu, Exec.deref_some, Exec.ok_bind, Exec.pure_eq]

theorem consume_eq {n : Nat} (hn : n ≤ in_.left) : in_.gu_in_consume n = .ok (in_.advance n) := by
  simp only [gu_in_consume, Exec.require, hn, if_true, Exec.ok_bind, Exec.pure_eq]

end GuIn

end Libpgf
