import Libpgf.Gu.InLaws
/-!
# Stacks of input streams

A slice of memory, a file, a buffer over another stream and a proxy have views,
so that whatever is stacked up delivers the bytes of the source: nothing is
lost, and nothing comes twice.
-/

namespace Libpgf

/-! ## Views of the streams -/

def dataView : InView gu_data_in_funs where
  rest s := s
  Ok _ := True
  Lent s buf := s = buf
  Drained s := s = []
  lent_rest _ hl := hl ▸ List.prefix_refl _
  no_buffer h := by cases h
  begin_buffer {f} hf s _ := by
    cases hf
    exact ⟨s, s, rfl, trivial, rfl, id, fun _ => rfl⟩
  end_buffer {s buf n} _ hl hn := by
    subst hl
    exact ⟨s.drop n, rfl, trivial, rfl, fun h => by rw [h, List.drop_length]⟩
  input {s sz} _ hd _ _ := ⟨[], s, rfl, trivial, hd, rfl, Nat.zero_le _, fun _ => hd⟩

def fileView : InView gu_file_in_funs where
  rest s := s.file
  Ok _ := True
  Lent _ _ := False
  Drained _ := True
  lent_rest _ hl := hl.elim
  no_buffer _ _ _ := trivial
  begin_buffer hf := by cases hf
  end_buffer _ hl := hl.elim
  input {s sz} _ _ h0 _ := by
    refine ⟨s.file.take (min sz (max 1 (s.chunks 0))), _, rfl, trivial, trivial, (List.take_append_drop _ _).symm, ?_, fun h => ?_⟩
    · rw [List.length_take]
      omega
    · rw [List.take_eq_nil_iff] at h
      exact h.resolve_left (by omega)

section Over
variable {σ : Type} {S : GuInStreamFuns σ} {v : InView S}

theorem proxy_begin_buffer {in_ : GuIn σ} (h : in_.Ok v) : ∃ buf in', gu_proxy_in_begin_buffer S in_ none = .ok (buf, in', none) ∧ in'.Ok v ∧
    in'.rest v = in_.rest v ∧ (buf ≠ [] → in'.gu_in_is_buffering = true ∧ buf = in'.unread) := by
  obtain ⟨span, fallback, in', hspan, hok, hcase⟩ := GuIn.span_spec h (Nat.zero_le PTRDIFF_MAX)
  refine ⟨span, in', ?_, hok, ?_, fun hne => ?_⟩
  · simp only [gu_proxy_in_begin_buffer, hspan, Exec.ok_bind, Exec.pure_eq]
  · rcases hcase with ⟨-, -, -, hrest, hlen, -⟩ | ⟨-, -, -, -, hrest, -⟩
    · obtain rfl := List.length_eq_zero_iff.1 (Nat.le_zero.1 hlen)
      exact hrest.symm
    · exact hrest
  · rcases hcase with ⟨-, -, -, -, hlen, -⟩ | ⟨-, hbuf, hun, -⟩
    · exact absurd (List.length_eq_zero_iff.1 (Nat.le_zero.1 hlen)) hne
    · exact ⟨hbuf, hun⟩

theorem proxy_end_buffer {in_ : GuIn σ} {buf : Bytes} {n : Nat} (h : in_.Ok v) (hl : in_.gu_in_is_buffering = true ∧ buf = in_.unread)
    (hn : n ≤ buf.length) : ∃ in', (gu_proxy_in_funs S).endBuffer in_ n none = .ok (in', none) ∧ in'.Ok v ∧
      in'.rest v = (in_.rest v).drop n := by
  obtain ⟨hbuf, rfl⟩ := hl
  rw [h.unread_length] at hn
  obtain ⟨hok, hrest, -⟩ := h.advance hn
  refine ⟨in_.advance n, ?_, hok, ?_⟩
  · simp only [GuInStreamFuns.endBuffer, gu_proxy_in_funs, gu_proxy_in_end_buffer, GuIn.end_span_spec hbuf hn, Exec.ok_bind, Exec.pure_eq]
  · have hlen : (in_.unread.take n).length = n := by
      rw [List.length_take, h.unread_length]
      omega
    rw [hrest, List.drop_left' hlen]

theorem proxy_input {in_ : GuIn σ} {sz : Nat} (h : in_.Ok v) (h0 : 0 < sz) (hsz : sz ≤ PTRDIFF_MAX) :
    ∃ got in', (gu_proxy_in_funs S).doInput in_ sz none = .ok (got, in', none) ∧ in'.Ok v ∧ in_.rest v = got ++ in'.rest v ∧
      got.length ≤ sz ∧ (got = [] → in_.rest v = []) := by
  obtain ⟨got, in', hsome, hok, hrest, -, hlen, hend⟩ := GuIn.some_spec h h0 hsz
  refine ⟨got, in', hsome, hok, hrest, hlen, fun hg => ?_⟩
  subst hg
  simpa [hend Nat.zero_lt_one] using hrest

/-- A proxy lends what is unread of the buffer below. -/
def proxyView (v : InView S) : InView (gu_proxy_in_funs S) where
  rest in_ := in_.rest v
  Ok in_ := in_.Ok v
  Lent in_ buf := in_.gu_in_is_buffering = true ∧ buf = in_.unread
  Drained _ := True
  lent_rest _ hl := hl.2 ▸ List.prefix_append _ _
  no_buffer _ _ _ := trivial
  begin_buffer {f} hf in_ h := by
    cases hf
    obtain ⟨buf, in', hrun, hok, hrest, hlent⟩ := proxy_begin_buffer h
    exact ⟨buf, in', hrun, hok, hrest, fun _ => trivial, hlent⟩
  end_buffer {in_ buf n} h hl hn := by
    obtain ⟨in', hrun, hok, hrest⟩ := proxy_end_buffer h hl hn
    exact ⟨in', hrun, hok, hrest, fun _ => trivial⟩
  input {in_ sz} h _ h0 hsz := by
    obtain ⟨got, in', hrun, hok, hrest, hlen, hnil⟩ := proxy_input h h0 hsz
    exact ⟨got, in', hrun, hok, trivial, hrest, hlen, hnil⟩

/-- The invariant of a buffer over a `GuIn`. -/
structure BufferedOk (v : InView S) (bis : GuBufferedInStream σ) : Prop where
  in_ok : bis.in_.Ok v
  curr_le : bis.curr ≤ bis.buf.length
  alloc_pos : 0 < bis.alloc
  alloc_le : bis.alloc ≤ PTRDIFF_MAX

/-- What is unread of the buffer, and what is to come from below. -/
def GuBufferedInStream.rest (v : InView S) (bis : GuBufferedInStream σ) : Bytes := bis.buf.drop bis.curr ++ bis.in_.rest v

variable {bis : GuBufferedInStream σ}

theorem buffered_begin_buffer (h : BufferedOk v bis) : ∃ buf bis', gu_buffered_in_begin_buffer S bis none = .ok (buf, bis', none) ∧
    BufferedOk v bis' ∧ bis'.rest v = bis.rest v ∧ (buf = [] → bis'.curr = bis'.buf.length) ∧ buf = bis'.buf.drop bis'.curr := by
  by_cases hc : bis.curr = bis.buf.length
  · obtain ⟨got, in', hsome, hok', hrest, -, -, hend⟩ := GuIn.some_spec h.in_ok h.alloc_pos h.alloc_le
    refine ⟨got, { bis with buf := got, curr := 0, in_ := in' }, ?_, ⟨hok', Nat.zero_le _, h.alloc_pos, h.alloc_le⟩, ?_, fun hg => ?_, rfl⟩
    · simp only [gu_buffered_in_begin_buffer, if_pos hc, hsome, Exec.ok_bind, gu_ok_none, if_true, Exec.pure_eq]
    · rw [GuBufferedInStream.rest, GuBufferedInStream.rest, hc, List.drop_length, hrest]
      rfl
    · rw [hg]
      rfl
  · refine ⟨bis.buf.drop bis.curr, bis, ?_, h, rfl, fun hg => ?_, rfl⟩
    · rw [gu_buffered_in_begin_buffer, if_neg hc]
    · have hcurr := h.curr_le
      rw [List.drop_eq_nil_iff] at hg
      omega

theorem buffered_end_buffer {n : Nat} (h : BufferedOk v bis) (hn : n ≤ (bis.buf.drop bis.curr).length) :
    ∃ bis', (gu_buffered_in_funs S).endBuffer bis n none = .ok (bis', none) ∧ BufferedOk v bis' ∧ bis'.rest v = (bis.rest v).drop n ∧
      (n = (bis.buf.drop bis.curr).length → bis'.curr = bis'.buf.length) := by
  have hcurr := h.curr_le
  rw [List.length_drop] at hn ⊢
  refine ⟨{ bis with curr := bis.curr + n }, ?_, ⟨h.in_ok, show bis.curr + n ≤ bis.buf.length by omega, h.alloc_pos, h.alloc_le⟩, ?_,
    fun hlen => ?_⟩
  · simp only [GuInStreamFuns.endBuffer, gu_buffered_in_funs, gu_buffered_in_end_buffer, Exec.require, hn, if_true, Exec.ok_bind,
      Exec.pure_eq]
  · rw [GuBufferedInStream.rest, GuBufferedInStream.rest, List.drop_append_of_le_length (by rw [List.length_drop]; exact hn),
      List.drop_drop]
  · show bis.curr + n = bis.buf.length
    omega

theorem buffered_input {sz : Nat} (h : BufferedOk v bis) (hd : bis.curr = bis.buf.length) (h0 : 0 < sz) (hsz : sz ≤ PTRDIFF_MAX) :
    ∃ got bis', (gu_buffered_in_funs S).doInput bis sz none = .ok (got, bis', none) ∧ BufferedOk v bis' ∧ bis'.curr = bis'.buf.length ∧
      bis.rest v = got ++ bis'.rest v ∧ got.length ≤ sz ∧ (got = [] → bis.rest v = []) := by
  obtain ⟨got, in', hsome, hok', hrest, -, hlen, hend⟩ := GuIn.some_spec h.in_ok h0 hsz
  have hnil : bis.buf.drop bis.curr = [] := by rw [hd, List.drop_length]
  have hrest' : bis.rest v = got ++ in'.rest v := by rw [GuBufferedInStream.rest, hnil, List.nil_append, hrest]
  refine ⟨got, { bis with in_ := in' }, ?_, ⟨hok', h.curr_le, h.alloc_pos, h.alloc_le⟩, hd, ?_, hlen, fun hg => ?_⟩
  · simp only [GuInStreamFuns.doInput, gu_buffered_in_funs, gu_buffered_in_input, hsome, Exec.ok_bind, Exec.pure_eq]
  · rw [hrest', GuBufferedInStream.rest, hnil, List.nil_append]
  · subst hg
    rw [hrest', hend Nat.zero_lt_one]
    rfl

/-- A buffer lends what it has, and fills itself when all of that has been read. -/
def bufferedView (v : InView S) : InView (gu_buffered_in_funs S) where
  rest bis := bis.rest v
  Ok bis := BufferedOk v bis
  Lent bis buf := buf = bis.buf.drop bis.curr
  Drained bis := bis.curr = bis.buf.length
  lent_rest _ hl := hl ▸ List.prefix_append _ _
  no_buffer h := by cases h
  begin_buffer {f} hf bis h := by
    cases hf
    obtain ⟨buf, bis', hrun, hok, hrest, hnil, hlent⟩ := buffered_begin_buffer h
    exact ⟨buf, bis', hrun, hok, hrest, hnil, fun _ => hlent⟩
  end_buffer {bis buf n} h hl hn := by
    subst hl
    exact buffered_end_buffer h hn
  input h hd h0 hsz := buffered_input h hd h0 hsz

end Over

/-! ## Stacks -/

/-- Streams stacked up over a source of bytes. -/
inductive InStack : {σ : Type} → GuInStreamFuns σ → GuIn σ → Bytes → Prop
  | data (src : Bytes) : InStack gu_data_in_funs (gu_data_in src) src
  | file (src : Bytes) (chunks : Nat → Nat) : InStack gu_file_in_funs (gu_file_in src chunks) src
  | buffered {σ : Type} {S : GuInStreamFuns σ} {in_ : GuIn σ} {src : Bytes} (h : InStack S in_ src) {buf_sz : Nat} (h0 : 0 < buf_sz)
      (hsz : buf_sz ≤ PTRDIFF_MAX) : InStack (gu_buffered_in_funs S) (gu_new_buffered_in in_ buf_sz) src
  | proxy {σ : Type} {S : GuInStreamFuns σ} {in_ : GuIn σ} {src : Bytes} (h : InStack S in_ src) :
      InStack (gu_proxy_in_funs S) (gu_init_in (gu_in_proxy_stream in_)) src

theorem InStack.tell {σ : Type} {S : GuInStreamFuns σ} {in_ : GuIn σ} {src : Bytes} (h : InStack S in_ src) : in_.gu_in_tell = 0 := by
  cases h <;> rfl

/-- What is to come from the top of a stack is the source. -/
theorem InStack.view {σ : Type} {S : GuInStreamFuns σ} {in_ : GuIn σ} {src : Bytes} (h : InStack S in_ src) :
    ∃ v : InView S, in_.Ok v ∧ in_.rest v = src := by
  induction h with
  | data src => exact ⟨dataView, GuIn.init_ok trivial, GuIn.init_rest _⟩
  | file src chunks => exact ⟨fileView, GuIn.init_ok trivial, GuIn.init_rest _⟩
  | buffered _ h0 hsz ih =>
    obtain ⟨v, hok, rfl⟩ := ih
    exact ⟨bufferedView v, GuIn.init_ok (BufferedOk.mk hok (Nat.le_refl _) h0 hsz), GuIn.init_rest _⟩
  | proxy _ ih =>
    obtain ⟨v, hok, rfl⟩ := ih
    exact ⟨proxyView v, GuIn.init_ok hok, GuIn.init_rest _⟩

/-! ## Operations -/

/-- What a client does with the top of the stack. -/
inductive GuInOp where
  | in_u8
  | in_peek_u8
  /-- `gu_in_peek_u8`, and `gu_in_consume` of the byte that it shows. -/
  | in_consume
  | in_bytes (sz : Nat)
  | in_some (sz min_sz : Nat)
  /-- A span of which `consumed` bytes are consumed, or all of it when there are fewer or it is in the fallback buffer. -/
  | in_span (req_sz consumed : Nat)

/-- What the code requires of sizes. -/
def GuInOp.Fits : GuInOp → Prop
  | .in_bytes sz => sz < PTRDIFF_MAX
  | .in_some sz min_sz => min_sz ≤ sz ∧ sz ≤ PTRDIFF_MAX
  | .in_span req_sz _ => req_sz ≤ PTRDIFF_MAX
  | _ => True

/-- The bytes that an operation delivers. -/
def GuInOp.run {σ : Type} (S : GuInStreamFuns σ) (op : GuInOp) (in_ : GuIn σ) : Exec (Bytes × GuIn σ × GuExn) :=
  match op with
  | .in_u8 => do
    let (u, in_, err) ← in_.gu_in_u8 S none
    return (if gu_ok err then [u] else [], in_, err)
  | .in_peek_u8 => do
    let _ ← in_.gu_in_peek_u8
    return ([], in_, none)
  | .in_consume => do
    let u ← in_.gu_in_peek_u8
    match u with
    | none => return ([], in_, none)
    | some u =>
      let in_ ← in_.gu_in_consume 1
      return ([u], in_, none)
  | .in_bytes sz => in_.gu_in_bytes S sz none
  | .in_some sz min_sz => in_.gu_in_some S sz min_sz none
  | .in_span req_sz consumed => do
    let ((span, fallback), in_, err) ← in_.gu_in_begin_span S req_sz none
    let consumed := if fallback then span.length else min consumed span.length
    let in_ ← in_.gu_in_end_span consumed
    return (span.take consumed, in_, err)

/-- What an operation may deliver when the bytes `rem` are still to come. -/
def GuInOp.Delivers (op : GuInOp) (rem got : Bytes) (err : GuExn) : Prop :=
  match op with
  | .in_u8 => (rem.length < 1 ∧ err = some .GuEOF) ∨ (1 ≤ rem.length ∧ got = rem.take 1 ∧ err = none)
  | .in_peek_u8 => got = [] ∧ err = none
  | .in_consume => got <+: rem ∧ got.length ≤ 1 ∧ err = none
  | .in_bytes sz => (rem.length < sz ∧ err = some .GuEOF) ∨ (sz ≤ rem.length ∧ got = rem.take sz ∧ err = none)
  | .in_some sz min_sz => got <+: rem ∧ got.length ≤ sz ∧ (got.length < min_sz ↔ rem.length < min_sz) ∧ err = none
  | .in_span _ _ => got <+: rem ∧ err = none

section Run
variable {σ : Type} {S : GuInStreamFuns σ} {v : InView S} {in_ : GuIn σ}

theorem op_spec (h : in_.Ok v) {op : GuInOp} (hfit : op.Fits) : ∃ got in' err, op.run S in_ = .ok (got, in', err) ∧ in'.Ok v ∧
    op.Delivers (in_.rest v) got err ∧
    (err = none → in_.rest v = got ++ in'.rest v ∧ in'.gu_in_tell = in_.gu_in_tell + got.length) := by
  cases op with
  | in_u8 =>
    rcases GuIn.u8_spec h with ⟨hend, in', hu, hok, -, -⟩ | ⟨u, in', hu, hok, hrest, htell⟩
    · refine ⟨[], in', some .GuEOF, ?_, hok, .inl ⟨by rw [hend]; exact Nat.zero_lt_one, rfl⟩, by simp⟩
      simp only [GuInOp.run, hu, Exec.ok_bind, gu_ok_some, Bool.false_eq_true, if_false, Exec.pure_eq]
    · refine ⟨[u], in', none, ?_, hok, .inr ⟨by rw [hrest]; simp, by rw [hrest]; rfl, rfl⟩, fun _ => ⟨hrest, htell⟩⟩
      simp only [GuInOp.run, hu, Exec.ok_bind, gu_ok_none, if_true, Exec.pure_eq]
  | in_peek_u8 =>
    have hrun : GuInOp.in_peek_u8.run S in_ = .ok ([], in_, none) := by
      rcases GuIn.peek_spec h with ⟨-, hp⟩ | ⟨u, -, hp, -⟩ <;> simp only [GuInOp.run, hp, Exec.ok_bind, Exec.pure_eq]
    exact ⟨[], in_, none, hrun, h, ⟨rfl, rfl⟩, fun _ => ⟨rfl, rfl⟩⟩
  | in_consume =>
    rcases GuIn.peek_spec h with ⟨-, hp⟩ | ⟨u, hleft, hp, hhead⟩
    · refine ⟨[], in_, none, ?_, h, ⟨List.nil_prefix, Nat.zero_le _, rfl⟩, fun _ => ⟨rfl, rfl⟩⟩
      simp only [GuInOp.run, hp, Exec.ok_bind, Exec.pure_eq]
    · obtain ⟨u', -, hok, hrest, htell⟩ := GuIn.unread_cons h hleft
      obtain rfl : u = u' := by simpa [hrest] using hhead.symm
      refine ⟨[u], in_.advance 1, none, ?_, hok, ⟨⟨_, hrest.symm⟩, Nat.le_refl _, rfl⟩, fun _ => ⟨hrest, htell⟩⟩
      simp only [GuInOp.run, hp, Exec.ok_bind, GuIn.consume_eq hleft, Exec.pure_eq]
  | in_bytes sz =>
    obtain ⟨got, in', err, hrun, hok, hrest, htell, hcase⟩ := GuIn.bytes_spec h hfit
    refine ⟨got, in', err, hrun, hok, ?_, fun _ => ⟨hrest, htell⟩⟩
    rcases hcase with ⟨hlen, herr⟩ | ⟨hlt, hend, herr⟩
    · refine .inr ⟨?_, ?_, herr⟩
      · rw [hrest, List.length_append]
        omega
      · rw [hrest, List.take_left' hlen]
    · refine .inl ⟨?_, herr⟩
      rw [hrest, hend, List.append_nil]
      exact hlt
  | in_some sz min_sz =>
    obtain ⟨got, in', hrun, hok, hrest, htell, hlen, hend⟩ := GuIn.some_spec h hfit.1 hfit.2
    refine ⟨got, in', none, hrun, hok, ⟨⟨_, hrest.symm⟩, hlen, ⟨fun hlt => ?_, fun hlt => ?_⟩, rfl⟩, fun _ => ⟨hrest, htell⟩⟩
    · rw [hrest, hend hlt, List.append_nil]
      exact hlt
    · rw [hrest, List.length_append] at hlt
      omega
  | in_span req_sz consumed =>
    obtain ⟨span, fallback, in₁, hspan, hok, hcase⟩ := GuIn.span_spec h hfit
    rcases hcase with ⟨rfl, hnone, -, hrest, -, -, htell⟩ | ⟨rfl, hbuf, rfl, hleft, hrest, htell⟩
    · refine ⟨span, in₁, none, ?_, hok, ⟨⟨_, hrest.symm⟩, rfl⟩, fun _ => ⟨hrest, htell⟩⟩
      have hend : in₁.gu_in_end_span span.length = .ok in₁ := by simp [GuIn.gu_in_end_span, GuIn.gu_in_is_buffering, hnone]
      simp only [GuInOp.run, hspan, Exec.ok_bind, if_true, hend, List.take_length, Exec.pure_eq]
    · have hle : min consumed in₁.unread.length ≤ in₁.left := by
        rw [hok.unread_length]
        exact Nat.min_le_right _ _
      have hlen : (in₁.unread.take (min consumed in₁.unread.length)).length = min consumed in₁.unread.length := by
        rw [List.length_take]
        omega
      obtain ⟨hok', hrest', htell'⟩ := hok.advance hle
      rw [hrest] at hrest'
      refine ⟨in₁.unread.take (min consumed in₁.unread.length), in₁.advance (min consumed in₁.unread.length), none, ?_, hok',
        ⟨⟨_, hrest'.symm⟩, rfl⟩, fun _ => ⟨hrest', ?_⟩⟩
      · simp only [GuInOp.run, hspan, Exec.ok_bind, Bool.false_eq_true, if_false, GuIn.end_span_spec hbuf hle, Exec.pure_eq]
      · rw [htell', htell, hlen]

end Run

/-! ## Runs -/

/-- The top of a stack after operations that raised no exception, and the bytes that are still to come. -/
inductive InReach {σ : Type} (S : GuInStreamFuns σ) : GuIn σ → Bytes → Prop
  | start {in_ : GuIn σ} {src : Bytes} (h : InStack S in_ src) : InReach S in_ src
  | op {in_ in' : GuIn σ} {rem got : Bytes} (h : InReach S in_ rem) (op : GuInOp) (hfit : op.Fits)
      (hrun : op.run S in_ = .ok (got, in', none)) : InReach S in' (rem.drop got.length)

theorem InReach.view {σ : Type} {S : GuInStreamFuns σ} {in_ : GuIn σ} {rem : Bytes} (h : InReach S in_ rem) :
    ∃ v : InView S, in_.Ok v ∧ in_.rest v = rem := by
  induction h with
  | start h => exact h.view
  | op _ _ hfit hrun ih =>
    obtain ⟨v, hok, rfl⟩ := ih
    obtain ⟨got, in', err, hrun', hok', -, hrest⟩ := op_spec hok hfit
    rw [hrun] at hrun'
    cases hrun'
    exact ⟨v, hok', by rw [(hrest rfl).1, List.drop_left]⟩

/-- An operation that has been made: where the client stood before and after, and what was delivered. -/
structure GuInEvent where
  op : GuInOp
  before : Nat
  after : Nat
  got : Bytes
  err : GuExn

/-- Makes the operations in turn, up to the first that raises an exception. -/
def GuIn.runOps {σ : Type} (S : GuInStreamFuns σ) : List GuInOp → GuIn σ → Exec (List GuInEvent)
  | [], _ => .ok []
  | op :: ops, in_ => do
    let (got, in', err) ← op.run S in_
    let event := ⟨op, in_.gu_in_tell, in'.gu_in_tell, got, err⟩
    if !gu_ok err then return [event]
    let events ← runOps S ops in'
    return event :: events

/-- The bytes of the operations that raised no exception. -/
def delivered (events : List GuInEvent) : Bytes := (events.filter fun e => gu_ok e.err).flatMap GuInEvent.got

/-- The operations take the bytes `rem` from the place `pos` on. -/
def Exact : Nat → Bytes → List GuInEvent → Prop
  | _, _, [] => True
  | pos, rem, e :: es => e.before = pos ∧ e.op.Delivers rem e.got e.err ∧
      (e.err = none → e.got <+: rem ∧ e.after = pos + e.got.length ∧ Exact e.after (rem.drop e.got.length) es) ∧ (e.err ≠ none → es = [])

theorem runOps_exact {σ : Type} {S : GuInStreamFuns σ} {v : InView S} {in_ : GuIn σ} (h : in_.Ok v) {ops : List GuInOp}
    (hfit : ∀ op ∈ ops, op.Fits) : ∃ events, in_.runOps S ops = .ok events ∧ Exact in_.gu_in_tell (in_.rest v) events := by
  induction ops generalizing in_ with
  | nil => exact ⟨[], rfl, trivial⟩
  | cons op ops ih =>
    obtain ⟨got, in', err, hrun, hok, hdel, hrest⟩ := op_spec h (hfit op List.mem_cons_self)
    cases err with
    | some type =>
      refine ⟨[⟨op, in_.gu_in_tell, in'.gu_in_tell, got, some type⟩], ?_, rfl, hdel, by simp, fun _ => rfl⟩
      simp only [GuIn.runOps, hrun, Exec.ok_bind, gu_ok_some, Bool.not_false, if_true, Exec.pure_eq]
    | none =>
      obtain ⟨hrest, htell⟩ := hrest rfl
      obtain ⟨events, hevents, hexact⟩ := ih hok fun op hop => hfit op (List.mem_cons_of_mem _ hop)
      refine ⟨⟨op, in_.gu_in_tell, in'.gu_in_tell, got, none⟩ :: events, ?_, rfl, hdel, fun _ => ⟨⟨_, hrest.symm⟩, htell, ?_⟩,
        fun hne => absurd rfl hne⟩
      · simp only [GuIn.runOps, hrun, Exec.ok_bind, gu_ok_none, Bool.not_true, Bool.false_eq_true, if_false, hevents, Exec.pure_eq]
      · simp only [hrest, List.drop_left]
        exact hexact

theorem Exact.prefix {pos : Nat} {rem : Bytes} {events : List GuInEvent} (h : Exact pos rem events) : delivered events <+: rem := by
  induction events generalizing pos rem with
  | nil => exact List.nil_prefix
  | cons e es ih =>
    obtain ⟨-, -, hok, hend⟩ := h
    cases herr : e.err with
    | some type => simp [delivered, herr, hend (by simp [herr])]
    | none =>
      obtain ⟨⟨after, rfl⟩, -, hexact⟩ := hok herr
      rw [List.drop_left] at hexact
      have heq : delivered (e :: es) = e.got ++ delivered es := by simp [delivered, herr]
      rw [heq]
      exact (List.prefix_append_right_inj _).2 (ih hexact)

/-- What the top of a stack delivers is a prefix of the source, up to the first exception; every operation sees the rest of the
source. -/
theorem in_exact {σ : Type} {S : GuInStreamFuns σ} {in_ : GuIn σ} {src : Bytes} (h : InStack S in_ src) {ops : List GuInOp}
    (hfit : ∀ op ∈ ops, op.Fits) :
    ∃ events, in_.runOps S ops = .ok events ∧ delivered events <+: src ∧ Exact 0 src events := by
  obtain ⟨v, hok, hrest⟩ := h.view
  obtain ⟨events, hrun, hexact⟩ := runOps_exact hok hfit
  rw [h.tell, hrest] at hexact
  exact ⟨events, hrun, hexact.prefix, hexact⟩

/-- A proxy over a buffer of two bytes over a file that comes in single bytes. -/
theorem in_exact_abc : ∃ events, (gu_init_in (gu_in_proxy_stream (gu_new_buffered_in (gu_file_in [97, 98, 99] fun _ => 1) 2))).runOps
      (gu_proxy_in_funs (gu_buffered_in_funs gu_file_in_funs)) [.in_u8, .in_some 2 1, .in_span 2 1, .in_u8] = .ok events ∧
    delivered events <+: [97, 98, 99] ∧ Exact 0 [97, 98, 99] events :=
  in_exact (.proxy (.buffered (.file _ _) (by decide) (by decide))) (by simp [GuInOp.Fits, PTRDIFF_MAX])

end Libpgf
