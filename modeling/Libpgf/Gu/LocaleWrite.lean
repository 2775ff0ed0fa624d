import Libpgf.Gu.Text
/-!
# Writing in the encoding of the locale (`gu/write.c`)

The writer decodes the UTF-8 that it is given, and hands on what `wcsrtombs`
makes of the characters. Those without an encoding are replaced by question
marks. What is known of the locale is the encoding of each character: there are
no shift states. A `GuUCS` is a `wchar_t`, as `GU_UCS_WCHAR` says.
-/

namespace Libpgf

/-! ## The encoder of a locale -/

def MB_LEN_MAX : Nat := 16

structure LocaleEncoder where
  /-- The bytes of a character, if it has any in this encoding. -/
  wcrtomb : GuUCS → Option Bytes
  length_le : ∀ {c bs}, wcrtomb c = some bs → bs.length ≤ MB_LEN_MAX
  question : (wcrtomb 0x3f).isSome

/-- The characters before the null character. -/
def wcslen (src : List GuUCS) : Nat := (src.takeWhile (· ≠ 0)).length

namespace LocaleEncoder
variable (E : LocaleEncoder)

/-- A null character is behind the end of the list. The result -1 comes with the index of the character that has no encoding; another one
with the bytes stored, but for those of a null character, and with how many characters have been stored when `len` bytes were not enough. -/
def wcsrtombs : List GuUCS → Nat → Except Nat (Bytes × Option Nat)
  | [], len => .ok ([], if len = 0 then some 0 else none)
  | c :: src, len =>
    if c = 0 then .ok ([], if len = 0 then some 0 else none)
    else match E.wcrtomb c with
      | none => .error 0
      | some bs =>
        if len < bs.length then .ok ([], some 0)
        else match wcsrtombs src (len - bs.length) with
          | .error i => .error (i + 1)
          | .ok (dst, stop) => .ok (bs ++ dst, stop.map (· + 1))

end LocaleEncoder

/-! ## The writer -/

def GU_LOCALE_WRITER_BUF_SIZE : Nat := 4096

structure GuLocaleOutStream (σ : Type) where
  out : GuOut σ
  /-- Up to `ucs_buf_curr`. -/
  ucs_buf : List GuUCS

section Writer
variable (E : LocaleEncoder) {σ : Type} (S : GuOutStreamFuns σ)

/-- The call of `wcsrtombs`, and the loop that replaces characters, with a bound on its rounds: the characters from `src_orig` on, as they
are in the end, and the result for them. -/
def gu_locale_writer_encode : Nat → List GuUCS → Nat → Exec (List GuUCS × Bytes × Option Nat)
  | n, src, sz =>
    match E.wcsrtombs src sz with
    | .ok (dst, stop) => .ok (src, dst, stop)
    | .error i =>
      match n with
      | 0 => Exec.hang
      | n + 1 => gu_locale_writer_encode n (src.set i 0x3f) sz

/-- What a round of the loop of `gu_locale_writer_flush_ucs_buf` stores in a span of `sz` bytes, with the buffer and `src_curr` after it. -/
def gu_locale_writer_store (ucs_buf : List GuUCS) (src_curr sz : Nat) : Exec (List GuUCS × Bytes × Nat) := do
  let next := src_curr + wcslen (ucs_buf.drop src_curr)
  let (src, dst, stop) ← gu_locale_writer_encode E ucs_buf.length (ucs_buf.drop src_curr) sz
  let ucs_buf := ucs_buf.take src_curr ++ src
  match stop with
  | some k => return (ucs_buf, dst, src_curr + k)
  -- the null character counts, unless it is the one at the end
  | none => return (ucs_buf, if next + 1 ≤ ucs_buf.length then dst ++ [0] else dst, next + 1)

/-- The loop, with a bound on its rounds. -/
def gu_locale_writer_flush_loop : Nat → Nat → GuLocaleOutStream σ → GuExn → Exec (GuLocaleOutStream σ × GuExn)
  | n, src_curr, los, err =>
    if los.ucs_buf.length ≤ src_curr then .ok ({ los with ucs_buf := [] }, err)
    else match n with
      | 0 => Exec.hang
      | n + 1 => do
        let (span, out, err) ← los.out.gu_out_begin_span S ⟨none, MB_LEN_MAX + 1⟩ err
        if !gu_ok err then return ({ los with out }, err)
        let (ucs_buf, dst, src_curr) ← gu_locale_writer_store E los.ucs_buf src_curr span.sz
        let (out, err) ← out.gu_out_end_span S span.p dst err
        if !gu_ok err then return (⟨out, ucs_buf⟩, err)
        gu_locale_writer_flush_loop n src_curr ⟨out, ucs_buf⟩ err

def gu_locale_writer_flush_ucs_buf (los : GuLocaleOutStream σ) (err : GuExn) : Exec (GuLocaleOutStream σ × GuExn) :=
  gu_locale_writer_flush_loop E S los.ucs_buf.length 0 los err

def gu_locale_writer_flush (los : GuLocaleOutStream σ) (err : GuExn) : Exec (GuLocaleOutStream σ × GuExn) := do
  let (los, err) ← gu_locale_writer_flush_ucs_buf E S los err
  if !gu_ok err then return (los, err)
  let (out, err) ← los.out.gu_out_flush S err
  return ({ los with out }, err)

/-- The loop of `gu_locale_writer_output`, with a bound on how often the buffer is flushed. -/
def gu_locale_writer_output_loop : Nat → GuLocaleOutStream σ → Bytes → GuExn → Exec (GuLocaleOutStream σ × GuExn)
  | n, los, src, exn => do
    let (us, src) ← gu_utf8_decode_unsafe src (GU_LOCALE_WRITER_BUF_SIZE - los.ucs_buf.length)
    let los := { los with ucs_buf := los.ucs_buf ++ us }
    if src = [] then return (los, exn)
    match n with
    | 0 => Exec.hang
    | n + 1 =>
      let (los, exn) ← gu_locale_writer_flush_ucs_buf E S los exn
      if !gu_ok exn then return (los, exn)
      gu_locale_writer_output_loop n los src exn

/-- The size is that of no bytes, whatever is written. -/
def gu_locale_writer_output (los : GuLocaleOutStream σ) (utf8_src : Bytes) (exn : GuExn) : Exec (Nat × GuLocaleOutStream σ × GuExn) := do
  let (los, exn) ← gu_locale_writer_output_loop E S utf8_src.length los utf8_src exn
  return (0, los, exn)

def gu_locale_writer_out_funs : GuOutStreamFuns (GuLocaleOutStream σ) where
  begin_buf := none
  end_buf := none
  output := some (gu_locale_writer_output E S)
  flush := some (gu_locale_writer_flush E S)

end Writer

/-! ## What characters become -/

namespace LocaleEncoder
variable {E : LocaleEncoder}

variable (E) in
/-- What comes out for a character: its encoding, or else that of a question mark. -/
def encoded (c : GuUCS) : Bytes := if c = 0 then [0] else ((E.wcrtomb c).or (E.wcrtomb 0x3f)).getD []

theorem encoded_some {c : GuUCS} {bs : Bytes} (hc : c ≠ 0) (h : E.wcrtomb c = some bs) : E.encoded c = bs := by
  rw [encoded, if_neg hc, h, Option.some_or, Option.getD_some]

theorem encoded_none {c : GuUCS} (hc : c ≠ 0) (h : E.wcrtomb c = none) : E.encoded c = E.encoded 0x3f := by
  rw [encoded, if_neg hc, h, Option.none_or, encoded, if_neg (by decide), Option.or_self]

theorem wcsrtombs_error {src : List GuUCS} {len i : Nat} (h : E.wcsrtombs src len = .error i) :
    ∃ c, src[i]? = some c ∧ c ≠ 0 ∧ E.wcrtomb c = none := by
  induction src generalizing len i with
  | nil => cases h
  | cons c src ih =>
    rw [wcsrtombs] at h
    split_ifs at h with hc
    cases hbs : E.wcrtomb c with
    | none =>
      rw [hbs] at h
      obtain rfl := Except.error.inj h
      exact ⟨c, rfl, hc, hbs⟩
    | some bs =>
      simp only [hbs] at h
      split_ifs at h with hlt
      cases hrest : E.wcsrtombs src (len - bs.length) with
      | error j =>
        rw [hrest] at h
        obtain rfl := Except.error.inj h
        exact ih hrest
      | ok r =>
        rw [hrest] at h
        cases h

/-- What has been stored is the encoding of the first characters. They end in front of a null character, or where there is no room for one
more. -/
theorem wcsrtombs_ok {src : List GuUCS} {len : Nat} {dst : Bytes} {stop : Option Nat} (h : E.wcsrtombs src len = .ok (dst, stop)) :
    dst = (src.take (stop.getD (wcslen src))).flatMap E.encoded ∧ dst.length ≤ len ∧
      (∀ k, stop = some k → MB_LEN_MAX < len → src ≠ [] → 0 < k) ∧ (stop = none → dst.length < len) := by
  induction src generalizing len dst stop with
  | nil =>
    obtain ⟨rfl, rfl⟩ := Prod.mk.inj (Except.ok.inj h)
    refine ⟨by simp, Nat.zero_le _, fun _ _ _ hne => absurd rfl hne, fun hstop => ?_⟩
    split_ifs at hstop with h0
    exact Nat.pos_of_ne_zero h0
  | cons c src ih =>
    rw [wcsrtombs] at h
    by_cases hc : c = 0
    · rw [if_pos hc] at h
      obtain ⟨rfl, rfl⟩ := Prod.mk.inj (Except.ok.inj h)
      refine ⟨?_, Nat.zero_le _, fun k hk hlt _ => ?_, fun hstop => ?_⟩
      · split_ifs <;> simp [wcslen, hc]
      · rw [if_neg (Nat.ne_of_gt (Nat.zero_lt_of_lt hlt))] at hk
        cases hk
      · split_ifs at hstop with h0
        exact Nat.pos_of_ne_zero h0
    rw [if_neg hc] at h
    cases hbs : E.wcrtomb c with
    | none =>
      rw [hbs] at h
      cases h
    | some bs =>
      have hle := E.length_le hbs
      simp only [hbs] at h
      split_ifs at h with hlt
      · obtain ⟨rfl, rfl⟩ := Prod.mk.inj (Except.ok.inj h)
        exact ⟨rfl, Nat.zero_le _, fun k _ hmax _ => absurd hlt (by omega), fun hstop => by cases hstop⟩
      cases hrest : E.wcsrtombs src (len - bs.length) with
      | error j =>
        rw [hrest] at h
        cases h
      | ok r =>
        obtain ⟨dst', stop'⟩ := r
        rw [hrest] at h
        obtain ⟨rfl, rfl⟩ := Prod.mk.inj (Except.ok.inj h)
        obtain ⟨hdst, hlen, -, hnull⟩ := ih hrest
        have htake : (stop'.map (· + 1)).getD (wcslen (c :: src)) = stop'.getD (wcslen src) + 1 := by
          cases stop' with
          | none => simp [wcslen, hc]
          | some k => rfl
        refine ⟨?_, ?_, fun k hk _ _ => ?_, fun hstop => ?_⟩
        · rw [htake, List.take_succ_cons, List.flatMap_cons, encoded_some hc hbs, ← hdst]
        · rw [List.length_append]
          omega
        · obtain ⟨k', -, rfl⟩ := Option.map_eq_some_iff.1 hk
          exact Nat.succ_pos k'
        · have := hnull (Option.map_eq_none_iff.1 hstop)
          rw [List.length_append]
          omega

end LocaleEncoder

theorem wcslen_set {src : List GuUCS} {i : Nat} {c u : GuUCS} (h : src[i]? = some c) (hc : c ≠ 0) (hu : u ≠ 0) :
    wcslen (src.set i u) = wcslen src := by
  induction src generalizing i with
  | nil => rfl
  | cons d src ih =>
    cases i with
    | zero =>
      obtain rfl : d = c := by simpa using h
      simp [wcslen, hc, hu]
    | succ i =>
      have hrest := ih (by simpa using h)
      by_cases hd : d = 0
      · simp [wcslen, hd]
      · simpa [wcslen, hd] using hrest

section Encode
variable {E : LocaleEncoder}

/-- Each round leaves one character fewer without an encoding. What comes out stays the same. -/
theorem encode_settles {n : Nat} {src : List GuUCS} (sz : Nat) (hn : src.countP (fun c => (E.wcrtomb c).isNone) ≤ n) :
    ∃ src' dst stop, gu_locale_writer_encode E n src sz = .ok (src', dst, stop) ∧ E.wcsrtombs src' sz = .ok (dst, stop) ∧
      src'.map E.encoded = src.map E.encoded ∧ wcslen src' = wcslen src := by
  induction n generalizing src with
  | zero =>
    cases hrun : E.wcsrtombs src sz with
    | error i =>
      obtain ⟨c, hi, -, hnone⟩ := LocaleEncoder.wcsrtombs_error hrun
      have hzero := List.countP_eq_zero.1 (Nat.le_zero.1 hn) c (List.mem_of_getElem? hi)
      exact absurd (by rw [hnone]; rfl) hzero
    | ok r => exact ⟨src, r.1, r.2, by rw [gu_locale_writer_encode, hrun], hrun, rfl, rfl⟩
  | succ n ih =>
    cases hrun : E.wcsrtombs src sz with
    | error i =>
      obtain ⟨c, hi, hc, hnone⟩ := LocaleEncoder.wcsrtombs_error hrun
      obtain ⟨hlt, hget⟩ := List.getElem?_eq_some_iff.1 hi
      have hquestion : (E.wcrtomb 0x3f).isNone = false := by
        rw [← Option.not_isSome, E.question]
        rfl
      have hcount : (src.set i 0x3f).countP (fun c => (E.wcrtomb c).isNone) ≤ n := by
        rw [List.countP_set (h := hlt), hget, hnone, hquestion]
        simp
        omega
      obtain ⟨src', dst, stop, hrec, hok, hmap, hwcs⟩ := ih hcount
      refine ⟨src', dst, stop, ?_, hok, ?_, hwcs.trans (wcslen_set hi hc (by decide))⟩
      · rw [gu_locale_writer_encode, hrun]
        exact hrec
      · rw [hmap, List.map_set, ← LocaleEncoder.encoded_none hc hnone, ← hget,
          ← List.getElem_map E.encoded (h := by simpa using hlt), List.set_getElem_self]
    | ok r => exact ⟨src, r.1, r.2, by rw [gu_locale_writer_encode, hrun], hrun, rfl, rfl⟩

/-- The null character behind the others is there, or it is the one at the end. -/
theorem take_wcslen (src : List GuUCS) : (src.take (wcslen src + 1)).flatMap E.encoded =
    (src.take (wcslen src)).flatMap E.encoded ++ if wcslen src < src.length then [0] else [] := by
  induction src with
  | nil => rfl
  | cons c src ih =>
    by_cases hc : c = 0
    · simp [wcslen, LocaleEncoder.encoded, hc]
    · have hlen : wcslen (c :: src) = wcslen src + 1 := by simp [wcslen, hc]
      rw [hlen, List.take_succ_cons, List.take_succ_cons, List.flatMap_cons, List.flatMap_cons, ih, List.append_assoc, List.length_cons]
      simp only [Nat.add_lt_add_iff_right]

end Encode

/-! ## Flushing -/

/-- The view in which there is room for any number of bytes, where the stream leaves room for each. -/
def OutView.roomy {σ : Type} {W : Bytes → Prop} {init : Bytes} {S : GuOutStreamFuns σ} (v : OutView W init S) : OutView W init S where
  taken := v.taken
  sink := v.sink
  Ok s _ := ∀ n, v.Ok s n
  Lent := v.Lent
  whole h := v.whole (h 0)
  lent_le h := v.lent_le (h 0)
  less h _ := h
  begin_buf {f} hf s n req h _ := by
    obtain ⟨buf, s', hrun, hsz, -, htaken, hlent⟩ := v.begin_buf hf (h req) (Nat.le_refl req)
    refine ⟨buf, s', hrun, hsz, fun m => ?_, htaken, hlent⟩
    obtain ⟨buf', s'', hrun', -, hok, -⟩ := v.begin_buf hf (h (req + m)) (Nat.le_add_right req m)
    obtain ⟨-, rfl⟩ : buf = buf' ∧ s' = s'' := by simpa [hrun] using hrun'
    exact v.less hok (Nat.le_add_left m req)
  end_buf {s n sz w} h hl hle hw := by
    obtain ⟨s', hrun, -, htaken⟩ := v.end_buf (h (w.length + 0)) hl hle hw
    refine ⟨s', hrun, fun m => ?_, htaken⟩
    obtain ⟨s'', hrun', hok, -⟩ := v.end_buf (h (w.length + m)) hl hle hw
    obtain rfl : s' = s'' := by simpa [hrun] using hrun'
    exact hok
  output {s n src} h hsz hsrc := by
    obtain ⟨k, s', hrun, -, htaken⟩ := v.output (h (src.length + 0)) hsz hsrc
    refine ⟨k, s', hrun, fun m => ?_, htaken⟩
    obtain ⟨k', s'', hrun', hok, -⟩ := v.output (h (src.length + m)) hsz hsrc
    obtain ⟨-, rfl⟩ : k = k' ∧ s' = s'' := by simpa [hrun] using hrun'
    exact hok
  flush {s n} h := by
    obtain ⟨s', hrun, -, htaken, hsink⟩ := v.flush (h 0)
    refine ⟨s', hrun, fun m => ?_, htaken, hsink⟩
    obtain ⟨s'', hrun', hok, -⟩ := v.flush (h m)
    obtain rfl : s' = s'' := by simpa [hrun] using hrun'
    exact hok

section Flush
variable {E : LocaleEncoder} {σ : Type} {S : GuOutStreamFuns σ} {init : Bytes} {v : OutView (fun _ => True) init S} {out : GuOut σ}

theorem GuOut.roomy_more {n m : Nat} (h : out.Ok v.roomy n) : out.Ok v.roomy m := ⟨h.stream, h.lent, h.none_left, h.none_end, h.whole⟩

/-- Bytes that fit into a span are handed over with it. -/
theorem locale_span_spec {fallback : Nat} (hle : fallback ≤ PTRDIFF_MAX) (h : out.Ok v.roomy 0) :
    ∃ span out', out.gu_out_begin_span S ⟨none, fallback⟩ none = .ok (span, out', none) ∧ fallback ≤ span.sz ∧
      ∀ dst : Bytes, dst.length ≤ span.sz → ∃ out'', out'.gu_out_end_span S span.p dst none = .ok (out'', none) ∧
        out''.Ok v.roomy 0 ∧ out''.taken v.roomy = out.taken v.roomy ++ dst := by
  obtain ⟨span, out', hbegin, hok, htaken, hsz, hspan⟩ := GuOut.begin_span_spec any_blocks ⟨none, fallback⟩ (GuOut.roomy_more h)
    (Nat.le_refl fallback)
  have hmax : span.sz ≤ PTRDIFF_MAX := by
    rcases hspan with rfl | ⟨-, rfl⟩
    · exact hle
    · exact hok.left_le
  refine ⟨span, out', hbegin, hsz, fun dst hdst => ?_⟩
  obtain ⟨out'', hend, hok', htaken'⟩ := GuOut.end_span_spec any_blocks span.p dst (GuOut.roomy_more hok) (hdst.trans hmax) trivial
    (GuOut.not_overruns rfl hspan hdst)
  exact ⟨out'', hend, hok', by rw [htaken', htaken]⟩

/-- A round stores what comes out for some of the characters that are left, and for one of them at least. -/
theorem writer_store_spec {ucs_buf : List GuUCS} {src_curr sz : Nat} (hsz : MB_LEN_MAX < sz) (hlt : src_curr < ucs_buf.length) :
    ∃ ucs_buf' dst next, gu_locale_writer_store E ucs_buf src_curr sz = .ok (ucs_buf', dst, next) ∧ ucs_buf'.length = ucs_buf.length ∧
      src_curr < next ∧ dst.length ≤ sz ∧ dst ++ (ucs_buf'.drop next).flatMap E.encoded = (ucs_buf.drop src_curr).flatMap E.encoded := by
  have hcount : (ucs_buf.drop src_curr).countP (fun c => (E.wcrtomb c).isNone) ≤ ucs_buf.length :=
    List.countP_le_length.trans (by rw [List.length_drop]; exact Nat.sub_le _ _)
  obtain ⟨src, dst, stop, hrun, hok, hmap, hwcs⟩ := encode_settles sz hcount
  obtain ⟨hdst, hle, hpos, hnull⟩ := LocaleEncoder.wcsrtombs_ok hok
  have hsrc : src.length = ucs_buf.length - src_curr := by simpa using congrArg List.length hmap
  have hlen : (ucs_buf.take src_curr ++ src).length = ucs_buf.length := by
    rw [List.length_append, List.length_take]
    omega
  have hdrop : ∀ k, (ucs_buf.take src_curr ++ src).drop (src_curr + k) = src.drop k := fun k => by
    have hpre : (ucs_buf.take src_curr).length = src_curr := by
      rw [List.length_take]
      omega
    rw [List.drop_append, hpre, Nat.add_sub_cancel_left, List.drop_eq_nil_of_le (by omega), List.nil_append]
  have hall : src.flatMap E.encoded = (ucs_buf.drop src_curr).flatMap E.encoded := by
    rw [List.flatMap_def, hmap, ← List.flatMap_def]
  unfold gu_locale_writer_store
  simp only [hrun, Exec.ok_bind]
  cases stop with
  | some k =>
    refine ⟨_, _, _, rfl, hlen, ?_, hle, ?_⟩
    · have := hpos k rfl hsz (List.ne_nil_of_length_pos (by omega))
      omega
    · rw [hdrop, hdst, Option.getD_some, ← List.flatMap_append, List.take_append_drop, hall]
  | none =>
    refine ⟨_, _, _, rfl, hlen, by omega, ?_, ?_⟩
    · have := hnull rfl
      split_ifs
      · rw [List.length_append]
        exact this
      · exact hle
    · have hout : (if src_curr + wcslen (ucs_buf.drop src_curr) + 1 ≤ (ucs_buf.take src_curr ++ src).length then dst ++ [0] else dst) =
          (src.take (wcslen src + 1)).flatMap E.encoded := by
        rw [take_wcslen, ← Option.getD_none (a := wcslen src), ← hdst, hlen, hsrc, ← hwcs, Option.getD_none]
        split_ifs with hnext hend hend
        · rfl
        · omega
        · omega
        · rw [List.append_nil]
      rw [hout, Nat.add_assoc, hdrop, ← hwcs, ← List.flatMap_append, List.take_append_drop, hall]

theorem encoded_done {ucs_buf : List GuUCS} {src_curr : Nat} (h : ucs_buf.length ≤ src_curr) : (ucs_buf.drop src_curr).flatMap E.encoded = [] := by
  rw [List.drop_eq_nil_of_le h, List.flatMap_nil]

theorem flush_loop_spec {n src_curr : Nat} {los : GuLocaleOutStream σ} (h : los.out.Ok v.roomy 0) (hn : los.ucs_buf.length ≤ n + src_curr) :
    ∃ out', gu_locale_writer_flush_loop E S n src_curr los none = .ok (⟨out', []⟩, none) ∧ out'.Ok v.roomy 0 ∧
      out'.taken v.roomy = los.out.taken v.roomy ++ (los.ucs_buf.drop src_curr).flatMap E.encoded := by
  induction n generalizing src_curr los with
  | zero =>
    have hle : los.ucs_buf.length ≤ src_curr := by omega
    refine ⟨los.out, ?_, h, ?_⟩
    · rw [gu_locale_writer_flush_loop, if_pos hle]
    · rw [encoded_done hle, List.append_nil]
  | succ n ih =>
    rw [gu_locale_writer_flush_loop]
    by_cases hle : los.ucs_buf.length ≤ src_curr
    · exact ⟨los.out, if_pos hle, h, by rw [encoded_done hle, List.append_nil]⟩
    · obtain ⟨span, out₁, hbegin, hsz, hend⟩ := locale_span_spec (S := S) (by decide : MB_LEN_MAX + 1 ≤ PTRDIFF_MAX) h
      obtain ⟨ucs_buf, dst, next, hstore, hlen, hlt, hfit, hout⟩ := writer_store_spec (E := E) hsz (Nat.lt_of_not_le hle)
      obtain ⟨out₂, hspan, hok, htaken⟩ := hend dst hfit
      have hrounds : (⟨out₂, ucs_buf⟩ : GuLocaleOutStream σ).ucs_buf.length ≤ n + next := by
        show ucs_buf.length ≤ n + next
        omega
      obtain ⟨out', hrun, hok', htaken'⟩ := ih hok hrounds
      refine ⟨out', ?_, hok', ?_⟩
      · simp only [if_neg hle, hbegin, Exec.ok_bind, gu_ok_none, Bool.not_true, Bool.false_eq_true, if_false, hstore, hspan, hrun]
      · rw [htaken', htaken, List.append_assoc, hout]

end Flush

/-! ## Decoding -/

/-- The bytes from `k` to `k + m` are there, and it depends on no others. -/
theorem assemble_local {src : Bytes} {k m : Nat} {u w : GuUCS} (h : forEach (fun u i => do
      let c ← Exec.deref src[i]?
      return u <<< 6 ||| (c.toNat &&& 0x3f)) (List.range' k m) u = .ok w) :
    (0 < m → k + m ≤ src.length) ∧ ∀ src' : Bytes, (∀ i, i < k + m → src'[i]? = src[i]?) → forEach (fun u i => do
      let c ← Exec.deref src'[i]?
      return u <<< 6 ||| (c.toNat &&& 0x3f)) (List.range' k m) u = .ok w := by
  induction m generalizing k u with
  | zero => exact ⟨fun h0 => absurd h0 (Nat.lt_irrefl 0), fun _ _ => h⟩
  | succ m ih =>
    rw [List.range'_succ] at h
    obtain ⟨u₁, hround, h⟩ := Exec.bind_ok.1 h
    obtain ⟨c, hc, hu⟩ := Exec.bind_ok.1 hround
    rw [Exec.deref_ok] at hc
    obtain ⟨hlen, hlocal⟩ := ih h
    refine ⟨fun _ => ?_, fun src' hsrc => ?_⟩
    · have hk := (List.getElem?_eq_some_iff.1 hc).1
      rcases Nat.eq_zero_or_pos m with rfl | hm
      · omega
      · have := hlen hm
        omega
    · rw [List.range'_succ, forEach_cons, hsrc k (by omega), hc, Exec.deref_some, Exec.ok_bind, hu, Exec.ok_bind]
      exact hlocal src' fun i hi => hsrc i (by omega)

/-- A sequence is decoded without a look at what comes behind it. -/
theorem decode_one_local {src : Bytes} {len : Nat} {u : GuUCS} (h : gu_utf8_decode_one_unsafe src = .ok (len, u)) :
    ∃ seq rest, src = seq ++ rest ∧ seq.length = len ∧ ∀ rest', gu_utf8_decode_one_unsafe (seq ++ rest') = .ok (len, u) := by
  have main : 0 < len ∧ len ≤ src.length ∧
      ∀ src' : Bytes, (∀ i, i < len → src'[i]? = src[i]?) → gu_utf8_decode_one_unsafe src' = .ok (len, u) := by
    obtain ⟨c, hc, h⟩ := Exec.bind_ok.1 h
    rw [Exec.deref_ok] at hc
    have hpos := (List.getElem?_eq_some_iff.1 hc).1
    split_ifs at h with hascii
    · obtain ⟨rfl, rfl⟩ := Prod.mk.inj (Except.ok.inj h)
      refine ⟨Nat.one_pos, hpos, fun src' hsrc => ?_⟩
      unfold gu_utf8_decode_one_unsafe
      rw [hsrc 0 Nat.one_pos, hc, Exec.deref_some, Exec.ok_bind, if_pos hascii]
      rfl
    · obtain ⟨w, hw, h⟩ := Exec.bind_ok.1 h
      obtain ⟨rfl, rfl⟩ := Prod.mk.inj (Except.ok.inj h)
      obtain ⟨hlen, hlocal⟩ := assemble_local hw
      have hmore : 0 < gu_utf8_len c := by
        unfold gu_utf8_len
        split_ifs <;> decide
      refine ⟨Nat.succ_pos _, Nat.add_comm 1 _ ▸ hlen hmore, fun src' hsrc => ?_⟩
      have hw' : gu_utf8_assemble src' (gu_utf8_len c) (gu_utf8_mask c (gu_utf8_len c)) = .ok w :=
        hlocal src' fun i hi => hsrc i (by omega)
      unfold gu_utf8_decode_one_unsafe
      rw [hsrc 0 (Nat.succ_pos _), hc, Exec.deref_some, Exec.ok_bind, if_neg hascii]
      simp only [hw', Exec.ok_bind, Exec.pure_eq]
  obtain ⟨-, hle, hlocal⟩ := main
  have hlen : (src.take len).length = len := List.length_take_of_le hle
  refine ⟨src.take len, src.drop len, (List.take_append_drop len src).symm, hlen, fun rest' => hlocal _ fun i hi => ?_⟩
  rw [List.getElem?_append_left (hlen.symm ▸ hi), List.getElem?_take_of_lt hi]

/-- The bytes decode to the code points, whatever comes behind them. -/
def DecodesTo (src : Bytes) (us : List GuUCS) : Prop := ∀ rest, gu_utf8_decode_some us.length (src ++ rest) = .ok (us, rest)

theorem DecodesTo.nil : DecodesTo [] [] := fun _ => rfl

theorem DecodesTo.append {src src' : Bytes} {us us' : List GuUCS} (h : DecodesTo src us) (h' : DecodesTo src' us') :
    DecodesTo (src ++ src') (us ++ us') := by
  intro rest
  rw [List.append_assoc]
  have hstep := h (src' ++ rest)
  generalize src ++ (src' ++ rest) = text at hstep
  clear h
  induction us generalizing text with
  | nil =>
    obtain ⟨-, rfl⟩ := Prod.mk.inj (Except.ok.inj hstep)
    exact h' rest
  | cons u us ih =>
    rw [List.length_cons, gu_utf8_decode_some] at hstep
    obtain ⟨⟨len, u₁⟩, hone, hstep⟩ := Exec.bind_ok.1 hstep
    obtain ⟨⟨us₁, text'⟩, hsome, hstep⟩ := Exec.bind_ok.1 hstep
    obtain ⟨hus, rfl⟩ := Prod.mk.inj (Except.ok.inj hstep)
    obtain ⟨rfl, rfl⟩ := List.cons.inj hus
    rw [List.cons_append, List.length_cons, gu_utf8_decode_some]
    simp only [hone, Exec.ok_bind, ih _ hsome, Exec.pure_eq]

/-- The code points of a text are its characters. -/
theorem DecodesTo.codes {cs : List Char} {us : List GuUCS} (h : DecodesTo (utf8 cs) us) : us = codes cs := by
  induction cs generalizing us with
  | nil =>
    cases us with
    | nil => rfl
    | cons u us => cases h []
  | cons c cs ih =>
    cases us with
    | nil =>
      have hnil : utf8 (c :: cs) ++ [] = [] := (Prod.mk.inj (Except.ok.inj (h []))).2
      have hpos := utf8_length_pos c
      rw [List.append_nil, utf8_cons, List.append_eq_nil_iff] at hnil
      rw [hnil.1] at hpos
      cases hpos
    | cons u us =>
      have hrest : ∀ rest, u = c.toNat ∧ gu_utf8_decode_some us.length (utf8 cs ++ rest) = .ok (us, rest) := fun rest => by
        have hall := h rest
        rw [utf8_cons, List.append_assoc, List.length_cons, gu_utf8_decode_some, decode_one_unsafe_eq, Exec.ok_bind] at hall
        simp only [List.drop_left] at hall
        obtain ⟨⟨us', rest'⟩, hsome, heq⟩ := Exec.bind_ok.1 hall
        obtain ⟨hus, rfl⟩ := Prod.mk.inj (Except.ok.inj heq)
        obtain ⟨rfl, rfl⟩ := List.cons.inj hus
        exact ⟨rfl, hsome⟩
      rw [codes_cons, (hrest []).1, ih fun rest => (hrest rest).2]

theorem decode_some_local {n : Nat} {src rest : Bytes} {us : List GuUCS} (h : gu_utf8_decode_some n src = .ok (us, rest)) :
    us.length = n ∧ ∃ text, src = text ++ rest ∧ DecodesTo text us := by
  induction n generalizing src us with
  | zero =>
    obtain ⟨rfl, rfl⟩ := Prod.mk.inj (Except.ok.inj h)
    exact ⟨rfl, [], rfl, .nil⟩
  | succ n ih =>
    rw [gu_utf8_decode_some] at h
    obtain ⟨⟨len, u⟩, hone, h⟩ := Exec.bind_ok.1 h
    obtain ⟨⟨us', rest'⟩, hsome, h⟩ := Exec.bind_ok.1 h
    obtain ⟨rfl, rfl⟩ := Prod.mk.inj (Except.ok.inj h)
    obtain ⟨seq, src', rfl, rfl, hseq⟩ := decode_one_local hone
    simp only [List.drop_left] at hsome
    obtain ⟨rfl, text, rfl, htext⟩ := ih hsome
    refine ⟨rfl, seq ++ text, (List.append_assoc _ _ _).symm, fun rest => ?_⟩
    rw [List.length_cons, gu_utf8_decode_some, List.append_assoc, hseq, Exec.ok_bind]
    simp only [List.drop_left, htext rest, Exec.ok_bind, Exec.pure_eq]

/-- What is decoded fits, and the rest is left. -/
theorem decode_loop_local {n dst_rem : Nat} {src rest : Bytes} {us : List GuUCS} (h : gu_utf8_decode_loop n src dst_rem = .ok (us, rest)) :
    us.length ≤ dst_rem ∧ ∃ text, src = text ++ rest ∧ DecodesTo text us := by
  induction n generalizing src us dst_rem with
  | zero =>
    rw [gu_utf8_decode_loop] at h
    split_ifs at h with h0
    · obtain ⟨rfl, rfl⟩ := Prod.mk.inj (Except.ok.inj h)
      exact ⟨Nat.zero_le _, [], rfl, .nil⟩
    · cases h
  | succ n ih =>
    rw [gu_utf8_decode_loop] at h
    split_ifs at h with h0
    · obtain ⟨rfl, rfl⟩ := Prod.mk.inj (Except.ok.inj h)
      exact ⟨Nat.zero_le _, [], rfl, .nil⟩
    · obtain ⟨⟨us₁, src₁⟩, hsome, h⟩ := Exec.bind_ok.1 h
      obtain ⟨⟨us₂, src₂⟩, hloop, h⟩ := Exec.bind_ok.1 h
      obtain ⟨rfl, rfl⟩ := Prod.mk.inj (Except.ok.inj h)
      obtain ⟨hlen₁, text₁, rfl, htext₁⟩ := decode_some_local hsome
      obtain ⟨hlen₂, text₂, rfl, htext₂⟩ := ih hloop
      refine ⟨?_, text₁ ++ text₂, (List.append_assoc _ _ _).symm, htext₁.append htext₂⟩
      rw [List.length_append]
      omega

/-! ## Writing -/

/-- The bytes are what comes out for the text. -/
def LocaleEncoder.Converts (E : LocaleEncoder) (text bytes : Bytes) : Prop := ∃ us, DecodesTo text us ∧ bytes = us.flatMap E.encoded

namespace LocaleEncoder
variable {E : LocaleEncoder} {text text' bytes bytes' : Bytes}

theorem Converts.nil : E.Converts [] [] := ⟨[], .nil, rfl⟩

theorem Converts.append (h : E.Converts text bytes) (h' : E.Converts text' bytes') : E.Converts (text ++ text') (bytes ++ bytes') := by
  obtain ⟨us, hus, rfl⟩ := h
  obtain ⟨us', hus', rfl⟩ := h'
  exact ⟨us ++ us', hus.append hus', List.flatMap_append.symm⟩

end LocaleEncoder

section Output
variable {E : LocaleEncoder} {σ : Type} {S : GuOutStreamFuns σ} {init : Bytes} {v : OutView (fun _ => True) init S}
  {los los' : GuLocaleOutStream σ} {err : GuExn}

namespace GuLocaleOutStream

structure Ok (v : OutView (fun _ => True) init S) (los : GuLocaleOutStream σ) : Prop where
  room : los.out.Ok v.roomy 0
  fits : los.ucs_buf.length ≤ GU_LOCALE_WRITER_BUF_SIZE

/-- What has been written, as it comes out. -/
def taken (v : OutView (fun _ => True) init S) (E : LocaleEncoder) (los : GuLocaleOutStream σ) : Bytes :=
  los.out.taken v ++ los.ucs_buf.flatMap E.encoded

end GuLocaleOutStream

theorem flush_ucs_buf_spec (h : los.out.Ok v.roomy 0) : ∃ out', gu_locale_writer_flush_ucs_buf E S los none = .ok (⟨out', []⟩, none) ∧
    out'.Ok v.roomy 0 ∧ out'.taken v = los.taken v E :=
  flush_loop_spec h (Nat.le_refl _)

theorem locale_flush_spec (h : los.Ok v) : ∃ los', gu_locale_writer_flush E S los none = .ok (los', none) ∧ los'.Ok v ∧
    los'.taken v E = los.taken v E ∧ v.sink los'.out.stream = los.taken v E := by
  obtain ⟨out₁, hbuf, hok, htaken⟩ := flush_ucs_buf_spec (E := E) h.room
  obtain ⟨out₂, hflush, hok', htaken', hsink⟩ := GuOut.flush_spec any_blocks hok
  refine ⟨⟨out₂, []⟩, ?_, ⟨hok', Nat.zero_le _⟩, ?_, hsink.trans htaken⟩
  · simp only [gu_locale_writer_flush, hbuf, Exec.ok_bind, gu_ok_none, Bool.not_true, Bool.false_eq_true, if_false, hflush, Exec.pure_eq]
  · rw [GuLocaleOutStream.taken, List.flatMap_nil, List.append_nil]
    exact htaken'.trans htaken

theorem decode_taken {src rest : Bytes} {us : List GuUCS} (hlos : los.Ok v)
    (h : gu_utf8_decode_unsafe src (GU_LOCALE_WRITER_BUF_SIZE - los.ucs_buf.length) = .ok (us, rest)) :
    GuLocaleOutStream.Ok v { los with ucs_buf := los.ucs_buf ++ us } ∧ ∃ text bytes, src = text ++ rest ∧ E.Converts text bytes ∧
      GuLocaleOutStream.taken v E { los with ucs_buf := los.ucs_buf ++ us } = los.taken v E ++ bytes := by
  obtain ⟨hlen, text, hsrc, htext⟩ := decode_loop_local h
  have hfits := hlos.fits
  refine ⟨⟨hlos.room, ?_⟩, text, us.flatMap E.encoded, hsrc, ⟨us, htext, rfl⟩, ?_⟩
  · rw [List.length_append]
    omega
  · rw [GuLocaleOutStream.taken, GuLocaleOutStream.taken, List.flatMap_append, List.append_assoc]

/-- A call of the loop writes all of the text, or it flushes the full buffer and goes on with what is left. -/
theorem output_loop_cases {n : Nat} {src : Bytes} (hlos : los.Ok v) (h : gu_locale_writer_output_loop E S n los src none = .ok (los', err)) :
    (err = none ∧ los'.Ok v ∧ ∃ bytes, E.Converts src bytes ∧ los'.taken v E = los.taken v E ++ bytes) ∨
      ∃ m out text rest bytes, n = m + 1 ∧ src = text ++ rest ∧ E.Converts text bytes ∧ out.Ok v.roomy 0 ∧
        out.taken v = los.taken v E ++ bytes ∧ gu_locale_writer_output_loop E S m ⟨out, []⟩ rest none = .ok (los', err) := by
  unfold gu_locale_writer_output_loop at h
  obtain ⟨⟨us, rest⟩, hdecode, hstep⟩ := Exec.bind_ok.1 h
  obtain ⟨hok, text, bytes, rfl, hconv, htaken⟩ := decode_taken (E := E) hlos hdecode
  simp only at hstep
  split_ifs at hstep with hrest
  · obtain ⟨rfl, rfl⟩ := Prod.mk.inj (Except.ok.inj hstep)
    rw [hrest, List.append_nil]
    exact .inl ⟨rfl, hok, bytes, hconv, htaken⟩
  cases n with
  | zero => cases hstep
  | succ m =>
    obtain ⟨out, hflush, hok', htaken'⟩ := flush_ucs_buf_spec (E := E) hok.room
    simp only [hflush, Exec.ok_bind, gu_ok_none, Bool.not_true, Bool.false_eq_true, if_false] at hstep
    exact .inr ⟨m, out, text, rest, bytes, rfl, rfl, hconv, hok', htaken'.trans htaken, hstep⟩

theorem output_loop_ok {n : Nat} {src : Bytes} (hlos : los.Ok v) (h : gu_locale_writer_output_loop E S n los src none = .ok (los', err)) :
    err = none ∧ los'.Ok v ∧ ∃ bytes, E.Converts src bytes ∧ los'.taken v E = los.taken v E ++ bytes := by
  induction n generalizing los src with
  | zero =>
    rcases output_loop_cases hlos h with hdone | ⟨m, -, -, -, -, h0, -⟩
    · exact hdone
    · cases h0
  | succ n ih =>
    rcases output_loop_cases hlos h with hdone | ⟨m, out, text, rest, bytes, hm, rfl, hconv, hok, htaken, hrec⟩
    · exact hdone
    · obtain rfl := Nat.succ.inj hm
      obtain ⟨rfl, hok', bytes', hconv', htaken'⟩ := ih ⟨hok, Nat.zero_le _⟩ hrec
      refine ⟨rfl, hok', bytes ++ bytes', hconv.append hconv', ?_⟩
      rw [htaken', GuLocaleOutStream.taken, List.flatMap_nil, List.append_nil, htaken, List.append_assoc]

/-- What is written is the text, in the encoding of the locale. -/
theorem locale_output_ok {k : Nat} {src : Bytes} (hlos : los.Ok v) (h : gu_locale_writer_output E S los src none = .ok (k, los', err)) :
    err = none ∧ los'.Ok v ∧ ∃ bytes, E.Converts src bytes ∧ los'.taken v E = los.taken v E ++ bytes := by
  obtain ⟨⟨los₁, err₁⟩, hloop, h⟩ := Exec.bind_ok.1 h
  obtain ⟨-, rfl, rfl⟩ : 0 = k ∧ los₁ = los' ∧ err₁ = err := by simpa using h
  exact output_loop_ok hlos hloop

theorem length_le_utf8 (cs : List Char) : cs.length ≤ (utf8 cs).length := by
  induction cs with
  | nil => exact Nat.le_refl 0
  | cons c cs ih =>
    have hpos := utf8_length_pos c
    rw [List.length_cons, utf8_cons, List.length_append]
    omega

/-- A text that fits into the buffer stays there. -/
theorem output_loop_fits {n : Nat} {cs : List Char} (hfit : cs.length ≤ GU_LOCALE_WRITER_BUF_SIZE - los.ucs_buf.length) :
    gu_locale_writer_output_loop E S n los (utf8 cs) none = .ok ({ los with ucs_buf := los.ucs_buf ++ codes cs }, none) := by
  have hdecode : gu_utf8_decode_unsafe (utf8 cs) (GU_LOCALE_WRITER_BUF_SIZE - los.ucs_buf.length) = .ok (codes cs, []) := by
    unfold gu_utf8_decode_unsafe
    rw [decode_loop_spec (Nat.le_refl _), List.take_of_length_le hfit, List.drop_eq_nil_of_le hfit, utf8_nil]
  rw [gu_locale_writer_output_loop, hdecode]
  simp only [Exec.ok_bind, if_true, Exec.pure_eq]

/-- Each flush of a full buffer is followed by one character at least. -/
theorem output_loop_text {n : Nat} {cs : List Char} (hlos : los.Ok v) (hn : cs.length ≤ n ∨ (los.ucs_buf = [] ∧ cs.length ≤ n + 1)) :
    ∃ los', gu_locale_writer_output_loop E S n los (utf8 cs) none = .ok (los', none) := by
  induction n generalizing los cs with
  | zero =>
    refine ⟨_, output_loop_fits ?_⟩
    rcases hn with hn | ⟨hnil, hn⟩
    · exact hn.trans (Nat.zero_le _)
    · rw [hnil]
      exact hn.trans (by decide)
  | succ n ih =>
    by_cases hfit : cs.length ≤ GU_LOCALE_WRITER_BUF_SIZE - los.ucs_buf.length
    · exact ⟨_, output_loop_fits hfit⟩
    · have hdecode : gu_utf8_decode_loop _ (utf8 cs) _ = .ok (codes (cs.take _), utf8 (cs.drop _)) :=
        decode_loop_spec (Nat.le_refl (GU_LOCALE_WRITER_BUF_SIZE - los.ucs_buf.length))
      obtain ⟨hok, -⟩ := decode_taken (E := E) hlos hdecode
      obtain ⟨out', hflush, hok', -⟩ := flush_ucs_buf_spec (E := E) hok.room
      have hrest : (cs.drop (GU_LOCALE_WRITER_BUF_SIZE - los.ucs_buf.length)).length ≤ n + 1 := by
        rw [List.length_drop]
        rcases hn with hn | ⟨hnil, hn⟩
        · omega
        · have hroom : GU_LOCALE_WRITER_BUF_SIZE - los.ucs_buf.length = 4096 := by rw [hnil]; rfl
          omega
      have hne : utf8 (cs.drop (GU_LOCALE_WRITER_BUF_SIZE - los.ucs_buf.length)) ≠ [] := fun hnil => by
        have hdrop := utf8_eq_nil _ (List.length_eq_zero_iff.2 hnil)
        exact hfit (List.drop_eq_nil_iff.1 hdrop)
      have hlos' : GuLocaleOutStream.Ok v ⟨out', []⟩ := ⟨hok', Nat.zero_le _⟩
      obtain ⟨los', hrun⟩ := ih hlos' (.inr ⟨rfl, hrest⟩)
      refine ⟨los', ?_⟩
      unfold gu_locale_writer_output_loop gu_utf8_decode_unsafe
      rw [hdecode]
      simp only [Exec.ok_bind, if_neg hne, hflush, gu_ok_none, Bool.not_true, Bool.false_eq_true, if_false, hrun]

/-- A text is written to its end, as its characters come out. -/
theorem locale_output_text (hlos : los.Ok v) (cs : List Char) : ∃ los', gu_locale_writer_output E S los (utf8 cs) none = .ok (0, los', none) ∧
    los'.Ok v ∧ los'.taken v E = los.taken v E ++ (codes cs).flatMap E.encoded := by
  obtain ⟨los', hrun⟩ := output_loop_text (E := E) hlos (.inl (length_le_utf8 cs))
  have hout : gu_locale_writer_output E S los (utf8 cs) none = .ok (0, los', none) := by
    rw [gu_locale_writer_output, hrun]
    rfl
  obtain ⟨-, hok, bytes, ⟨us, hus, rfl⟩, htaken⟩ := locale_output_ok hlos hout
  rw [hus.codes] at htaken
  exact ⟨los', hout, hok, htaken⟩

/-! ## The calls of a writer -/

theorem locale_writer_flush_eq : (gu_init_out los).gu_out_flush (gu_locale_writer_out_funs E S) none =
    gu_locale_writer_flush E S los none >>= fun r => .ok (gu_init_out r.1, r.2) := rfl

end Output

end Libpgf
