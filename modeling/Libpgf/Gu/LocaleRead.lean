import Libpgf.Gu.Text
import Libpgf.Lib.Settles
/-!
# Reading in the encoding of the locale (`gu/read.c`)

The reader takes bytes from another `GuIn`, decodes them with `mbrtowc`, and
gives them out as UTF-8. What is known of the locale is what its decoder does
with each byte.

A request of `n` bytes decodes a quarter as many. The array for the characters
is of a fixed size, and a request may be larger than it.
-/

namespace Libpgf

namespace Locale

open String (utf8EncodeChar)

/-! ## The decoder of a locale -/

/-- What a byte does: it is wrong, or it leaves a sequence incomplete, or it completes one. -/
inductive Fed where
  | error
  | more
  | char (c : Char)

structure LocaleDecoder (ps : Type) where
  start : ps
  feed : ps → UInt8 → ps × Fed

/-- The results -1 and -2 of `mbrtowc`, and a character with the number of bytes that complete it. -/
inductive Mbrtowc (ps : Type) where
  | error (p : ps)
  | incomplete (p : ps)
  | complete (c : Char) (len : Nat) (p : ps)

namespace LocaleDecoder
variable {ps : Type} (D : LocaleDecoder ps)

def mbrtowc : ps → Bytes → Mbrtowc ps
  | p, [] => .incomplete p
  | p, b :: mbs =>
    match D.feed p b with
    | (p, .error) => .error p
    | (p, .char c) => .complete c 1 p
    | (p, .more) =>
      match mbrtowc p mbs with
      | .complete c len p => .complete c (len + 1) p
      | r => r

/-- All the characters that bytes complete. There are none when one of the bytes is wrong. -/
def run : ps → Bytes → Option (List Char × ps)
  | p, [] => some ([], p)
  | p, b :: mbs =>
    match D.feed p b with
    | (_, .error) => none
    | (p, .more) => run p mbs
    | (p, .char c) => (run p mbs).map fun r => (c :: r.1, r.2)

/-- `mbrtowc` does not tell how many bytes complete a null character. It is one byte, unless the locale has shift sequences. -/
def NulAlone : Prop := ∀ {p mbs len q}, D.mbrtowc p mbs = .complete (Char.ofNat 0) len q → len = 1

end LocaleDecoder

/-! ## The reader -/

def BUF_SIZE : Nat := 1024

structure GuLocaleInStream (σ ps : Type) where
  in_ : GuIn σ
  ps : ps
  failed : Bool
  /-- From `utf8_frag_cur` to `utf8_frag_end`. -/
  utf8_frag : Bytes

/-- How the loop over a span is left. -/
inductive Decoded (ps : Type) where
  /-- `goto read_again` -/
  | again (p : ps)
  | error (p : ps)
  | ucs (ucs_buf : List GuUCS) (p : ps) (failed : Bool)

section Reader
variable {σ ps : Type} (S : GuInStreamFuns σ) (D : LocaleDecoder ps)

/-- The loop, with a bound on its rounds. `mbs` is from `mbs_cur` to `mbs_len`. -/
def gu_locale_decode : Nat → Bytes → ps → List GuUCS → Exec (Decoded ps)
  | _, [], p, ucs_buf => .ok (.ucs ucs_buf p false)
  | 0, _ :: _, _, _ => Exec.hang
  | n + 1, b :: mbs, p, ucs_buf =>
    match D.mbrtowc p (b :: mbs) with
    | .incomplete p => if ucs_buf = [] then .ok (.again p) else .ok (.ucs ucs_buf p false)
    | .error p => if ucs_buf = [] then .ok (.error p) else .ok (.ucs ucs_buf p true)
    | .complete c len p => do
      -- a write beyond the end of the array
      Exec.require (ucs_buf.length < BUF_SIZE)
      let ret := if c = Char.ofNat 0 then 1 else len
      gu_locale_decode n ((b :: mbs).drop ret) p (ucs_buf ++ [c.toNat])

/-- What follows the loop: the bytes for the caller, and the new fragment. -/
def gu_locale_encode (ucs_buf : List GuUCS) (sz : Nat) : Exec (Bytes × Bytes) := do
  let (dst, ucs) ← gu_utf8_encode ucs_buf sz
  if ucs = [] then return (dst, [])
  Exec.require (ucs.length = 1)
  let dst_rem := sz - dst.length
  Exec.require (dst_rem < 4)
  let (utf8_frag, ucs) ← gu_utf8_encode ucs 4
  Exec.require (ucs = [])
  Exec.require (utf8_frag.length > dst_rem)
  return (dst ++ utf8_frag.take dst_rem, utf8_frag.drop dst_rem)

def mbs_max (sz : Nat) : Nat := (sz + 3) / 4

/-- From `read_again` on, with a bound on the rounds. -/
def gu_locale_read_again : Nat → GuLocaleInStream σ ps → Nat → GuExn → Exec (Bytes × GuLocaleInStream σ ps × GuExn)
  | n, lis, sz, err => do
    let (span, in_, err) ← lis.in_.gu_in_begin_span S (min (mbs_max sz) BUF_SIZE) err
    if !gu_ok err then return ([], { lis with in_ }, err)
    let mbs := span.1.take (mbs_max sz)
    let decoded ← gu_locale_decode D mbs.length mbs lis.ps []
    let in_ ← in_.gu_in_end_span mbs.length
    match decoded with
    | .again ps =>
      match n with
      | 0 => Exec.hang
      | n + 1 => gu_locale_read_again n { lis with in_, ps } sz err
    | .error ps => return ([], { lis with in_, ps }, gu_raise err .GuUCSExn)
    | .ucs ucs_buf ps failed =>
      let (dst, utf8_frag) ← gu_locale_encode ucs_buf sz
      return (dst, { in_, ps, failed, utf8_frag }, err)

def gu_locale_reader_input (n : Nat) (lis : GuLocaleInStream σ ps) (sz : Nat) (err : GuExn) :
    Exec (Bytes × GuLocaleInStream σ ps × GuExn) :=
  if lis.utf8_frag.length ≠ 0 then
    let clen := min lis.utf8_frag.length sz
    .ok (lis.utf8_frag.take clen, { lis with utf8_frag := lis.utf8_frag.drop clen }, err)
  else if lis.failed then .ok ([], lis, gu_raise err .GuUCSExn)
  else gu_locale_read_again S D n lis sz err

def gu_new_locale_reader (locale_in : GuIn σ) : GuLocaleInStream σ ps := ⟨locale_in, D.start, false, []⟩

end Reader

/-! ## Decoding a span -/

namespace LocaleDecoder
variable {ps : Type} {D : LocaleDecoder ps}

/-- Bytes may be decoded in two parts. -/
theorem run_append {a b : Bytes} {p p' : ps} {cs : List Char} (h : D.run p (a ++ b) = some (cs, p')) :
    ∃ cs₁ p₁ cs₂, D.run p a = some (cs₁, p₁) ∧ D.run p₁ b = some (cs₂, p') ∧ cs = cs₁ ++ cs₂ := by
  induction a generalizing p cs with
  | nil => exact ⟨[], p, cs, rfl, h, rfl⟩
  | cons u a ih =>
    rw [List.cons_append, run] at h
    rcases hfeed : D.feed p u with ⟨q, fed⟩
    rw [hfeed] at h
    cases fed with
    | error => exact absurd h (by simp)
    | more =>
      obtain ⟨cs₁, p₁, cs₂, h₁, h₂, rfl⟩ := ih h
      exact ⟨cs₁, p₁, cs₂, by rw [run, hfeed]; exact h₁, h₂, rfl⟩
    | char c =>
      obtain ⟨⟨ds, q'⟩, hr, heq⟩ := Option.map_eq_some_iff.1 h
      obtain ⟨rfl, rfl⟩ := Prod.mk.inj heq
      obtain ⟨cs₁, p₁, cs₂, h₁, h₂, rfl⟩ := ih hr
      refine ⟨c :: cs₁, p₁, cs₂, ?_, h₂, rfl⟩
      rw [run, hfeed]
      simp only [h₁, Option.map_some]

/-- A byte completes one character at most. -/
theorem run_length {mbs : Bytes} {p p' : ps} {cs : List Char} (h : D.run p mbs = some (cs, p')) : cs.length ≤ mbs.length := by
  induction mbs generalizing p cs with
  | nil =>
    obtain ⟨rfl, -⟩ := Prod.mk.inj (Option.some.inj h)
    exact Nat.le_refl _
  | cons u mbs ih =>
    rw [run] at h
    rcases hfeed : D.feed p u with ⟨q, fed⟩
    rw [hfeed] at h
    cases fed with
    | error => exact absurd h (by simp)
    | more => exact (ih h).trans (Nat.le_succ _)
    | char c =>
      obtain ⟨⟨ds, q'⟩, hr, heq⟩ := Option.map_eq_some_iff.1 h
      obtain ⟨rfl, rfl⟩ := Prod.mk.inj heq
      exact Nat.succ_le_succ (ih hr)

theorem mbrtowc_incomplete {mbs : Bytes} {p p' : ps} (h : D.run p mbs = some ([], p')) : D.mbrtowc p mbs = .incomplete p' := by
  induction mbs generalizing p with
  | nil =>
    obtain ⟨-, rfl⟩ := Prod.mk.inj (Option.some.inj h)
    rfl
  | cons u mbs ih =>
    rw [run] at h
    rw [mbrtowc]
    rcases hfeed : D.feed p u with ⟨q, fed⟩
    rw [hfeed] at h
    cases fed with
    | error => exact absurd h (by simp)
    | more => simp only [ih h]
    | char c =>
      obtain ⟨r, -, heq⟩ := Option.map_eq_some_iff.1 h
      exact absurd (Prod.mk.inj heq).1 (List.cons_ne_nil _ _)

/-- `mbrtowc` finds the first character. -/
theorem mbrtowc_complete {mbs : Bytes} {p p' : ps} {c : Char} {cs : List Char} (h : D.run p mbs = some (c :: cs, p')) :
    ∃ len q, D.mbrtowc p mbs = .complete c len q ∧ 0 < len ∧ D.run q (mbs.drop len) = some (cs, p') := by
  induction mbs generalizing p with
  | nil => exact absurd (Prod.mk.inj (Option.some.inj h)).1.symm (List.cons_ne_nil _ _)
  | cons u mbs ih =>
    rw [run] at h
    rw [mbrtowc]
    rcases hfeed : D.feed p u with ⟨q, fed⟩
    rw [hfeed] at h
    cases fed with
    | error => exact absurd h (by simp)
    | more =>
      obtain ⟨len, q', hm, -, hrun⟩ := ih h
      exact ⟨len + 1, q', by simp only [hm], Nat.succ_pos _, hrun⟩
    | char d =>
      obtain ⟨⟨ds, q'⟩, hr, heq⟩ := Option.map_eq_some_iff.1 h
      obtain ⟨hcs, rfl⟩ := Prod.mk.inj heq
      obtain ⟨rfl, rfl⟩ := List.cons.inj hcs
      exact ⟨1, q, rfl, Nat.one_pos, hr⟩

end LocaleDecoder

section Decode
variable {ps : Type} {D : LocaleDecoder ps} {n : Nat} {mbs : Bytes} {p p' : ps} {cs : List Char} {ucs_buf : List GuUCS}

/-- One round of the loop. -/
theorem decode_round (hnul : D.NulAlone) {c : Char} (h : D.run p mbs = some (c :: cs, p')) (hn : mbs.length ≤ n + 1) :
    ∃ q mbs', gu_locale_decode D (n + 1) mbs p ucs_buf =
        (Exec.require (ucs_buf.length < BUF_SIZE) >>= fun _ => gu_locale_decode D n mbs' q (ucs_buf ++ [c.toNat])) ∧
      mbs'.length ≤ n ∧ D.run q mbs' = some (cs, p') := by
  obtain ⟨len, q, hm, hpos, hrun⟩ := LocaleDecoder.mbrtowc_complete h
  have hret : (if c = Char.ofNat 0 then 1 else len) = len := by
    split_ifs with hnull
    · subst hnull
      exact (hnul hm).symm
    · rfl
  cases mbs with
  | nil => exact absurd hm (by simp [LocaleDecoder.mbrtowc])
  | cons b mbs =>
    refine ⟨q, (b :: mbs).drop len, ?_, ?_, hrun⟩
    · rw [gu_locale_decode, hm]
      simp only [hret]
    · rw [List.length_drop]
      omega

/-- All characters are decoded when there is room for them, and the last sequence may be incomplete. -/
theorem decode_chars (hnul : D.NulAlone) (hn : mbs.length ≤ n) (h : D.run p mbs = some (cs, p'))
    (hfit : ucs_buf.length + cs.length ≤ BUF_SIZE) (hsome : mbs = [] ∨ ucs_buf ≠ [] ∨ cs ≠ []) :
    gu_locale_decode D n mbs p ucs_buf = .ok (.ucs (ucs_buf ++ codes cs) p' false) := by
  induction cs generalizing n mbs p ucs_buf with
  | nil =>
    rw [codes_nil, List.append_nil]
    cases mbs with
    | nil =>
      obtain ⟨-, rfl⟩ := Prod.mk.inj (Option.some.inj h)
      cases n <;> rfl
    | cons b mbs =>
      obtain ⟨n, rfl⟩ := Nat.exists_eq_add_of_le' (Nat.le_trans (Nat.succ_pos _) hn)
      have hne : ucs_buf ≠ [] := by simpa using hsome
      rw [gu_locale_decode, LocaleDecoder.mbrtowc_incomplete h]
      simp only [if_neg hne]
  | cons c cs ih =>
    have hpos : 0 < n := (Nat.zero_lt_of_lt (LocaleDecoder.run_length h)).trans_le hn
    obtain ⟨n, rfl⟩ := Nat.exists_eq_add_of_le' hpos
    obtain ⟨q, mbs', hround, hlen, hrun⟩ := decode_round hnul h hn
    rw [List.length_cons] at hfit
    rw [hround, Exec.require, if_pos (by omega), Exec.ok_bind, ih hlen hrun (by simp; omega) (by simp)]
    simp only [codes_cons, List.append_assoc, List.singleton_append]

/-- Without a complete character, the read starts again. -/
theorem decode_again (h : D.run p mbs = some ([], p')) (hne : mbs ≠ []) : gu_locale_decode D mbs.length mbs p [] = .ok (.again p') := by
  cases mbs with
  | nil => exact absurd rfl hne
  | cons b mbs =>
    rw [List.length_cons, gu_locale_decode, LocaleDecoder.mbrtowc_incomplete h]
    rfl

/-- The array is written beyond its end when there are more characters than fit. -/
theorem decode_overflow (hnul : D.NulAlone) (hn : mbs.length ≤ n) (h : D.run p mbs = some (cs, p'))
    (hover : BUF_SIZE < ucs_buf.length + cs.length) (hle : ucs_buf.length ≤ BUF_SIZE) :
    gu_locale_decode D n mbs p ucs_buf = Exec.abort := by
  induction cs generalizing n mbs p ucs_buf with
  | nil =>
    rw [List.length_nil] at hover
    omega
  | cons c cs ih =>
    have hpos : 0 < n := (Nat.zero_lt_of_lt (LocaleDecoder.run_length h)).trans_le hn
    obtain ⟨n, rfl⟩ := Nat.exists_eq_add_of_le' hpos
    obtain ⟨q, mbs', hround, hlen, hrun⟩ := decode_round hnul h hn
    rw [List.length_cons] at hover
    rw [hround, Exec.require]
    by_cases hroom : ucs_buf.length < BUF_SIZE
    · rw [if_pos hroom, Exec.ok_bind]
      exact ih hlen hrun (by simp; omega) (by simp; omega)
    · rw [if_neg hroom]
      rfl

end Decode

/-! ## Encoding for the caller -/

theorem mbs_max_pos {sz : Nat} (h : 0 < sz) : 0 < mbs_max sz := by
  unfold mbs_max
  omega

/-- The last character may be split. -/
theorem locale_encode_spec {cs : List Char} {sz : Nat} (h : cs.length ≤ mbs_max sz) :
    ∃ dst frag, gu_locale_encode (codes cs) sz = .ok (dst, frag) ∧ dst.length ≤ sz ∧ dst ++ frag = utf8 cs ∧ frag.length < 4 ∧
      (0 < sz → dst = [] → cs = []) := by
  obtain ⟨done, rest, rfl, hle, hrun, hstop⟩ := encode_stops sz cs
  have hlen := utf8_length_le_four done
  rw [List.length_append] at h
  unfold mbs_max at h
  unfold gu_locale_encode
  rw [hrun, Exec.ok_bind]
  cases rest with
  | nil =>
    refine ⟨utf8 done, [], rfl, hle, by simp, by decide, ?_⟩
    intro _ hnil
    rw [List.append_nil]
    exact utf8_eq_nil done (by rw [hnil]; rfl)
  | cons c rest =>
    have hfit := hstop c rfl
    have hc := utf8_length_le c
    -- at most a quarter of the request is decoded, so that only the last character can be too long
    have hnil : rest = [] := by
      rw [← List.length_eq_zero_iff]
      rw [List.length_cons] at h
      omega
    subst hnil
    have hfrag : gu_utf8_encode (codes [c]) 4 = .ok (utf8EncodeChar c, []) := by
      obtain ⟨done', rest', hsplit, -, hrun', hstop'⟩ := encode_stops 4 [c]
      cases done' with
      | nil =>
        obtain rfl : [c] = rest' := hsplit
        have := hstop' c rfl
        simp only [utf8_nil, List.length_nil] at this
        omega
      | cons d done' =>
        obtain ⟨rfl, hnil⟩ := List.cons.inj hsplit
        obtain ⟨rfl, rfl⟩ := List.append_eq_nil_iff.1 hnil.symm
        simpa using hrun'
    rw [List.length_singleton] at h
    have hrem : sz - (utf8 done).length < 4 := by omega
    have hlong : (utf8EncodeChar c).length > sz - (utf8 done).length := by omega
    refine ⟨utf8 done ++ (utf8EncodeChar c).take (sz - (utf8 done).length), (utf8EncodeChar c).drop (sz - (utf8 done).length), ?_, ?_, ?_,
      ?_, ?_⟩
    · have hone : (codes [c]).length = 1 := rfl
      simp only [if_neg (show codes [c] ≠ [] from List.cons_ne_nil _ _), hone, Exec.require, if_true, Exec.ok_bind, if_pos hrem, hfrag,
        if_pos hlong, Exec.pure_eq]
    · rw [List.length_append, List.length_take]
      omega
    · rw [List.append_assoc, List.take_append_drop, utf8_append]
      simp
    · rw [List.length_drop]
      omega
    · intro hsz hnil
      have hcount := congrArg List.length hnil
      rw [List.length_append, List.length_take, List.length_nil] at hcount
      omega

/-! ## Calls -/

section Calls
variable {σ ps : Type} (S : GuInStreamFuns σ) (D : LocaleDecoder ps)

/-- A span that a call decodes, and the state in which it does. The call goes on to the next one without a complete character. -/
inductive Span (sz : Nat) : GuLocaleInStream σ ps → ps → Bytes → Prop
  | here {lis : GuLocaleInStream σ ps} {span : Bytes × Bool} {in' : GuIn σ}
      (hspan : lis.in_.gu_in_begin_span S (min (mbs_max sz) BUF_SIZE) none = .ok (span, in', none)) :
      Span sz lis lis.ps (span.1.take (mbs_max sz))
  | again {lis : GuLocaleInStream σ ps} {span : Bytes × Bool} {in' in'' : GuIn σ} {p q : ps} {mbs : Bytes}
      (hspan : lis.in_.gu_in_begin_span S (min (mbs_max sz) BUF_SIZE) none = .ok (span, in', none))
      (hrun : D.run lis.ps (span.1.take (mbs_max sz)) = some ([], p)) (hne : span.1.take (mbs_max sz) ≠ [])
      (hend : in'.gu_in_end_span (span.1.take (mbs_max sz)).length = .ok in'')
      (h : Span sz { lis with in_ := in'', ps := p } q mbs) : Span sz lis q mbs

/-- The spans that a call decodes have no more characters than there is room for. -/
def Fits (lis : GuLocaleInStream σ ps) (sz : Nat) : Prop :=
  lis.utf8_frag = [] → ∀ p mbs cs q, Span S D sz lis p mbs → D.run p mbs = some (cs, q) → cs.length ≤ BUF_SIZE

/-- A call returns what comes after `out` in the text, first of all what is pending of a character, and nothing only at the end. -/
def Delivers (lis : GuLocaleInStream σ ps) (sz : Nat) (out text : Bytes) : Prop :=
  ∃ got lis', Settles (fun n => gu_locale_reader_input S D n lis sz none) (.ok (got, lis', none)) ∧ got.length ≤ sz ∧
    out ++ got <+: text ∧ lis.utf8_frag.take sz <+: got ∧ (0 < sz → got = [] → out = text)

/-- A new reader after calls with requests that fit, and what they have returned. -/
inductive LocaleReads (locale_in : GuIn σ) : GuLocaleInStream σ ps → Bytes → Prop
  | start : LocaleReads locale_in (gu_new_locale_reader D locale_in) []
  | input {lis lis' : GuLocaleInStream σ ps} {out got : Bytes} {sz : Nat} (h : LocaleReads locale_in lis out) (hfit : Fits S D lis sz)
      (hrun : Settles (fun n => gu_locale_reader_input S D n lis sz none) (.ok (got, lis', none))) : LocaleReads locale_in lis' (out ++ got)

end Calls

section Reading
variable {σ ps : Type} {S : GuInStreamFuns σ} {D : LocaleDecoder ps} {v : InView S} {chars : List Char} {lis : GuLocaleInStream σ ps}
  {out : Bytes}

/-- What has been returned, with the fragment, is the text of the characters that have been decoded. -/
structure Reading (D : LocaleDecoder ps) (v : InView S) (chars : List Char) (lis : GuLocaleInStream σ ps) (out : Bytes) : Prop where
  ok : lis.in_.Ok v
  failed : lis.failed = false
  frag : lis.utf8_frag.length < 4
  rest : ∃ done todo p, chars = done ++ todo ∧ out ++ lis.utf8_frag = utf8 done ∧ D.run lis.ps (lis.in_.rest v) = some (todo, p)

theorem Reading.prefix (h : Reading D v chars lis out) : out <+: utf8 chars := by
  obtain ⟨done, todo, p, rfl, hout, -⟩ := h.rest
  refine ⟨lis.utf8_frag ++ utf8 todo, ?_⟩
  rw [← List.append_assoc, hout, utf8_append]

/-- A span is taken from the front of what is to come. -/
theorem span_taken {in_ : GuIn σ} (h : in_.Ok v) (sz : Nat) :
    ∃ span in' in'', in_.gu_in_begin_span S (min (mbs_max sz) BUF_SIZE) none = .ok (span, in', none) ∧
      in'.gu_in_end_span (span.1.take (mbs_max sz)).length = .ok in'' ∧ in''.Ok v ∧
      in_.rest v = span.1.take (mbs_max sz) ++ in''.rest v ∧ (0 < sz → span.1.take (mbs_max sz) = [] → in_.rest v = []) := by
  have hreq : min (mbs_max sz) BUF_SIZE ≤ PTRDIFF_MAX := (Nat.min_le_right _ _).trans (by decide)
  obtain ⟨span, fallback, in', hspan, hok, hcase⟩ := GuIn.span_spec h hreq
  rcases hcase with ⟨rfl, hnone, -, hrest, hlen, hnil, -⟩ | ⟨rfl, hbuf, rfl, hleft, hrest, -⟩
  · have htake : span.take (mbs_max sz) = span := List.take_of_length_le (hlen.trans (Nat.min_le_left _ _))
    refine ⟨(span, true), in', in', hspan, ?_, hok, ?_, ?_⟩
    · simp [GuIn.gu_in_end_span, GuIn.gu_in_is_buffering, hnone]
    · rw [htake]
      exact hrest
    · intro hsz
      rw [htake]
      exact hnil (lt_min (mbs_max_pos hsz) (by decide))
  · have hlen := hok.unread_length
    have hcount : (in'.unread.take (mbs_max sz)).length = min (mbs_max sz) in'.left := by rw [List.length_take, hlen]
    have hle : min (mbs_max sz) in'.left ≤ in'.left := Nat.min_le_right _ _
    obtain ⟨hok', hrest', -⟩ := hok.advance hle
    refine ⟨(in'.unread, false), in', in'.advance (min (mbs_max sz) in'.left), hspan, ?_, hok', ?_, ?_⟩
    · rw [hcount]
      exact GuIn.end_span_spec hbuf hle
    · rw [← hrest, hrest', ← hlen, ← List.take_eq_take_min]
    · intro hsz hnil
      have hpos := mbs_max_pos hsz
      rw [hnil, List.length_nil] at hcount
      omega

/-- A read from a source that is decoded without errors. -/
theorem read_again_spec (hnul : D.NulAlone) {sz : Nat} (h : Reading D v chars lis out) (hfrag : lis.utf8_frag = [])
    (hfit : ∀ p mbs cs q, Span S D sz lis p mbs → D.run p mbs = some (cs, q) → cs.length ≤ BUF_SIZE) :
    ∃ got lis', Settles (fun n => gu_locale_read_again S D n lis sz none) (.ok (got, lis', none)) ∧ got.length ≤ sz ∧
      Reading D v chars lis' (out ++ got) ∧ (0 < sz → got = [] → out = utf8 chars) := by
  induction hk : (lis.in_.rest v).length using Nat.strong_induction_on generalizing lis with
  | _ k ih =>
    obtain ⟨span, in', in'', hspan, hend, hok, hrest, hnil⟩ := span_taken h.ok sz
    obtain ⟨done, todo, p, rfl, hout, hrun⟩ := h.rest
    rw [hrest] at hrun
    obtain ⟨cs, q, cs', hcs, hrun', rfl⟩ := LocaleDecoder.run_append hrun
    rw [hfrag, List.append_nil] at hout
    by_cases hagain : cs = [] ∧ span.1.take (mbs_max sz) ≠ []
    · -- not even one character
      obtain ⟨rfl, hne⟩ := hagain
      have hdecode := decode_again hcs hne
      have hreading : Reading D v (done ++ ([] ++ cs')) { lis with in_ := in'', ps := q } out :=
        ⟨hok, h.failed, h.frag, done, cs', p, rfl, by rw [hfrag, List.append_nil, hout], hrun'⟩
      have hlt : (in''.rest v).length < k := by
        have := List.length_pos_of_ne_nil hne
        rw [hrest, List.length_append] at hk
        omega
      obtain ⟨got, lis', hsettles, hget⟩ := ih _ hlt hreading hfrag
        (fun p mbs cs r hsp => hfit p mbs cs r (.again hspan hcs hne hend hsp)) rfl
      refine ⟨got, lis', hsettles.succ fun m => ?_, hget⟩
      rw [gu_locale_read_again]
      simp only [hspan, Exec.ok_bind, gu_ok_none, Bool.not_true, Bool.false_eq_true, if_false, hdecode, hend]
    · have hsome : span.1.take (mbs_max sz) = [] ∨ ([] : List GuUCS) ≠ [] ∨ cs ≠ [] := by tauto
      have hroom := hfit _ _ _ _ (.here hspan) hcs
      have hdecode := decode_chars hnul (Nat.le_refl _) hcs (show ([] : List GuUCS).length + cs.length ≤ BUF_SIZE by simpa using hroom) hsome
      have hcount : cs.length ≤ mbs_max sz := (LocaleDecoder.run_length hcs).trans (List.length_take_le _ _)
      obtain ⟨dst, frag, hencode, hlen, happ, hshort, hempty⟩ := locale_encode_spec hcount
      refine ⟨dst, ⟨in'', q, false, frag⟩, Settles.of_eq fun m => ?_, hlen, ?_, ?_⟩
      · rw [gu_locale_read_again]
        simp only [hspan, Exec.ok_bind, gu_ok_none, Bool.not_true, Bool.false_eq_true, if_false, hdecode, hend, List.nil_append, hencode,
          Exec.pure_eq]
      · refine ⟨hok, rfl, hshort, done ++ cs, cs', p, (List.append_assoc _ _ _).symm, ?_, hrun'⟩
        rw [List.append_assoc, happ, hout, utf8_append]
      · intro hsz hdst
        have hcs0 := hempty hsz hdst
        have hmbs : span.1.take (mbs_max sz) = [] := by tauto
        have hdone := hnil hsz hmbs
        rw [hrest] at hdone
        rw [(List.append_eq_nil_iff.1 hdone).2] at hrun'
        obtain ⟨rfl, -⟩ := Prod.mk.inj (Option.some.inj hrun')
        rw [hcs0, List.append_nil, List.append_nil, hout]

/-- With more characters in a span than there is room for, the array is written beyond its end. -/
theorem read_again_overflow (hnul : D.NulAlone) {sz : Nat} {p q : ps} {mbs : Bytes} {cs : List Char} (h : Span S D sz lis p mbs)
    (hrun : D.run p mbs = some (cs, q)) (hover : BUF_SIZE < cs.length) :
    Settles (fun n => gu_locale_read_again S D n lis sz none) Exec.abort := by
  induction h with
  | here hspan =>
    have hdecode := decode_overflow hnul (Nat.le_refl _) hrun (show BUF_SIZE < ([] : List GuUCS).length + cs.length by simpa using hover)
      (Nat.zero_le _)
    refine Settles.of_eq fun m => ?_
    rw [gu_locale_read_again]
    simp only [hspan, Exec.ok_bind, gu_ok_none, Bool.not_true, Bool.false_eq_true, if_false, hdecode]
    rfl
  | again hspan hmore hne hend _ ih =>
    refine (ih hrun).succ fun m => ?_
    rw [gu_locale_read_again]
    simp only [hspan, Exec.ok_bind, gu_ok_none, Bool.not_true, Bool.false_eq_true, if_false, decode_again hmore hne, hend]

/-- The pending part of a character comes before anything else. -/
theorem input_pending (h : Reading D v chars lis out) (hfrag : lis.utf8_frag ≠ []) (sz : Nat) :
    ∃ got lis', Settles (fun n => gu_locale_reader_input S D n lis sz none) (.ok (got, lis', none)) ∧ got.length ≤ sz ∧
      lis.utf8_frag.take sz = got ∧ Reading D v chars lis' (out ++ got) ∧ (0 < sz → got ≠ []) := by
  obtain ⟨done, todo, p, hchars, hout, hrun⟩ := h.rest
  have hpos := List.length_pos_of_ne_nil hfrag
  refine ⟨lis.utf8_frag.take sz, { lis with utf8_frag := lis.utf8_frag.drop sz }, Settles.of_eq fun m => ?_, List.length_take_le _ _, rfl,
    ?_, ?_⟩
  · unfold gu_locale_reader_input
    rw [if_pos (Nat.ne_of_gt hpos)]
    simp only [Nat.min_comm _ sz, ← List.take_eq_take_min, ← List.drop_eq_drop_min]
  · have hlen : (lis.utf8_frag.drop sz).length ≤ lis.utf8_frag.length := by
      rw [List.length_drop]
      exact Nat.sub_le _ _
    refine ⟨h.ok, h.failed, hlen.trans_lt h.frag, done, todo, p, hchars, ?_, hrun⟩
    rw [List.append_assoc, List.take_append_drop, hout]
  · intro hsz hnil
    have hcount := congrArg List.length hnil
    rw [List.length_take, List.length_nil] at hcount
    omega

theorem input_read (hfrag : lis.utf8_frag = []) (hfailed : lis.failed = false) (n sz : Nat) :
    gu_locale_reader_input S D n lis sz none = gu_locale_read_again S D n lis sz none := by
  unfold gu_locale_reader_input
  simp only [hfrag, hfailed, List.length_nil, ne_eq, not_true_eq_false, if_false, Bool.false_eq_true]

/-- One call. -/
theorem locale_input_spec (hnul : D.NulAlone) {sz : Nat} (h : Reading D v chars lis out) (hfit : Fits S D lis sz) :
    ∃ got lis', Settles (fun n => gu_locale_reader_input S D n lis sz none) (.ok (got, lis', none)) ∧ got.length ≤ sz ∧
      lis.utf8_frag.take sz <+: got ∧ Reading D v chars lis' (out ++ got) ∧ (0 < sz → got = [] → out = utf8 chars) := by
  by_cases hfrag : lis.utf8_frag = []
  · obtain ⟨got, lis', hsettles, hlen, hreading, hempty⟩ := read_again_spec hnul h hfrag (hfit hfrag)
    refine ⟨got, lis', ?_, hlen, ?_, hreading, hempty⟩
    · simp only [input_read hfrag h.failed]
      exact hsettles
    · rw [hfrag, List.take_nil]
      exact List.nil_prefix
  · obtain ⟨got, lis', hsettles, hlen, htake, hreading, hne⟩ := input_pending h hfrag sz
    exact ⟨got, lis', hsettles, hlen, htake ▸ List.prefix_rfl, hreading, fun hsz hgot => absurd hgot (hne hsz)⟩

theorem delivers_iff (hnul : D.NulAlone) (h : Reading D v chars lis out) (sz : Nat) :
    Delivers S D lis sz out (utf8 chars) ↔ Fits S D lis sz := by
  constructor
  · rintro ⟨got, lis', hsettles, -⟩ hfrag p mbs cs q hspan hrun
    by_contra hover
    have habort := read_again_overflow hnul hspan hrun (Nat.lt_of_not_le hover)
    simp only [input_read hfrag h.failed] at hsettles
    exact absurd (hsettles.unique habort) (by simp [Exec.abort])
  · intro hfit
    obtain ⟨got, lis', hsettles, hlen, hpre, hreading, hempty⟩ := locale_input_spec hnul h hfit
    exact ⟨got, lis', hsettles, hlen, hreading.prefix, hpre, hempty⟩

/-- Calls that fit keep to the text. -/
theorem LocaleReads.reading (hnul : D.NulAlone) {locale_in : GuIn σ} (hok : locale_in.Ok v) {p : ps}
    (hdec : D.run D.start (locale_in.rest v) = some (chars, p)) (h : LocaleReads S D locale_in lis out) : Reading D v chars lis out := by
  induction h with
  | start => exact ⟨hok, rfl, Nat.zero_lt_succ 3, [], chars, p, rfl, rfl, hdec⟩
  | input _ hfit hrun ih =>
    obtain ⟨got, lis', hsettles, -, -, hreading, -⟩ := locale_input_spec hnul ih hfit
    obtain ⟨rfl, heq⟩ := Prod.mk.inj (Except.ok.inj (hsettles.unique hrun))
    obtain ⟨rfl, -⟩ := Prod.mk.inj heq
    exact hreading

end Reading

/-! ## Runs -/

section Runs
variable {σ ps : Type} {S : GuInStreamFuns σ} {D : LocaleDecoder ps} {lis : GuLocaleInStream σ ps}

theorem Span.length {sz : Nat} {p : ps} {mbs : Bytes} (h : Span S D sz lis p mbs) : mbs.length ≤ mbs_max sz := by
  induction h with
  | here _ => exact List.length_take_le _ _
  | again _ _ _ _ _ ih => exact ih

/-- There is room for a request of four times the size of the array. -/
theorem fits_of_le {sz : Nat} (h : sz ≤ 4 * BUF_SIZE) : Fits S D lis sz := by
  intro _ p mbs cs q hspan hrun
  have hspan := hspan.length
  have hcount := LocaleDecoder.run_length hrun
  unfold mbs_max at hspan
  omega

/-- However the requests split the text, the reader delivers it: as long as each fits, and no longer. -/
theorem locale_delivers_iff (hnul : D.NulAlone) {locale_in : GuIn σ} {src : Bytes} (hin : InReach S locale_in src) {chars : List Char} {p : ps}
    (hdec : D.run D.start src = some (chars, p)) {out : Bytes} (h : LocaleReads S D locale_in lis out) :
    (∃ done, done <+: chars ∧ out ++ lis.utf8_frag = utf8 done ∧ lis.utf8_frag.length < 4) ∧
      ∀ sz, Delivers S D lis sz out (utf8 chars) ↔ Fits S D lis sz := by
  obtain ⟨v, hok, rfl⟩ := hin.view
  have hreading := h.reading hnul hok hdec
  obtain ⟨done, todo, -, hchars, hout, -⟩ := hreading.rest
  exact ⟨⟨done, ⟨todo, hchars.symm⟩, hout, hreading.frag⟩, delivers_iff hnul hreading⟩

end Runs

/-! ## Bytes that are characters -/

def latin1 : LocaleDecoder Unit := ⟨(), fun _ b => ((), .char (Char.ofNat b.toNat))⟩

theorem latin1_nul : latin1.NulAlone := by
  intro p mbs len q h
  cases mbs with
  | nil => exact absurd h (by simp [LocaleDecoder.mbrtowc])
  | cons b mbs =>
    rw [LocaleDecoder.mbrtowc] at h
    exact (Mbrtowc.complete.inj h).2.1.symm

theorem latin1_run (mbs : Bytes) : latin1.run () mbs = some (mbs.map fun b => Char.ofNat b.toNat, ()) := by
  induction mbs with
  | nil => rfl
  | cons b mbs ih =>
    rw [LocaleDecoder.run]
    simp only [latin1] at ih ⊢
    rw [ih]
    rfl

/-- A reader over `é` and `b` after it has returned the first byte of `é`. -/
def halfway : GuLocaleInStream Bytes Unit where
  in_ := ⟨some [0xe9, 0x62], 1, [0xe9, 0x62], 0⟩
  ps := ()
  failed := false
  utf8_frag := [0xa9]

theorem halfway_reads : LocaleReads gu_data_in_funs latin1 (gu_data_in [0xe9, 0x62]) halfway [0xc3] := by
  have hcall (n : Nat) : gu_locale_reader_input gu_data_in_funs latin1 n (gu_new_locale_reader latin1 (gu_data_in [0xe9, 0x62])) 1 none =
      .ok ([0xc3], halfway, none) := by
    rw [input_read rfl rfl, gu_locale_read_again]
    rfl
  exact .input .start (fits_of_le (by decide)) (.of_eq hcall)

theorem locale_delivers_iff_halfway : (∃ done, done <+: ['é', 'b'] ∧ [0xc3] ++ halfway.utf8_frag = utf8 done ∧ halfway.utf8_frag.length < 4) ∧
    ∀ sz, Delivers gu_data_in_funs latin1 halfway sz [0xc3] (utf8 ['é', 'b']) ↔ Fits gu_data_in_funs latin1 halfway sz :=
  locale_delivers_iff latin1_nul (.start (.data [0xe9, 0x62])) (latin1_run [0xe9, 0x62]) halfway_reads

theorem data_span {src : Bytes} (h : src ≠ []) (req_sz : Nat) :
    (gu_data_in src).gu_in_begin_span gu_data_in_funs req_sz none =
      .ok ((src, false), { gu_data_in src with buf := some src, left := src.length }, none) := by
  have hpos : 0 < src.length := List.length_pos_of_ne_nil h
  simp [GuIn.gu_in_begin_span, GuIn.gu_in_begin_buffering, GuIn.gu_in_is_buffering, GuIn.gu_in_borrow, gu_data_in, gu_init_in, gu_data_in_funs,
    GuIn.unread, hpos]

/-- A slice with more bytes than there is room for, and one request for all of them. -/
theorem slice_overflows {src text : Bytes} {sz : Nat} (h : BUF_SIZE < src.length) (hsz : src.length ≤ mbs_max sz) :
    ¬ Delivers gu_data_in_funs latin1 (gu_new_locale_reader latin1 (gu_data_in src)) sz [] text := by
  rintro ⟨got, lis', hsettles, -⟩
  have hne : src ≠ [] := List.ne_nil_of_length_pos (Nat.zero_lt_of_lt h)
  have hspan := @Span.here _ _ gu_data_in_funs latin1 sz (gu_new_locale_reader latin1 (gu_data_in src)) (src, false) _ (data_span hne _)
  rw [show ((src, false) : Bytes × Bool).1 = src from rfl, List.take_of_length_le hsz] at hspan
  have habort := read_again_overflow latin1_nul hspan (latin1_run src) (by rwa [List.length_map])
  simp only [input_read (show (gu_new_locale_reader latin1 (gu_data_in src)).utf8_frag = [] from rfl) rfl] at hsettles
  exact absurd (hsettles.unique habort) (by simp [Exec.abort])

/-- 1025 characters in a slice, and a request for 4100 bytes. -/
theorem locale_overflows : InReach gu_data_in_funs (gu_data_in (List.replicate 1025 97)) (List.replicate 1025 97) ∧ latin1.NulAlone ∧
    latin1.run latin1.start (List.replicate 1025 97) = some (List.replicate 1025 'a', ()) ∧
    ¬ Delivers gu_data_in_funs latin1 (gu_new_locale_reader latin1 (gu_data_in (List.replicate 1025 97))) 4100 []
      (utf8 (List.replicate 1025 'a')) := by
  have hrun : latin1.run () (List.replicate 1025 97) = some (List.replicate 1025 'a', ()) := by
    rw [latin1_run, List.map_replicate]
    rfl
  refine ⟨.start (.data _), latin1_nul, hrun, slice_overflows ?_ ?_⟩
  · rw [List.length_replicate]
    decide
  · rw [List.length_replicate]
    decide

end Locale

end Libpgf
