import Libpgf.Gu.Getc
import Libpgf.Gu.InLive
import Libpgf.Gu.StringBuf
import Libpgf.Lib.Format
import Libpgf.Pgf.Data
import Libpgf.Pgf.Ints
/-!
# Strings of a grammar file (`pgf/reader.c`)

A string comes as the number of its characters and then the characters, which
are written to a string buffer one by one. The loop does not look at its frame:
after an exception it goes on to the end, and may write to the buffer still.
-/

namespace Libpgf

section Read
variable {σ : Type} (S : GuInStreamFuns σ)

/-- The loop over the characters. `get` reads one of them. -/
def read_chars (get : InFun σ GuUCS) : Nat → GuStringBuf → InFun σ GuStringBuf
  | 0, sbuf, in_, err => .ok (sbuf, in_, err)
  | n + 1, sbuf, in_, err => do
    let (ucs, in_, err) ← get in_ err
    let (sbuf, err) ← gu_ucs_write ucs sbuf err
    read_chars get n sbuf in_ err

/-- The body of both readers. An interned string is its content. -/
def read_string (get : InFun σ GuUCS) (in_ : GuIn σ) (err : GuExn) : Exec (GuString × GuIn σ × GuExn × Option PgfReadTagExn) := do
  let (len, in_, err, tag) ← pgf_read_len S in_ err
  let (sbuf, in_, err) ← read_chars get len gu_string_buf in_ err
  let str ← gu_string_buf_freeze sbuf
  return (str, in_, err, tag)

def pgf_read_to_GuString : GuIn σ → GuExn → Exec (GuString × GuIn σ × GuExn × Option PgfReadTagExn) :=
  read_string S fun in_ err => in_.gu_in_utf8 S err

/-- CIds are in Latin-1: a byte is a code point. -/
def latin1_in (in_ : GuIn σ) (err : GuExn) : Exec (GuUCS × GuIn σ × GuExn) := do
  let (ucs, in_, err) ← in_.gu_in_u8 S err
  return (ucs.toNat, in_, err)

def pgf_read_to_PgfCId : GuIn σ → GuExn → Exec (PgfCId × GuIn σ × GuExn × Option PgfReadTagExn) := read_string S (latin1_in S)

end Read

/-! ## Integers and lengths -/

/-- The bytes are those of the integer, and no more than these are read for it. -/
structure IntBytes (bytes : Bytes) (i : Int) : Prop where
  whole : encodedBytes bytes = bytes
  ended : Ended bytes
  short : bytes.length ≤ 5
  value : Int.bmod (encodedValue bytes) (2 ^ 32) = i

abbrev LenBytes (bytes : Bytes) (len : Nat) : Prop := IntBytes bytes len

theorem encodedBytes_append {bytes : Bytes} (h : Ended bytes) (rest : Bytes) : encodedBytes (bytes ++ rest) = encodedBytes bytes := by
  induction bytes with
  | nil =>
    obtain ⟨b, hb, -⟩ := h
    cases hb
  | cons b bytes ih =>
    rw [List.cons_append]
    by_cases hb : b < 0x80
    · rw [(encoded_last _ hb).1, (encoded_last _ hb).1]
    · rw [(encoded_more _ hb).1, (encoded_more _ hb).1, ih ((encoded_more _ hb).2.1.1 h)]

theorem encodedBytes_again {bytes : Bytes} (h : Ended bytes) :
    encodedBytes (encodedBytes bytes) = encodedBytes bytes ∧ Ended (encodedBytes bytes) := by
  induction bytes with
  | nil =>
    obtain ⟨b, hb, -⟩ := h
    cases hb
  | cons b bytes ih =>
    by_cases hb : b < 0x80
    · rw [(encoded_last _ hb).1]
      exact ⟨(encoded_last _ hb).1, (encoded_last _ hb).2.1⟩
    · obtain ⟨ih₁, ih₂⟩ := ih ((encoded_more _ hb).2.1.1 h)
      rw [(encoded_more _ hb).1, (encoded_more _ hb).1, ih₁]
      exact ⟨rfl, (encoded_more _ hb).2.1.2 ih₂⟩

/-- Before the last byte no byte is without the high bit. -/
theorem IntBytes.not_ended {pre more : Bytes} {i : Int} (h : IntBytes (pre ++ more) i) (hmore : more ≠ []) : ¬ Ended pre := by
  intro hended
  have hlen := congrArg List.length h.whole
  rw [encodedBytes_append hended, List.length_append] at hlen
  have hprefix := encodedBytes_prefix pre
  have hle := hprefix.length_le
  have hpos := List.length_pos_iff.2 hmore
  omega

theorem LenBytes.lt {bytes : Bytes} {len : Nat} (h : LenBytes bytes len) : len < 2 ^ 31 := by
  have hlt := Int.bmod_lt (x := (encodedValue bytes : Int)) (m := 2 ^ 32) (by decide)
  rw [IntBytes.value h] at hlt
  omega

/-- Of all the bytes these are still to come. -/
def InAt {σ : Type} (S : GuInStreamFuns σ) (total : Nat) (in_ : GuIn σ) (rem : Bytes) : Prop :=
  ∃ pos, Source S in_ pos rem ∧ pos + rem.length = total

section Lengths
variable {σ : Type} {S : GuInStreamFuns σ} {total len : Nat} {in_ in' : GuIn σ} {rem rest bytes : Bytes} {tag : Option PgfReadTagExn}

/-- The integer whose bytes are next is read. -/
theorem read_int_whole {i : Int} (h : InAt S total in_ (bytes ++ rest)) (hint : IntBytes bytes i) :
    ∃ in', pgf_read_int S in_ none = .ok (i, in', none) ∧ InAt S total in' rest := by
  obtain ⟨pos, hsource, htotal⟩ := h
  have hbytes : encodedBytes (bytes ++ rest) = bytes := (encodedBytes_append hint.ended rest).trans hint.whole
  have hvalue : encodedValue (bytes ++ rest) = encodedValue bytes := by
    unfold encodedValue
    rw [hbytes, hint.whole]
  have hended : Ended (bytes ++ rest) := by
    obtain ⟨b, hb, hlt⟩ := hint.ended
    exact ⟨b, List.mem_append_left rest hb, hlt⟩
  obtain ⟨in', hrun, hsource'⟩ := (read_uint_spec hsource).2.2 (by rw [hbytes]; exact hint.short) hended
  rw [hbytes, List.drop_left] at hsource'
  rw [hvalue] at hrun
  have hread := read_int_of (Nat.mod_lt _ (Nat.two_pow_pos 32)) hrun
  rw [Int.natCast_emod, Int.emod_bmod, hint.value] at hread
  refine ⟨in', hread, _, hsource', ?_⟩
  rw [← htotal, List.length_append, Nat.add_assoc]

/-- If its bytes are not all there, an exception is raised. -/
theorem read_int_cut {pre more : Bytes} {i : Int} (h : InAt S total in_ pre) (hint : IntBytes (pre ++ more) i) (hmore : more ≠ []) :
    ∃ i' in' t, pgf_read_int S in_ none = .ok (i', in', some t) := by
  obtain ⟨pos, hsource, -⟩ := h
  have hle : (encodedBytes pre).length ≤ 5 := by
    have hprefix := encodedBytes_prefix pre
    have hle := hprefix.length_le
    have hshort := hint.short
    rw [List.length_append] at hshort
    omega
  obtain ⟨in', hrun⟩ := (read_uint_spec hsource).2.1 hle (hint.not_ended hmore)
  exact ⟨_, in', .GuEOF, read_int_of (Nat.two_pow_pos 32) hrun⟩

/-- An integer that is read has its bytes. -/
theorem read_int_only {i : Int} (h : InAt S total in_ rem) (hrun : pgf_read_int S in_ none = .ok (i, in', none)) :
    ∃ bytes rest, rem = bytes ++ rest ∧ IntBytes bytes i ∧ InAt S total in' rest := by
  obtain ⟨pos, hsource, htotal⟩ := h
  obtain ⟨habort, hraise, hvalue⟩ := read_uint_spec hsource
  by_cases hlong : 5 < (encodedBytes rem).length
  · unfold pgf_read_int toSigned at hrun
    rw [habort hlong] at hrun
    cases hrun
  by_cases hended : Ended rem
  · obtain ⟨in₁, huint, hsource'⟩ := hvalue (Nat.le_of_not_lt hlong) hended
    have hint := read_int_of (Nat.mod_lt _ (Nat.two_pow_pos 32)) huint
    rw [Int.natCast_emod, Int.emod_bmod, hrun] at hint
    generalize hi : Int.bmod (encodedValue rem) (2 ^ 32) = i' at hint
    cases hint
    obtain ⟨hagain, hended'⟩ := encodedBytes_again hended
    have hprefix := encodedBytes_prefix rem
    have hrest := List.prefix_iff_eq_append.1 hprefix
    have hsame : encodedValue (encodedBytes rem) = encodedValue rem := by
      unfold encodedValue
      rw [hagain]
    refine ⟨encodedBytes rem, rem.drop (encodedBytes rem).length, hrest.symm, ⟨hagain, hended', Nat.le_of_not_lt hlong, by rw [hsame, hi]⟩, _,
      hsource', ?_⟩
    have hlen := congrArg List.length hrest
    rw [List.length_append] at hlen
    omega
  · obtain ⟨in₁, huint⟩ := hraise (Nat.le_of_not_lt hlong) hended
    rw [read_int_of (Nat.two_pow_pos 32) huint] at hrun
    cases hrun

theorem read_len_ok {i : Int} (hrun : pgf_read_int S in_ none = .ok (i, in', none)) (hi : 0 ≤ i) :
    pgf_read_len S in_ none = .ok (i.toNat, in', none, none) := by
  unfold pgf_read_len
  rw [hrun, Exec.ok_bind]
  dsimp only
  rw [gu_ok_none, Bool.not_true, if_neg Bool.false_ne_true, if_neg (not_lt.2 hi)]
  rfl

/-- `read_int_whole` for lengths. -/
theorem read_len_whole (h : InAt S total in_ (bytes ++ rest)) (hlen : LenBytes bytes len) :
    ∃ in', pgf_read_len S in_ none = .ok (len, in', none, none) ∧ InAt S total in' rest := by
  obtain ⟨in', hrun, hat⟩ := read_int_whole h hlen
  exact ⟨in', read_len_ok hrun (Int.natCast_nonneg len), hat⟩

theorem read_len_cut {pre more : Bytes} (h : InAt S total in_ pre) (hlen : LenBytes (pre ++ more) len) (hmore : more ≠ []) :
    ∃ in' t, pgf_read_len S in_ none = .ok (0, in', some t, none) := by
  obtain ⟨i, in', t, hrun⟩ := read_int_cut h hlen hmore
  refine ⟨in', t, ?_⟩
  unfold pgf_read_len
  rw [hrun]
  rfl

theorem read_len_only (h : InAt S total in_ rem) (hrun : pgf_read_len S in_ none = .ok (len, in', none, tag)) :
    tag = none ∧ ∃ bytes rest, rem = bytes ++ rest ∧ LenBytes bytes len ∧ InAt S total in' rest := by
  obtain ⟨⟨i, in₁, err₁⟩, hint, hrun'⟩ := Exec.bind_ok.1 hrun
  cases err₁ with
  | some t => cases hrun'
  | none =>
    by_cases hneg : i < 0
    · dsimp only at hrun'
      rw [gu_ok_none, Bool.not_true, if_neg Bool.false_ne_true, if_pos hneg] at hrun'
      cases hrun'
    · have hi := Int.not_lt.1 hneg
      rw [read_len_ok hint hi] at hrun
      simp only [Except.ok.injEq, Prod.mk.injEq] at hrun
      obtain ⟨rfl, rfl, -, rfl⟩ := hrun
      obtain ⟨bytes, rest, hrem, hbytes, hat⟩ := read_int_only h hint
      refine ⟨rfl, bytes, rest, hrem, ?_, hat⟩
      show IntBytes bytes _
      rwa [Int.toNat_of_nonneg hi]

/-- `pgf_read_len` returns 0 on failure. -/
theorem read_len_raised {err : GuExn} {t : GuExnType} (hrun : pgf_read_len S in_ err = .ok (len, in', some t, tag)) : len = 0 := by
  obtain ⟨⟨i, in₁, err₁⟩, -, hrun⟩ := Exec.bind_ok.1 hrun
  dsimp only at hrun
  split_ifs at hrun with herr
  · exact (congrArg Prod.fst (Except.ok.inj hrun)).symm
  · exact (congrArg Prod.fst (Except.ok.inj hrun)).symm
  · cases hrun
    exact absurd rfl herr

end Lengths

/-! ## Characters -/

/-- The next character of some bytes, what is raised, and the bytes after it. -/
abbrev NextChar := Bytes → GuUCS × GuExn × Bytes

def latin1Next : NextChar
  | [] => (0, some .GuEOF, [])
  | b :: rest => (b.toNat, none, rest)

/-- `get` reads the characters that `next` finds. -/
structure Gets {σ : Type} (S : GuInStreamFuns σ) (get : InFun σ GuUCS) (next : NextChar) : Prop where
  gets : ∀ {total in_ rem}, InAt S total in_ rem → ∃ ucs in' err rest, get in_ none = .ok (ucs, in', err) ∧ next rem = (ucs, err, rest) ∧
    gu_ucs_valid ucs = true ∧ Live S in' ∧ (err = none → InAt S total in' rest)
  calm : ∀ {in_ t}, Live S in_ → ∃ ucs in', get in_ (some t) = .ok (ucs, in', some t) ∧ Live S in' ∧ gu_ucs_valid ucs = true

/-- `next` finds the code points in their encodings, and nothing in a part of one. -/
structure Spells {α : Type} (next : NextChar) (enc : α → Bytes) (code : α → GuUCS) : Prop where
  valid : ∀ a, gu_ucs_valid (code a) = true
  whole : ∀ a rest, next (enc a ++ rest) = (code a, none, rest)
  cut : ∀ {a pre more}, enc a = pre ++ more → more ≠ [] → (next pre).2.1 ≠ none

theorem ucs_valid_lt {ucs : GuUCS} (h : ucs < 256) : gu_ucs_valid ucs = true :=
  decide_eq_true ((Nat.le_of_lt h).trans (by decide))

section Encodings
variable {σ : Type} {S : GuInStreamFuns σ}

theorem Utf8Outcome.valid {rem rest : Bytes} {ucs : GuUCS} {err : GuExn} (h : Utf8Outcome rem ucs err rest) : gu_ucs_valid ucs = true := by
  cases h with
  | ascii hc => exact ucs_valid_lt (hc.trans (by decide))
  | taken hlen hlo hhi habove hu =>
    obtain ⟨ucs', hu', hvalid⟩ := assemble_valid hlo hhi hlen
    rw [hu] at hu'
    cases hu'
    exact hvalid.2 habove
  | _ => exact ucs_valid_lt (by decide)

theorem Utf8Outcome.length_le {rem rest : Bytes} {ucs : GuUCS} {err : GuExn} (h : Utf8Outcome rem ucs err rest) : rest.length ≤ rem.length := by
  cases h <;> simp <;> omega

theorem utf8_gets : Gets S (fun in_ err => in_.gu_in_utf8 S err) utf8Next where
  gets := by
    rintro total in_ rem ⟨pos, hsource, htotal⟩
    obtain ⟨ucs, in', err, rest, hrun, hout, hlive, hnone⟩ := in_utf8_source hsource
    refine ⟨ucs, in', err, rest, hrun, hout.next, hout.valid, hlive, fun herr => ⟨_, hnone herr, ?_⟩⟩
    have hle := hout.length_le
    omega
  calm := by
    intro in_ t h
    obtain ⟨ucs, in', hrun, hlive, hlt⟩ := utf8_returns (t := t) h
    exact ⟨ucs, in', hrun, hlive, ucs_valid_lt (hlt.trans (by decide))⟩

theorem latin1_gets : Gets S (latin1_in S) latin1Next where
  gets := by
    rintro total in_ rem ⟨pos, hsource, htotal⟩
    obtain ⟨v, hcalm, hok, rfl, rfl⟩ := hsource
    rcases GuIn.u8_spec hok with ⟨hend, in', hrun, hok', -⟩ | ⟨b, in', hrun, hok', hrest, htell⟩
    · refine ⟨0, in', some .GuEOF, [], by rw [latin1_in, hrun]; rfl, by rw [hend]; rfl, ucs_valid_lt (by decide), live_iff.2 ⟨v, hcalm, hok'⟩, ?_⟩
      exact fun herr => absurd herr (Option.some_ne_none _)
    · refine ⟨b.toNat, in', none, in'.rest v, by rw [latin1_in, hrun]; rfl, by rw [hrest]; rfl, ucs_valid_lt b.toNat_lt, live_iff.2 ⟨v, hcalm, hok'⟩,
        fun _ => ⟨_, ⟨v, hcalm, hok', rfl, rfl⟩, ?_⟩⟩
      rw [hrest, List.length_cons] at htotal
      omega
  calm := by
    intro in_ t h
    obtain ⟨b, in', hrun, hlive⟩ := u8_returns (t := t) h
    exact ⟨b.toNat, in', by rw [latin1_in, hrun]; rfl, hlive, ucs_valid_lt b.toNat_lt⟩

/-- The sequence of a character is found whole. -/
theorem utf8_next_char (c : Char) (rest : Bytes) : utf8Next (String.utf8EncodeChar c ++ rest) = (c.toNat, none, rest) := by
  have hat : InAt gu_data_in_funs (String.utf8EncodeChar c ++ rest).length (gu_data_in (String.utf8EncodeChar c ++ rest))
      (String.utf8EncodeChar c ++ rest) := ⟨0, (InReach.start (.data _)).source, Nat.zero_add _⟩
  obtain ⟨pos, hsource, -⟩ := hat
  obtain ⟨ucs, in', err, rest', -, hout, -, -⟩ := in_utf8_source hsource
  obtain ⟨rfl, rfl, rfl⟩ := hout.char
  exact hout.next

theorem utf8_spells : Spells utf8Next String.utf8EncodeChar Char.toNat where
  valid := toNat_valid
  whole := utf8_next_char
  cut := by
    intro c pre more henc hmore
    cases pre with
    | nil => exact Option.some_ne_none _
    | cons lead got =>
      obtain ⟨lead', tail, htail, hseq⟩ := sequence_spec c []
      rw [htail, List.cons_append] at henc
      obtain ⟨rfl, rfl⟩ := List.cons.inj henc
      have hpos := List.length_pos_iff.2 hmore
      have hlen : (got ++ more).length = gu_in_utf8_len lead' := by
        rcases hseq with ⟨hlo, hnil, -⟩ | ⟨hlo, hhi, hlen, -⟩
        · rw [in_len_ascii hlo, hnil, List.length_nil]
        · rw [in_len_lead hlo, hlen]
      rw [List.length_append] at hlen
      have hcut : utf8Next (lead' :: got) = (0, some .GuUCSExn, []) := if_pos (by omega)
      rw [hcut]
      exact Option.some_ne_none _

theorem latin1_spells : Spells latin1Next (fun b : UInt8 => [b]) UInt8.toNat where
  valid b := ucs_valid_lt b.toNat_lt
  whole _ _ := rfl
  cut := by
    intro b pre more henc hmore
    cases pre with
    | nil => exact Option.some_ne_none _
    | cons b' got =>
      have hlen := congrArg List.length henc
      have hpos := List.length_pos_iff.2 hmore
      rw [List.length_append, List.length_singleton, List.length_cons] at hlen
      omega

end Encodings

/-! ## The loop -/

/-- The next `n` characters, and the bytes after them. -/
def charsNext (next : NextChar) : Nat → Bytes → Option (List GuUCS × Bytes)
  | 0, rem => some ([], rem)
  | n + 1, rem => if gu_ok (next rem).2.1 then (charsNext next n (next rem).2.2).map fun r => ((next rem).1 :: r.1, r.2) else none

section Loop
variable {σ α : Type} {S : GuInStreamFuns σ} {get : InFun σ GuUCS} {next : NextChar} {enc : α → Bytes} {code : α → GuUCS}
  {n total : Nat} {sbuf sbuf' : GuStringBuf} {in_ in' : GuIn σ} {rem rest text : Bytes} {codes : List GuUCS}

theorem charsNext_spelled (hs : Spells next enc code) (as : List α) (rest : Bytes) :
    charsNext next as.length (as.flatMap enc ++ rest) = some (as.map code, rest) := by
  induction as with
  | nil => rfl
  | cons a as ih =>
    rw [List.flatMap_cons, List.append_assoc, List.length_cons, charsNext, hs.whole a]
    simp only [gu_ok_none, if_true, ih, Option.map_some, List.map_cons]

theorem read_chars_step {err err₁ err₂ : GuExn} {ucs : GuUCS} {in₁ : GuIn σ} {sbuf₁ : GuStringBuf} (hget : get in_ err = .ok (ucs, in₁, err₁))
    (hwrite : gu_ucs_write ucs sbuf err₁ = .ok (sbuf₁, err₂)) : read_chars get (n + 1) sbuf in_ err = read_chars get n sbuf₁ in₁ err₂ := by
  simp only [read_chars, hget, Exec.ok_bind, hwrite]

/-- With an exception raised, the loop goes on, and writes a byte in each round at most. -/
theorem read_chars_calm (hg : Gets S get next) {t : GuExnType} (h : Live S in_) (hsbuf : sbuf.Has text n) :
    ∃ sbuf' in' text', read_chars get n sbuf in_ (some t) = .ok (sbuf', in', some t) ∧ sbuf'.Has text' 0 ∧
      text'.length ≤ text.length + n := by
  induction n generalizing in_ sbuf text with
  | zero => exact ⟨sbuf, in_, text, rfl, hsbuf, Nat.le_refl _⟩
  | succ n ih =>
    obtain ⟨ucs, in₁, hget, hlive, hvalid⟩ := hg.calm (t := t) h
    obtain ⟨sbuf₁, text₁, hwrite, hsbuf₁, hle₁⟩ := ucs_write_calm (t := t) hsbuf hvalid
    obtain ⟨sbuf', in', text', hrun, hsbuf', hle⟩ := ih hlive hsbuf₁
    exact ⟨sbuf', in', text', (read_chars_step hget hwrite).trans hrun, hsbuf', by omega⟩

/-- The characters that are next are written to the buffer. -/
theorem read_chars_whole (hg : Gets S get next) (h : InAt S total in_ rem) (hsbuf : sbuf.Has text n)
    (hnext : charsNext next n rem = some (codes, rest)) : ∃ sbuf' in', read_chars get n sbuf in_ none = .ok (sbuf', in', none) ∧
      sbuf'.Has (text ++ ucsText codes) 0 ∧ InAt S total in' rest ∧ codes.length = n := by
  induction n generalizing in_ rem sbuf text codes with
  | zero =>
    cases hnext
    exact ⟨sbuf, in_, rfl, by rwa [ucsText, List.flatMap_nil, List.append_nil], h, rfl⟩
  | succ n ih =>
    obtain ⟨ucs, in₁, err, rest₁, hget, hone, hvalid, -, hat⟩ := hg.gets h
    rw [charsNext, hone] at hnext
    cases err with
    | some t => cases hnext
    | none =>
      obtain ⟨⟨codes', rest'⟩, hmore, heq⟩ := Option.map_eq_some_iff.1 hnext
      cases heq
      obtain ⟨sbuf₁, hwrite, hsbuf₁⟩ := ucs_write_has hsbuf hvalid
      obtain ⟨sbuf', in', hrun, hsbuf', hat', hlen⟩ := ih (hat rfl) hsbuf₁ hmore
      refine ⟨sbuf', in', (read_chars_step hget hwrite).trans hrun, ?_, hat', by rw [List.length_cons, hlen]⟩
      rw [ucsText, List.flatMap_cons, ← List.append_assoc]
      exact hsbuf'

/-- Without them, an exception is raised. -/
theorem read_chars_raises (hg : Gets S get next) (h : InAt S total in_ rem) (hsbuf : sbuf.Has text n) (hnext : charsNext next n rem = none) :
    ∃ sbuf' in' t, read_chars get n sbuf in_ none = .ok (sbuf', in', some t) := by
  induction n generalizing in_ rem sbuf text with
  | zero => cases hnext
  | succ n ih =>
    obtain ⟨ucs, in₁, err, rest₁, hget, hone, hvalid, hlive, hat⟩ := hg.gets h
    rw [charsNext, hone] at hnext
    cases err with
    | some t =>
      obtain ⟨sbuf₁, text₁, hwrite, hsbuf₁, -⟩ := ucs_write_calm (t := t) hsbuf hvalid
      obtain ⟨sbuf', in', text', hrun, -, -⟩ := read_chars_calm hg (t := t) hlive hsbuf₁
      exact ⟨sbuf', in', t, (read_chars_step hget hwrite).trans hrun⟩
    | none =>
      obtain ⟨sbuf₁, hwrite, hsbuf₁⟩ := ucs_write_has hsbuf hvalid
      obtain ⟨sbuf', in', t, hrun⟩ := ih (hat rfl) hsbuf₁ (Option.map_eq_none_iff.1 hnext)
      exact ⟨sbuf', in', t, (read_chars_step hget hwrite).trans hrun⟩

theorem ucsText_codes_length (hs : Spells next enc code) (as : List α) : as.length ≤ (ucsText (as.map code)).length := by
  have hvalid : ∀ ucs ∈ as.map code, gu_ucs_valid ucs = true := by
    intro ucs hucs
    obtain ⟨a, -, rfl⟩ := List.mem_map.1 hucs
    exact hs.valid a
  have hle := (ucsText_length hvalid).1
  rwa [List.length_map] at hle

/-- A text that breaks off leaves no more in the buffer than the whole text would. -/
theorem read_chars_cut (hg : Gets S get next) (hs : Spells next enc code) {as : List α} {pre more : Bytes}
    (htext : as.flatMap enc = pre ++ more) (hmore : more ≠ []) (h : InAt S total in_ pre) (hsbuf : sbuf.Has text as.length) :
    ∃ sbuf' in' t text', read_chars get as.length sbuf in_ none = .ok (sbuf', in', some t) ∧ sbuf'.Has text' 0 ∧
      text'.length ≤ text.length + (ucsText (as.map code)).length := by
  induction as generalizing in_ pre sbuf text with
  | nil => exact absurd (List.append_eq_nil_iff.1 htext.symm).2 hmore
  | cons a as ih =>
    obtain ⟨ucs, in₁, err, rest₁, hget, hone, hvalid, hlive, hat⟩ := hg.gets h
    have hcons : ucsText ((a :: as).map code) = ucsBytes (code a) ++ ucsText (as.map code) := rfl
    have hpos := (encode_one_valid (hs.valid a)).2.1
    rw [List.flatMap_cons] at htext
    rw [List.length_cons, hcons, List.length_append]
    -- the first character is whole, or breaks off
    rcases broken_off htext hmore with ⟨pre', rfl, hrest⟩ | ⟨more', henc, hmore'⟩
    · rw [hs.whole a pre'] at hone
      cases hone
      obtain ⟨sbuf₁, hwrite, hsbuf₁⟩ := ucs_write_has hsbuf hvalid
      obtain ⟨sbuf', in', t, text', hrun, hsbuf', hle⟩ := ih hrest (hat rfl) hsbuf₁
      rw [List.length_append] at hle
      exact ⟨sbuf', in', t, text', (read_chars_step hget hwrite).trans hrun, hsbuf', by omega⟩
    · have herr := hs.cut henc hmore'
      rw [hone] at herr
      cases err with
      | none => exact absurd rfl herr
      | some t =>
        obtain ⟨sbuf₁, text₁, hwrite, hsbuf₁, hle₁⟩ := ucs_write_calm (t := t) hsbuf hvalid
        obtain ⟨sbuf', in', text', hrun, hsbuf', hle⟩ := read_chars_calm hg (t := t) hlive hsbuf₁
        have hcodes := ucsText_codes_length hs as
        exact ⟨sbuf', in', t, text', (read_chars_step hget hwrite).trans hrun, hsbuf', by omega⟩

end Loop

/-! ## The string -/

section Strings
variable {σ α : Type} {S : GuInStreamFuns σ} {get : InFun σ GuUCS} {next : NextChar} {enc : α → Bytes} {code : α → GuUCS}
  {total : Nat} {in_ in' : GuIn σ} {rem rest bytes s : Bytes} {as : List α} {tag : Option PgfReadTagExn}

/-- A new buffer has room for as many characters as a length can say. -/
theorem LenBytes.room {len : Nat} (h : LenBytes bytes len) : gu_string_buf.Has [] len := by
  have hlt := LenBytes.lt h
  exact string_buf_has (by omega)

/-- What is there whole is read, or is too long for a string. -/
theorem read_string_whole (hg : Gets S get next) (hs : Spells next enc code) (hlen : LenBytes bytes as.length)
    (h : InAt S total in_ (bytes ++ (as.flatMap enc ++ rest))) : ∃ in', InAt S total in' rest ∧
      read_string S get in_ none = if (ucsText (as.map code)).length < 256 then .ok (ucsText (as.map code), in', none, none) else Exec.abort := by
  obtain ⟨in₁, hrun, hat⟩ := read_len_whole h hlen
  obtain ⟨sbuf', in', hchars, hsbuf', hat', -⟩ := read_chars_whole hg hat hlen.room (charsNext_spelled hs as rest)
  refine ⟨in', hat', ?_⟩
  unfold read_string
  rw [hrun, Exec.ok_bind]
  dsimp only
  rw [hchars, Exec.ok_bind]
  dsimp only
  rw [freeze_eq hsbuf', List.nil_append]
  split_ifs <;> rfl

/-- What breaks off is not taken for a string. -/
theorem read_string_cut (hg : Gets S get next) (hs : Spells next enc code) {pre more : Bytes} (hlen : LenBytes bytes as.length)
    (hlt : (ucsText (as.map code)).length < 256) (heq : bytes ++ as.flatMap enc = pre ++ more) (hmore : more ≠ []) (h : InAt S total in_ pre) :
    ∃ s in' t tag, read_string S get in_ none = .ok (s, in', some t, tag) := by
  rcases broken_off heq hmore with ⟨pre', rfl, htext⟩ | ⟨more', rfl, hmore'⟩
  · obtain ⟨in₁, hrun, hat⟩ := read_len_whole h hlen
    obtain ⟨sbuf', in', t, text', hchars, hsbuf', hle⟩ := read_chars_cut hg hs htext hmore hat hlen.room
    rw [List.length_nil, Nat.zero_add] at hle
    refine ⟨text', in', t, none, ?_⟩
    unfold read_string
    rw [hrun, Exec.ok_bind]
    dsimp only
    rw [hchars, Exec.ok_bind]
    dsimp only
    rw [freeze_eq hsbuf', if_pos (by omega)]
    rfl
  · obtain ⟨in', t, hrun⟩ := read_len_cut h hlen hmore'
    refine ⟨[], in', t, none, ?_⟩
    unfold read_string
    rw [hrun, Exec.ok_bind]
    dsimp only
    rw [read_chars, Exec.ok_bind]
    dsimp only
    rw [freeze_eq (string_buf_has (Nat.zero_le _))]
    rfl

/-- What is read was there. -/
theorem read_string_only (hg : Gets S get next) (h : InAt S total in_ rem) (hrun : read_string S get in_ none = .ok (s, in', none, tag)) :
    tag = none ∧ s.length < 256 ∧ ∃ bytes body rest codes, rem = bytes ++ body ∧ LenBytes bytes codes.length ∧
      charsNext next codes.length body = some (codes, rest) ∧ s = ucsText codes ∧ InAt S total in' rest := by
  obtain ⟨⟨len, in₁, err₁, tag₁⟩, hlen, hrun⟩ := Exec.bind_ok.1 hrun
  obtain ⟨⟨sbuf', in₂, err₂⟩, hchars, hrun⟩ := Exec.bind_ok.1 hrun
  obtain ⟨str, hfreeze, hrun⟩ := Exec.bind_ok.1 hrun
  cases hrun
  cases err₁ with
  | some t =>
    -- no character is read then, and the exception stays
    obtain rfl := read_len_raised hlen
    cases hchars
  | none =>
    obtain ⟨rfl, bytes, body, rfl, hbytes, hat⟩ := read_len_only h hlen
    cases hnext : charsNext next len body with
    | none =>
      obtain ⟨sbuf₁, in₃, t, hraise⟩ := read_chars_raises hg hat hbytes.room hnext
      rw [hraise] at hchars
      cases hchars
    | some r =>
      obtain ⟨sbuf₁, in₃, hwhole, hsbuf, hat', hcount⟩ := read_chars_whole hg hat hbytes.room hnext
      rw [hwhole] at hchars
      cases hchars
      rw [freeze_eq hsbuf, List.nil_append] at hfreeze
      by_cases hlt : (ucsText r.1).length < 256
      swap
      · rw [if_neg hlt] at hfreeze
        exact absurd hfreeze (Exec.abort_ne_ok _)
      rw [if_pos hlt] at hfreeze
      cases hfreeze
      exact ⟨rfl, hlt, bytes, body, r.2, r.1, rfl, hcount ▸ hbytes, hcount ▸ hnext, rfl, hat'⟩

end Strings

theorem ucsText_utf8 (text : List Char) : ucsText (text.map Char.toNat) = utf8 text := by
  induction text with
  | nil => rfl
  | cons c text ih => rw [List.map_cons, ucsText, List.flatMap_cons, ucsBytes_char, utf8_cons, ← ih, ucsText]

theorem latin1_toNat (b : UInt8) : (Char.ofNat b.toNat).toNat = b.toNat := by
  have hvalid : b.toNat.isValidChar := .inl (b.toNat_lt.trans (by decide))
  rw [Char.ofNat, dif_pos hvalid]
  rfl

theorem ucsText_latin1 (name : Bytes) : ucsText (name.map UInt8.toNat) = utf8 (name.map fun b => Char.ofNat b.toNat) := by
  rw [← ucsText_utf8, List.map_map]
  congr 1
  apply List.map_congr_left
  intro b _
  exact (latin1_toNat b).symm

theorem charsNext_latin1 {n : Nat} {body rest : Bytes} {codes : List GuUCS} (h : charsNext latin1Next n body = some (codes, rest)) :
    ∃ name, body = name ++ rest ∧ codes = name.map UInt8.toNat := by
  induction n generalizing body codes with
  | zero =>
    cases h
    exact ⟨[], rfl, rfl⟩
  | succ n ih =>
    cases body with
    | nil => cases h
    | cons b body =>
      obtain ⟨⟨codes', rest'⟩, hmore, heq⟩ := Option.map_eq_some_iff.1 h
      cases heq
      obtain ⟨name, rfl, rfl⟩ := ih hmore
      exact ⟨b :: name, rfl, rfl⟩

/-! ## Exact or rejected -/

section Exact
variable {σ : Type} {S : GuInStreamFuns σ} {in_ in' : GuIn σ} {pos total : Nat} {rem rest : Bytes}

theorem Source.inAt (h : Source S in_ pos rem) : InAt S (pos + rem.length) in_ rem := ⟨pos, h, rfl⟩

theorem InAt.source (h : InAt S (pos + rem.length) in' rest) (hle : rest.length ≤ rem.length) :
    Source S in' (pos + (rem.length - rest.length)) rest := by
  obtain ⟨pos', hsource, htotal⟩ := h
  obtain rfl : pos' = pos + (rem.length - rest.length) := by omega
  exact hsource

/-- What is asked of `pgf_read_to_GuString`: the strings that are there, an exception for one that breaks off, and no others. -/
structure ReadsStrings (S : GuInStreamFuns σ) (in_ : GuIn σ) (pos : Nat) (rem : Bytes) : Prop where
  whole : ∀ {bytes text rest}, rem = bytes ++ (utf8 text ++ rest) → LenBytes bytes text.length → (utf8 text).length < 256 → ∃ in',
    pgf_read_to_GuString S in_ none = .ok (utf8 text, in', none, none) ∧ Source S in' (pos + (rem.length - rest.length)) rest
  long : ∀ {bytes text rest}, rem = bytes ++ (utf8 text ++ rest) → LenBytes bytes text.length → 256 ≤ (utf8 text).length →
    pgf_read_to_GuString S in_ none = Exec.abort
  cut : ∀ {bytes text more}, bytes ++ utf8 text = rem ++ more → more ≠ [] → LenBytes bytes text.length → (utf8 text).length < 256 →
    ∃ s in' t tag, pgf_read_to_GuString S in_ none = .ok (s, in', some t, tag)
  only : ∀ {s in' tag}, pgf_read_to_GuString S in_ none = .ok (s, in', none, tag) → s.length < 256 ∧ ∃ bytes body rest codes,
    rem = bytes ++ body ∧ LenBytes bytes codes.length ∧ charsNext utf8Next codes.length body = some (codes, rest) ∧ s = ucsText codes ∧
      Source S in' (pos + (rem.length - rest.length)) rest

theorem charsNext_utf8_length {n : Nat} {codes : List GuUCS} (h : charsNext utf8Next n rem = some (codes, rest)) : rest.length ≤ rem.length := by
  induction n generalizing rem codes with
  | zero =>
    cases h
    exact Nat.le_refl _
  | succ n ih =>
    obtain ⟨ucs, in', err, rest₁, -, hout, -, -⟩ := in_utf8_source (InReach.start (.data rem)).source
    rw [charsNext, hout.next] at h
    split_ifs at h
    obtain ⟨⟨codes', rest'⟩, hmore, heq⟩ := Option.map_eq_some_iff.1 h
    cases heq
    exact (ih hmore).trans hout.length_le

/-- Strings are read whole or not at all, over any streams. -/
theorem strings_exact (h : Source S in_ pos rem) : ReadsStrings S in_ pos rem where
  whole := by
    rintro bytes text rest rfl hlen hlt
    obtain ⟨in', hat, hrun⟩ := read_string_whole utf8_gets utf8_spells hlen h.inAt
    rw [ucsText_utf8, if_pos hlt] at hrun
    refine ⟨in', hrun, hat.source ?_⟩
    simp only [List.length_append]
    omega
  long := by
    rintro bytes text rest rfl hlen hge
    obtain ⟨in', -, hrun⟩ := read_string_whole utf8_gets utf8_spells hlen h.inAt
    rwa [ucsText_utf8, if_neg (Nat.not_lt.2 hge)] at hrun
  cut := by
    intro bytes text more heq hmore hlen hlt
    exact read_string_cut utf8_gets utf8_spells hlen (by rwa [ucsText_utf8]) heq hmore h.inAt
  only := by
    intro s in' tag hrun
    obtain ⟨-, hlt, bytes, body, rest, codes, rfl, hlen, hnext, hs, hat⟩ := read_string_only utf8_gets h.inAt hrun
    refine ⟨hlt, bytes, body, rest, codes, rfl, hlen, hnext, hs, hat.source ?_⟩
    have hle := charsNext_utf8_length hnext
    rw [List.length_append]
    omega

theorem strings_exact_euro : ReadsStrings (gu_buffered_in_funs gu_file_in_funs)
    (gu_new_buffered_in (gu_file_in [2, 0xe2, 0x82, 0xac, 0x35] fun _ => 1) 3) 0 [2, 0xe2, 0x82, 0xac, 0x35] :=
  strings_exact (InReach.start (.buffered (.file _ _) (by decide) (by decide))).source

/-- The UTF-8 text of a name in Latin-1. -/
def nameText (name : Bytes) : GuString := utf8 (name.map fun b => Char.ofNat b.toNat)

/-- What is asked of `pgf_read_to_PgfCId`: it takes the names that are there and fit, and an exception is raised for one that breaks off. -/
structure ReadsNames (S : GuInStreamFuns σ) (in_ : GuIn σ) (pos : Nat) (rem : Bytes) : Prop where
  exact : ∀ s, (∃ in' tag, pgf_read_to_PgfCId S in_ none = .ok (s, in', none, tag)) ↔
    ∃ bytes name rest, rem = bytes ++ (name ++ rest) ∧ LenBytes bytes name.length ∧ s = nameText name ∧ s.length < 256
  leaves : ∀ {s in' tag bytes name rest}, pgf_read_to_PgfCId S in_ none = .ok (s, in', none, tag) → rem = bytes ++ (name ++ rest) →
    LenBytes bytes name.length → Source S in' (pos + (rem.length - rest.length)) rest
  cut : ∀ {bytes name more}, bytes ++ name = rem ++ more → more ≠ [] → LenBytes bytes name.length → (nameText name).length < 256 →
    ∃ s in' t tag, pgf_read_to_PgfCId S in_ none = .ok (s, in', some t, tag)

theorem read_name_whole {bytes name : Bytes} (h : Source S in_ pos (bytes ++ (name ++ rest))) (hlen : LenBytes bytes name.length) : ∃ in',
    InAt S (pos + (bytes ++ (name ++ rest)).length) in' rest ∧
      pgf_read_to_PgfCId S in_ none = if (nameText name).length < 256 then .ok (nameText name, in', none, none) else Exec.abort := by
  have hat := h.inAt
  rw [← List.flatMap_singleton' name] at hat
  obtain ⟨in', hat', hrun⟩ := read_string_whole latin1_gets latin1_spells hlen hat
  rw [List.flatMap_singleton'] at hat'
  rw [ucsText_latin1] at hrun
  exact ⟨in', hat', hrun⟩

/-- Names are read whole or not at all, over any streams. -/
theorem names_exact (h : Source S in_ pos rem) : ReadsNames S in_ pos rem where
  exact := by
    intro s
    constructor
    · rintro ⟨in', tag, hrun⟩
      obtain ⟨-, hlt, bytes, body, rest, codes, rfl, hlen, hnext, hs, -⟩ := read_string_only latin1_gets h.inAt hrun
      obtain ⟨name, rfl, rfl⟩ := charsNext_latin1 hnext
      rw [List.length_map] at hlen
      exact ⟨bytes, name, rest, rfl, hlen, hs.trans (ucsText_latin1 name), hlt⟩
    · rintro ⟨bytes, name, rest, rfl, hlen, rfl, hlt⟩
      obtain ⟨in', -, hrun⟩ := read_name_whole h hlen
      exact ⟨in', none, hrun.trans (if_pos hlt)⟩
  leaves := by
    rintro s in' tag bytes name rest hrun rfl hlen
    obtain ⟨in₁, hat, hwhole⟩ := read_name_whole h hlen
    rw [hwhole] at hrun
    by_cases hlt : (nameText name).length < 256
    · rw [if_pos hlt] at hrun
      cases hrun
      refine hat.source ?_
      simp only [List.length_append]
      omega
    · rw [if_neg hlt] at hrun
      exact absurd hrun (Exec.abort_ne_ok _)
  cut := by
    intro bytes name more heq hmore hlen hlt
    rw [← List.flatMap_singleton' name] at heq
    exact read_string_cut latin1_gets latin1_spells hlen (by rwa [ucsText_latin1]) heq hmore h.inAt

theorem names_exact_umlaut : ReadsNames (gu_buffered_in_funs gu_file_in_funs)
    (gu_new_buffered_in (gu_file_in [3, 0x66, 0xfc, 0x72] fun _ => 1) 3) 0 [3, 0x66, 0xfc, 0x72] :=
  names_exact (InReach.start (.buffered (.file _ _) (by decide) (by decide))).source

end Exact

end Libpgf
