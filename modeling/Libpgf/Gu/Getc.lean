import Libpgf.Gu.Read
/-!
# The two paths of character reading

A character in the buffer is not checked, and any other one is. For portable
characters this makes no difference.
-/

namespace Libpgf

/-! ## One character -/

/-- Reading inline, and reading out of line. -/
def PathsAgree {σ : Type} (S : GuInStreamFuns σ) (in_ : GuIn σ) : Prop := in_.gu_in_utf8_char S none = in_.gu_in_utf8_char_ S none

/-- An ASCII character that is not portable is next in the buffer. -/
def Unportable {σ : Type} (in_ : GuIn σ) : Prop := ∃ c, in_.gu_in_peek_u8 = .ok (some c) ∧ c < 0x80 ∧ gu_char_is_valid c = false

section Char
variable {σ : Type} {S : GuInStreamFuns σ} {in_ : GuIn σ}

theorem peek_consume {c : UInt8} (hp : in_.gu_in_peek_u8 = .ok (some c)) : in_.gu_in_consume 1 = .ok (in_.advance 1) := by
  have hleft : 1 ≤ in_.left := by
    unfold GuIn.gu_in_peek_u8 at hp
    by_cases hzero : in_.left = 0
    · rw [if_pos hzero] at hp
      cases hp
    · omega
  exact GuIn.consume_eq hleft

/-- What the two paths make of an ASCII character in the buffer. -/
theorem buffered_paths {c : UInt8} (hp : in_.gu_in_peek_u8 = .ok (some c)) (hc : c < 0x80) :
    in_.gu_in_utf8_char S none = .ok (c, in_.advance 1, none) ∧
      in_.gu_in_utf8_char_ S none = if gu_char_is_valid c then .ok (c, in_.advance 1, none) else .ok (0, in_.advance 1, some .GuUCSExn) := by
  constructor
  · unfold GuIn.gu_in_utf8_char
    simp only [hp, Exec.ok_bind, if_pos hc, peek_consume hp, Exec.pure_eq]
  · apply gu_in_utf8_char_slow hc
    unfold GuIn.gu_in_utf8
    simp only [hp, Exec.ok_bind, if_pos hc, peek_consume hp, Exec.pure_eq]

theorem char_paths (S : GuInStreamFuns σ) (in_ : GuIn σ) : PathsAgree S in_ ↔ ¬ Unportable in_ := by
  unfold PathsAgree
  constructor
  · rintro heq ⟨c, hp, hc, hvalid⟩
    obtain ⟨hfast, hslow⟩ := buffered_paths (S := S) hp hc
    rw [hvalid, if_neg Bool.false_ne_true] at hslow
    rw [hfast, hslow] at heq
    cases heq
  · intro hport
    cases hp : in_.gu_in_peek_u8 with
    | error h =>
      unfold GuIn.gu_in_utf8_char GuIn.gu_in_utf8_char_ GuIn.gu_in_utf8
      rw [hp]
      rfl
    | ok i =>
      cases i with
      | none =>
        unfold GuIn.gu_in_utf8_char
        rw [hp, Exec.ok_bind]
      | some c =>
        by_cases hc : c < 0x80
        · obtain ⟨hfast, hslow⟩ := buffered_paths (S := S) hp hc
          cases hvalid : gu_char_is_valid c with
          | true => rw [hfast, hslow, hvalid, if_pos rfl]
          | false => exact absurd ⟨c, hp, hc, hvalid⟩ hport
        · unfold GuIn.gu_in_utf8_char
          rw [hp, Exec.ok_bind]
          exact if_neg hc

end Char

/-! ## Texts -/

/-- The next character of the bytes `rem`: its code point, what is raised, and what is left. -/
def utf8Next : Bytes → GuUCS × GuExn × Bytes
  | [] => (0, some .GuEOF, [])
  | c :: more =>
    let len := gu_in_utf8_len c
    if more.length < len then (0, some .GuUCSExn, [])
    else match gu_utf8_decode_one (c :: more.take len) 0 none with
      | .ok r => (r.2.1, r.2.2, more.drop len)
      | .error _ => (0, some .GuUCSExn, [])

/-- The outcome is determined by the bytes. -/
theorem Utf8Outcome.next {rem rest : Bytes} {u : GuUCS} {err : GuExn} (h : Utf8Outcome rem u err rest) : utf8Next rem = (u, err, rest) := by
  -- `tail` are the bytes that `gu_in_utf8_` reads after the first one
  have hwhole : ∀ {c : UInt8} {tail rest : Bytes} {r}, tail.length = gu_in_utf8_len c → gu_utf8_decode_one (c :: tail) 0 none = .ok r →
      utf8Next (c :: (tail ++ rest)) = (r.2.1, r.2.2, rest) := by
    intro c tail rest r hlen hdec
    have hle : ¬ (tail ++ rest).length < gu_in_utf8_len c := by
      rw [List.length_append]
      omega
    rw [← hlen] at hle
    simp only [utf8Next, ← hlen, if_neg hle, List.take_left', List.drop_left', hdec]
  have hlead : ∀ {c : UInt8} {tail : Bytes} {u}, 0xc2 ≤ c.toNat → c.toNat ≤ 0xf4 → tail.length = gu_utf8_len c →
      gu_utf8_assemble (c :: tail) (gu_utf8_len c) (gu_utf8_mask c (gu_utf8_len c)) = .ok u →
      gu_utf8_decode_one (c :: tail) 0 none =
        if !gu_ucs_valid u then .ok (0, 0, some .GuUCSExn) else .ok (gu_utf8_len c + 1, u, none) := by
    intro c tail u hlo hhi hlen hu
    have hascii : ¬ c < 0x80 := by
      show ¬ c.toNat < 0x80
      omega
    have hout : ¬ (c < 0xc2 ∨ c > 0xf4) := by
      show ¬ (c.toNat < 0xc2 ∨ 0xf4 < c.toNat)
      omega
    unfold gu_utf8_decode_one
    simp only [List.getElem?_cons_zero, Exec.deref_some, Exec.ok_bind, if_neg hascii, if_neg hout, hu, gu_raise_none, Exec.pure_eq]
  cases h with
  | eof => rfl
  | @ascii c rest hc =>
    have hlen : ([] : Bytes).length = gu_in_utf8_len c := (in_len_ascii hc).symm
    exact hwhole (r := (1, c.toNat, none)) hlen (if_pos hc)
  | cut hlen => exact if_pos hlen
  | refused hlen hc hc' =>
    refine hwhole (r := (0, 0, some .GuUCSExn)) hlen ?_
    have hascii : ¬ (_ : UInt8) < 0x80 := Nat.not_lt.2 hc
    exact (if_neg hascii).trans (if_pos hc')
  | above hlen hlo hhi habove =>
    obtain ⟨u, hu, hvalid⟩ := assemble_valid hlo hhi hlen
    have hfalse : gu_ucs_valid u = false := Bool.eq_false_iff.2 fun h => hvalid.1 h habove
    refine hwhole (r := (0, 0, some .GuUCSExn)) (by rw [in_len_lead hlo, hlen]) ?_
    rw [hlead hlo hhi hlen hu, hfalse]
    rfl
  | @taken c tail rest u hlen hlo hhi habove hu =>
    obtain ⟨u', hu', hvalid⟩ := assemble_valid hlo hhi hlen
    rw [hu] at hu'
    cases hu'
    refine hwhole (r := (gu_utf8_len c + 1, u, none)) (by rw [in_len_lead hlo, hlen]) ?_
    rw [hlead hlo hhi hlen hu, hvalid.2 habove]
    rfl

/-- The next character that is read out of line, what is raised, and what is left. -/
def charNext (rem : Bytes) : GuChar × GuExn × Bytes :=
  let r := utf8Next rem
  if r.2.1 = none then (gu_ucs_char r.1, if gu_ucs_char r.1 = 0 ∧ r.1 ≠ 0 then some .GuUCSExn else none, r.2.2) else (0, r.2.1, r.2.2)

theorem charNext_ascii {c : UInt8} (hc : c < 0x80) (rest : Bytes) :
    charNext (c :: rest) = if gu_char_is_valid c then (c, none, rest) else (0, some .GuUCSExn, rest) := by
  have hnext : utf8Next (c :: rest) = (c.toNat, none, rest) := (Utf8Outcome.ascii hc).next
  unfold charNext
  simp only [hnext, if_true, ucs_char_ascii hc]
  cases hvalid : gu_char_is_valid c with
  | true =>
    have hzero : ¬ (c = 0 ∧ c.toNat ≠ 0) := fun h => h.2 (congrArg UInt8.toNat h.1)
    simp only [if_true, if_neg hzero]
  | false =>
    have hpos : c.toNat ≠ 0 := by
      intro h
      obtain rfl : c = 0 := UInt8.toNat_inj.1 h
      exact absurd hvalid (by decide)
    simp only [Bool.false_eq_true, if_false, hpos, ne_eq, not_false_eq_true, and_self, if_true]

/-- An ASCII character that is not portable comes after characters that are read. -/
inductive Exposed : Bytes → Prop
  | here {c : UInt8} {rest : Bytes} (hc : c < 0x80) (hvalid : gu_char_is_valid c = false) : Exposed (c :: rest)
  | later {rem rest : Bytes} {c : GuChar} (h : charNext rem = (c, none, rest)) (h' : Exposed rest) : Exposed rem

/-- Reads up to `n` characters, up to the first exception. -/
def gu_getc_text {σ : Type} (S : GuInStreamFuns σ) : Nat → GuReader σ → Exec (List GuChar × GuExn)
  | 0, _ => .ok ([], none)
  | n + 1, rdr => do
    let (c, rdr, err) ← gu_getc S rdr none
    if !gu_ok err then return ([], err)
    let (cs, err) ← gu_getc_text S n rdr
    return (c :: cs, err)

/-- Any two readers that have the text still to come give the same characters and exceptions. -/
def SameText (text : Bytes) : Prop :=
  ∀ {σ σ' : Type} {S : GuInStreamFuns σ} {S' : GuInStreamFuns σ'} {rdr : GuReader σ} {rdr' : GuReader σ'},
    InReach S rdr text → InReach S' rdr' text → ∀ n, gu_getc_text S n rdr = gu_getc_text S' n rdr'

/-- What is read of a text whose characters are portable. -/
def portableText : Nat → Bytes → List GuChar × GuExn
  | 0, _ => ([], none)
  | n + 1, rem =>
    let r := charNext rem
    if r.2.1 = none then (r.1 :: (portableText n r.2.2).1, (portableText n r.2.2).2) else ([], r.2.1)

section Text
variable {σ : Type} {S : GuInStreamFuns σ} {rdr : GuReader σ} {rem : Bytes}

theorem getc_next (h : InReach S rdr rem) (hexp : ¬ Exposed rem) : ∃ rdr', gu_getc S rdr none = .ok ((charNext rem).1, rdr', (charNext rem).2.1) ∧
    ((charNext rem).2.1 = none → InReach S rdr' (charNext rem).2.2) := by
  have hport : ¬ Unportable rdr := by
    rintro ⟨c, hp, hc, hvalid⟩
    obtain ⟨v, hok, rfl⟩ := h.view
    rcases GuIn.peek_spec hok with ⟨-, hp'⟩ | ⟨u, -, hp', hhead⟩
    · rw [hp] at hp'
      cases hp'
    · rw [hp] at hp'
      cases hp'
      obtain ⟨rest, hrest⟩ := List.head?_eq_some_iff.1 hhead
      rw [hrest] at hexp
      exact hexp (.here hc hvalid)
  have hslow : gu_getc S rdr none = rdr.gu_in_utf8_char_ S none := (char_paths S rdr).2 hport
  obtain ⟨u, rdr', err, rest, hrun, hout, hreach⟩ := in_utf8_spec h
  have hnext := hout.next
  refine ⟨rdr', ?_, ?_⟩
  · rw [hslow]
    unfold GuIn.gu_in_utf8_char_ charNext
    rw [hrun, hnext]
    cases err with
    | some t => rfl
    | none =>
      simp only [Exec.ok_bind, gu_ok_none, Bool.not_true, Bool.false_eq_true, if_false, gu_raise_none, if_true, Exec.pure_eq]
  · unfold charNext
    rw [hnext]
    cases err with
    | some t => simp
    | none => exact fun _ => (hreach rfl).1

theorem portable_text (h : InReach S rdr rem) (hexp : ¬ Exposed rem) (n : Nat) : gu_getc_text S n rdr = .ok (portableText n rem) := by
  induction n generalizing rdr rem with
  | zero => rfl
  | succ n ih =>
    obtain ⟨rdr', hrun, hreach⟩ := getc_next h hexp
    unfold gu_getc_text portableText
    rw [hrun]
    generalize hnext : charNext rem = r at hreach
    obtain ⟨c, err, rest⟩ := r
    cases err with
    | some t => rfl
    | none =>
      have hrest : ¬ Exposed rest := fun h' => hexp (.later hnext h')
      simp only [Exec.ok_bind, gu_ok_none, Bool.not_true, Bool.false_eq_true, if_false, ih (hreach rfl) hrest, if_true, Exec.pure_eq]

/-- Readers in the states `St` hand out the bytes that are left one after the other. -/
structure Serves (S : GuInStreamFuns σ) (St : GuReader σ → Bytes → Prop) : Prop where
  u8 : ∀ {rdr c rest}, St rdr (c :: rest) → ∃ rdr', rdr.gu_in_u8 S none = .ok (c, rdr', none) ∧ St rdr' rest
  some : ∀ {rdr rem len}, St rdr rem → rem ≠ [] → len ≤ rem.length → len ≤ 3 →
    ∃ rdr', rdr.gu_in_some S len len none = .ok (rem.take len, rdr', none) ∧ St rdr' (rem.drop len)

/-- What such a reader decodes. -/
theorem Serves.utf8 {St : GuReader σ → Bytes → Prop} (hst : Serves S St) (h : St rdr rem) {rest : Bytes} {u : GuUCS} (hne : rest ≠ [])
    (hnext : utf8Next rem = (u, none, rest)) : ∃ rdr', rdr.gu_in_utf8_ S none = .ok (u, rdr', none) ∧ St rdr' rest := by
  cases rem with
  | nil => cases hnext
  | cons c more =>
    unfold utf8Next at hnext
    by_cases hlen : more.length < gu_in_utf8_len c
    · simp only [if_pos hlen] at hnext
      cases hnext
    · simp only [if_neg hlen] at hnext
      have htake : (more.take (gu_in_utf8_len c)).length = gu_in_utf8_len c := by
        rw [List.length_take]
        omega
      cases hdec : gu_utf8_decode_one (c :: more.take (gu_in_utf8_len c)) 0 none with
      | error e =>
        rw [hdec] at hnext
        cases hnext
      | ok r =>
        rw [hdec] at hnext
        obtain ⟨rfl, hr⟩ := Prod.mk.inj hnext
        obtain ⟨herr, rfl⟩ := Prod.mk.inj hr
        have hmore : more ≠ [] := by
          rintro rfl
          exact hne List.drop_nil
        obtain ⟨rdr₁, hu8, h₁⟩ := hst.u8 h
        obtain ⟨rdr₂, hsome, h₂⟩ := hst.some h₁ hmore (Nat.not_lt.1 hlen) (in_len_le c)
        refine ⟨rdr₂, ?_, h₂⟩
        unfold GuIn.gu_in_utf8_
        show (rdr.gu_in_u8 S none >>= _) = _
        rw [hu8, Exec.ok_bind]
        show (rdr₁.gu_in_some S (gu_in_utf8_len c) (gu_in_utf8_len c) none >>= _) = _
        rw [hsome, Exec.ok_bind]
        simp only [htake]
        show (if gu_in_utf8_len c < gu_in_utf8_len c then _ else _) = _
        rw [if_neg (Nat.lt_irrefl _), hdec, Exec.ok_bind, Exec.pure_eq, herr]

theorem charNext_some {c : GuChar} {rest : Bytes} (h : charNext rem = (c, none, rest)) :
    ∃ u, utf8Next rem = (u, none, rest) ∧ c = gu_ucs_char u ∧ ¬ (c = 0 ∧ u ≠ 0) := by
  unfold charNext at h
  generalize hnext : utf8Next rem = r at h
  obtain ⟨u, err, rest'⟩ := r
  cases err with
  | some t => simp at h
  | none =>
    simp only [if_true, Prod.mk.injEq, ite_eq_right_iff, reduceCtorEq, imp_false] at h
    obtain ⟨rfl, hzero, rfl⟩ := h
    exact ⟨u, rfl, rfl, hzero⟩

/-- Out of line, the character is read as `charNext` has it. -/
theorem Serves.char {St : GuReader σ → Bytes → Prop} (hst : Serves S St) (h : St rdr rem) {c : GuChar} {rest : Bytes} (hne : rest ≠ [])
    (hlong : rdr.gu_in_utf8 S none = rdr.gu_in_utf8_ S none) (hnext : charNext rem = (c, none, rest)) :
    ∃ rdr', rdr.gu_in_utf8_char_ S none = .ok (c, rdr', none) ∧ St rdr' rest := by
  obtain ⟨u, hu, rfl, hzero⟩ := charNext_some hnext
  obtain ⟨rdr', hrun, h'⟩ := hst.utf8 h hne hu
  refine ⟨rdr', ?_, h'⟩
  unfold GuIn.gu_in_utf8_char_
  rw [hlong, hrun]
  simp only [Exec.ok_bind, gu_ok_none, Bool.not_true, Bool.false_eq_true, if_false, if_neg hzero, Exec.pure_eq]

end Text

/-- A file that is read without a buffer. -/
def Unbuffered (rdr : GuReader GuFileInStream) (rem : Bytes) : Prop := rdr.buf = none ∧ rdr.left = 0 ∧ rdr.stream = ⟨rem, fun _ => 4⟩

theorem unbuffered_input {rdr : GuReader GuFileInStream} {rem : Bytes} (h : Unbuffered rdr rem) {sz : Nat} (h0 : 0 < sz) (hsz : sz ≤ 4) :
    ∃ rdr', rdr.gu_in_input gu_file_in_funs sz none = .ok (rem.take sz, rdr', none) ∧ Unbuffered rdr' (rem.drop sz) := by
  obtain ⟨buf, left, stream, pos⟩ := rdr
  obtain ⟨rfl, rfl, rfl⟩ := h
  have hmin : min sz (max 1 4) = sz := by omega
  refine ⟨⟨none, 0, ⟨rem.drop sz, fun _ => 4⟩, pos + (rem.take sz).length⟩, ?_, rfl, rfl, rfl⟩
  unfold GuIn.gu_in_input
  rw [if_neg (Nat.ne_of_gt h0)]
  simp only [GuIn.gu_in_end_buffering, Exec.ok_bind, gu_ok_none, Bool.not_true, Bool.false_eq_true, if_false, gu_file_in_funs, gu_file_input,
    hmin, Exec.pure_eq]

theorem unbuffered_begin {rdr : GuReader GuFileInStream} {rem : Bytes} (h : Unbuffered rdr rem) :
    rdr.gu_in_begin_buffering gu_file_in_funs none = .ok (false, rdr, none) := by
  unfold GuIn.gu_in_begin_buffering GuIn.gu_in_is_buffering
  rw [h.1]
  rfl

theorem unbuffered_serves : Serves gu_file_in_funs Unbuffered where
  u8 {rdr c rest} h := by
    obtain ⟨rdr', hin, h'⟩ := unbuffered_input h Nat.zero_lt_one (by decide)
    refine ⟨rdr', ?_, h'⟩
    simp only [GuIn.gu_in_u8, h.2.1, if_true, GuIn.gu_in_u8_, unbuffered_begin h, Exec.ok_bind, Bool.false_and, Bool.false_eq_true, if_false,
      hin, List.take_succ_cons, Exec.pure_eq]
  some {rdr rem len} h hne hlen h3 := by
    have hmax : len ≤ PTRDIFF_MAX := h3.trans (by decide)
    have htake : (rem.take len).length = len := by
      rw [List.length_take]
      omega
    unfold GuIn.gu_in_some
    simp only [Exec.require, Nat.le_refl, hmax, if_true, Exec.ok_bind, unbuffered_begin h, Bool.false_eq_true, if_false, gu_ok_none,
      Bool.not_true]
    cases len with
    | zero => exact ⟨rdr, rfl, h⟩
    | succ n =>
      obtain ⟨rdr', hin, h'⟩ := unbuffered_input h (Nat.succ_pos n) (Nat.le_succ_of_le h3)
      refine ⟨rdr', ?_, h'⟩
      unfold GuIn.gu_in_some_loop
      simp only [List.length_nil, Nat.succ_pos, if_true, Nat.sub_zero, hin, Exec.ok_bind, htake, Nat.succ_ne_zero, if_false, List.nil_append]
      unfold GuIn.gu_in_some_loop
      rw [htake, if_neg (Nat.lt_irrefl _)]

/-- A slice of memory of which `rem` is left in the buffer. -/
def Lent (rdr : GuReader Bytes) (rem : Bytes) : Prop := ∃ before, rdr.buf = some (before ++ rem) ∧ rdr.left = rem.length

theorem lent_unread {rdr : GuReader Bytes} {rem : Bytes} (h : Lent rdr rem) : rdr.unread = rem := by
  obtain ⟨before, hbuf, hleft⟩ := h
  unfold GuIn.unread
  rw [hbuf, hleft, Option.getD_some, List.length_append, Nat.add_sub_cancel, List.drop_left]

theorem lent_advance {rdr : GuReader Bytes} {rem : Bytes} (h : Lent rdr rem) (n : Nat) : Lent (rdr.advance n) (rem.drop n) := by
  obtain ⟨before, hbuf, hleft⟩ := h
  refine ⟨before ++ rem.take n, ?_, ?_⟩
  · show rdr.buf = _
    rw [hbuf, List.append_assoc, List.take_append_drop]
  · show rdr.left - n = _
    rw [hleft, List.length_drop]

theorem lent_peek {rdr : GuReader Bytes} {c : UInt8} {rest : Bytes} (h : Lent rdr (c :: rest)) : rdr.gu_in_peek_u8 = .ok (some c) := by
  have hleft : rdr.left ≠ 0 := by
    rw [h.choose_spec.2]
    exact Nat.succ_ne_zero _
  unfold GuIn.gu_in_peek_u8
  rw [if_neg hleft, lent_unread h]
  rfl

theorem lent_serves : Serves gu_data_in_funs Lent where
  u8 {rdr c rest} h := by
    have hleft : rdr.left ≠ 0 := by
      rw [h.choose_spec.2]
      exact Nat.succ_ne_zero _
    refine ⟨rdr.advance 1, ?_, lent_advance h 1⟩
    unfold GuIn.gu_in_u8
    rw [if_neg hleft, lent_unread h]
    rfl
  some {rdr rem len} h hne hlen h3 := by
    have hmax : len ≤ PTRDIFF_MAX := h3.trans (by decide)
    have htake : (rem.take len).length = len := by
      rw [List.length_take]
      omega
    have hpos : 0 < rdr.left := by
      rw [h.choose_spec.2]
      exact List.length_pos_of_ne_nil hne
    have hmin : min len rdr.left = len := by
      rw [h.choose_spec.2]
      omega
    have hbegin : rdr.gu_in_begin_buffering gu_data_in_funs none = .ok (true, rdr, none) := by
      unfold GuIn.gu_in_begin_buffering GuIn.gu_in_is_buffering
      rw [h.choose_spec.1, Option.isSome_some, if_pos rfl, if_pos hpos]
    refine ⟨rdr.advance len, ?_, lent_advance h len⟩
    unfold GuIn.gu_in_some
    simp only [Exec.require, Nat.le_refl, hmax, if_true, Exec.ok_bind, hbegin, hmin, lent_unread h]
    unfold GuIn.gu_in_some_loop
    rw [htake, if_neg (Nat.lt_irrefl _)]

/-! ### Both at one text -/

theorem Exposed.ne_nil {rem : Bytes} (h : Exposed rem) : rem ≠ [] := by
  cases h with
  | here _ _ => simp
  | later hnext _ =>
    rintro rfl
    cases hnext

theorem unbuffered_paths {rdr : GuReader GuFileInStream} {rem : Bytes} (h : Unbuffered rdr rem) :
    gu_getc gu_file_in_funs rdr none = rdr.gu_in_utf8_char_ gu_file_in_funs none ∧
      rdr.gu_in_utf8 gu_file_in_funs none = rdr.gu_in_utf8_ gu_file_in_funs none := by
  have hpeek : rdr.gu_in_peek_u8 = .ok none := if_pos h.2.1
  constructor
  · unfold gu_getc GuIn.gu_in_utf8_char
    rw [hpeek, Exec.ok_bind]
  · unfold GuIn.gu_in_utf8
    rw [hpeek, Exec.ok_bind]

theorem unbuffered_refuses {rdr : GuReader GuFileInStream} {c : GuChar} {rest : Bytes} (h : Unbuffered rdr (c :: rest)) (hc : c < 0x80)
    (hvalid : gu_char_is_valid c = false) : ∃ rdr', gu_getc gu_file_in_funs rdr none = .ok (0, rdr', some .GuUCSExn) := by
  have hok : rdr.Ok fileView := ⟨trivial, fun buf hbuf => by simp [h.1] at hbuf, h.2.1.symm ▸ Nat.zero_le _⟩
  have hrest : rdr.rest fileView = c :: rest := by
    rw [GuIn.rest_none h.1, h.2.2]
    rfl
  rcases gu_in_utf8_ascii hok h.2.1 with ⟨hend, -⟩ | ⟨c', rest', hcons, hrun⟩
  · rw [hrest] at hend
    cases hend
  · rw [hrest] at hcons
    cases hcons
    obtain ⟨rdr', hrun, -⟩ := hrun hc
    exact ⟨rdr', by rw [(unbuffered_paths h).1, gu_in_utf8_char_slow hc hrun, hvalid, if_neg Bool.false_ne_true]⟩

/-- A character that is followed by another is read from the buffer. -/
theorem lent_getc {rdr : GuReader Bytes} {rem rest : Bytes} {c : GuChar} (h : Lent rdr rem) (hne : rest ≠ [])
    (hnext : charNext rem = (c, none, rest)) : ∃ rdr', gu_getc gu_data_in_funs rdr none = .ok (c, rdr', none) ∧ Lent rdr' rest := by
  cases rem with
  | nil => cases hnext
  | cons d more =>
    have hpeek := lent_peek h
    by_cases hd : d < 0x80
    · rw [charNext_ascii hd] at hnext
      cases hvalid : gu_char_is_valid d with
      | false =>
        rw [hvalid] at hnext
        cases hnext
      | true =>
        rw [hvalid, if_pos rfl] at hnext
        cases hnext
        exact ⟨rdr.advance 1, (buffered_paths hpeek hd).1, lent_advance h 1⟩
    · have hlong : rdr.gu_in_utf8 gu_data_in_funs none = rdr.gu_in_utf8_ gu_data_in_funs none := by
        unfold GuIn.gu_in_utf8
        simp only [hpeek, Exec.ok_bind, if_neg hd]
      have hslow : gu_getc gu_data_in_funs rdr none = rdr.gu_in_utf8_char_ gu_data_in_funs none := by
        unfold gu_getc GuIn.gu_in_utf8_char
        simp only [hpeek, Exec.ok_bind, if_neg hd]
      rw [hslow]
      exact lent_serves.char h hne hlong hnext

/-- One character, and then the others. -/
theorem getc_text_succ {σ : Type} {S : GuInStreamFuns σ} {rdr rdr' : GuReader σ} {c : GuChar} {n : Nat} {cs : List GuChar} {err : GuExn}
    (hget : gu_getc S rdr none = .ok (c, rdr', none)) (hrun : gu_getc_text S n rdr' = .ok (cs, err)) :
    gu_getc_text S (n + 1) rdr = .ok (c :: cs, err) := by
  unfold gu_getc_text
  rw [hget, Exec.ok_bind]
  simp only [gu_ok_none, Bool.not_true, Bool.false_eq_true, if_false, hrun, Exec.ok_bind, Exec.pure_eq]

/-- Without a buffer an exception is raised, and in the buffer none. -/
theorem exposed_differ {rem : Bytes} (h : Exposed rem) : ∃ n,
    (∀ {rdr}, Unbuffered rdr rem → ∃ cs, gu_getc_text gu_file_in_funs n rdr = .ok (cs, some .GuUCSExn)) ∧
    ∀ {rdr}, Lent rdr rem → ∃ cs, gu_getc_text gu_data_in_funs n rdr = .ok (cs, none) := by
  induction h with
  | @here c rest hc hvalid =>
    refine ⟨1, fun {rdr} hu => ?_, fun {rdr} hl => ?_⟩
    · obtain ⟨rdr', hget⟩ := unbuffered_refuses hu hc hvalid
      refine ⟨[], ?_⟩
      unfold gu_getc_text
      rw [hget]
      rfl
    · exact ⟨[c], getc_text_succ (buffered_paths (lent_peek hl) hc).1 rfl⟩
  | @later rem rest c hnext h' ih =>
    obtain ⟨n, hslow, hfast⟩ := ih
    refine ⟨n + 1, fun {rdr} hu => ?_, fun {rdr} hl => ?_⟩
    · obtain ⟨rdr', hget, hu'⟩ := unbuffered_serves.char hu h'.ne_nil (unbuffered_paths hu).2 hnext
      obtain ⟨cs, hrun⟩ := hslow hu'
      exact ⟨c :: cs, getc_text_succ ((unbuffered_paths hu).1.trans hget) hrun⟩
    · obtain ⟨rdr', hget, hl'⟩ := lent_getc hl h'.ne_nil hnext
      obtain ⟨cs, hrun⟩ := hfast hl'
      exact ⟨c :: cs, getc_text_succ hget hrun⟩

/-- A text is the same to all readers when no character that is not portable is exposed in it. -/
theorem same_text_iff (text : Bytes) : SameText text ↔ ¬ Exposed text := by
  constructor
  · intro hsame hexp
    obtain ⟨n, hslow, hfast⟩ := exposed_differ hexp
    -- the byte in front of the text makes the slice lend its buffer
    have hdata : InReach gu_data_in_funs ⟨some (0x61 :: text), text.length, 0x61 :: text, 0⟩ text := by
      have hrun : GuInOp.in_u8.run gu_data_in_funs (gu_data_in (0x61 :: text)) =
          .ok ([0x61], ⟨some (0x61 :: text), text.length, 0x61 :: text, 0⟩, none) := by
        simp [GuInOp.run, GuIn.gu_in_u8, GuIn.gu_in_u8_, GuIn.gu_in_begin_buffering, GuIn.gu_in_is_buffering, GuIn.gu_in_borrow,
          gu_data_in_funs, gu_data_in, gu_init_in, GuIn.unread, GuIn.advance]
      exact (InReach.start (.data (0x61 :: text))).op .in_u8 trivial hrun
    have hfile : InReach gu_file_in_funs (gu_file_in text fun _ => 4) text := .start (.file text _)
    obtain ⟨cs, hrun⟩ := hslow (show Unbuffered (gu_file_in text fun _ => 4) text from ⟨rfl, rfl, rfl⟩)
    obtain ⟨cs', hrun'⟩ := hfast (show Lent ⟨some (0x61 :: text), text.length, 0x61 :: text, 0⟩ text from ⟨[0x61], rfl, rfl⟩)
    rw [hsame hfile hdata n, hrun'] at hrun
    cases hrun
  · intro hexp σ σ' S S' rdr rdr' h h' n
    rw [portable_text h hexp, portable_text h' hexp]

/-- The paths agree unless a character that is not portable is next in the buffer, and texts are the same to all readers unless such a
character is exposed in them. -/
theorem paths_agree {σ : Type} (S : GuInStreamFuns σ) (in_ : GuIn σ) (text : Bytes) :
    (PathsAgree S in_ ↔ ¬ Unportable in_) ∧ (SameText text ↔ ¬ Exposed text) :=
  ⟨char_paths S in_, same_text_iff text⟩

/-- A dollar sign in the buffer. -/
theorem paths_differ : ¬ ∀ {σ : Type} (S : GuInStreamFuns σ) (in_ : GuIn σ) (text : Bytes), PathsAgree S in_ ∧ SameText text := by
  intro hagree
  have hunportable : Unportable (⟨some [0x24], 1, [0x24], 0⟩ : GuIn Bytes) := ⟨0x24, rfl, by decide, rfl⟩
  exact (char_paths gu_data_in_funs _).1 (hagree _ _ []).1 hunportable

end Libpgf
