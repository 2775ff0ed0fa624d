import Libpgf.Gu.InCalm
import Libpgf.Gu.Utf8In
/-!
# Reading characters (`gu/read.h`, `gu/ucs.c`, `gu/utf8.c`)

The code is built where C characters are ASCII (`GU_CHAR_ASCII`). A character
that is in the buffer is then taken as it is; any other must be portable.
-/

namespace Libpgf

/-- A `char`; those from 80 on are negative in C. -/
abbrev GuChar := UInt8

/-- Bit `c` of the table, for the two halves of ASCII. -/
def gu_char_is_valid (c : GuChar) : Bool :=
  if 127 < c then false
  else if c < 64 then (0xffffffef00003f81 : Nat).testBit c.toNat
  else (0x7ffffffefffffffe : Nat).testBit (c.toNat - 64)

def gu_ucs_char (uc : GuUCS) : GuChar :=
  if uc < 128 ∧ gu_char_is_valid (UInt8.ofNat uc) then UInt8.ofNat uc else 0

/-! ## Classes of characters (`ctype.h`) -/

def isspace (c : GuChar) : Bool := c = 0x20 || (9 ≤ c && c ≤ 13)

def isalpha (c : GuChar) : Bool := (0x41 ≤ c && c ≤ 0x5a) || (0x61 ≤ c && c ≤ 0x7a)

def isalnum (c : GuChar) : Bool := isalpha c || (0x30 ≤ c && c ≤ 0x39)

/-! ## Readers -/

namespace GuIn
variable {σ : Type} (S : GuInStreamFuns σ)

def gu_in_utf8_char_ (in_ : GuIn σ) (err : GuExn) : Exec (GuChar × GuIn σ × GuExn) := do
  let (u, in_, err) ← in_.gu_in_utf8 S err
  if !gu_ok err then return (0, in_, err)
  let c := gu_ucs_char u
  return (c, in_, if c = 0 ∧ u ≠ 0 then gu_raise err .GuUCSExn else err)

def gu_in_utf8_char (in_ : GuIn σ) (err : GuExn) : Exec (GuChar × GuIn σ × GuExn) := do
  let i ← in_.gu_in_peek_u8
  match i with
  | some c =>
    if c < 0x80 then
      let in_ ← in_.gu_in_consume 1
      return (c, in_, err)
    gu_in_utf8_char_ S in_ err
  | none => gu_in_utf8_char_ S in_ err

end GuIn

abbrev GuReader (σ : Type) := GuIn σ

def gu_getc {σ : Type} (S : GuInStreamFuns σ) (rdr : GuReader σ) (err : GuExn) : Exec (GuChar × GuReader σ × GuExn) :=
  rdr.gu_in_utf8_char S err

/-- The functions of its stream are `gu_proxy_in_funs`. -/
def gu_new_utf8_reader {σ : Type} (utf8_in : GuIn σ) : GuReader (GuIn σ) := gu_init_in (gu_in_proxy_stream utf8_in)

/-! ## What a reader delivers -/

section Getc
variable {σ : Type} {S : GuInStreamFuns σ} {rdr : GuReader σ} {pos : Nat}

theorem ucs_char_ascii {c : GuChar} (hc : c.toNat < 128) : gu_ucs_char c.toNat = if gu_char_is_valid c then c else 0 := by
  unfold gu_ucs_char
  rw [UInt8.ofNat_toNat]
  simp only [hc, true_and]

theorem gu_in_utf8_ascii {v : InView S} (h : rdr.Ok v) (hleft : rdr.left = 0) : (rdr.rest v = [] ∧
      ∃ rdr', rdr.gu_in_utf8 S none = .ok (0, rdr', some .GuEOF) ∧ rdr'.Ok v ∧ rdr'.rest v = [] ∧ rdr'.gu_in_tell = rdr.gu_in_tell) ∨
    ∃ c rest, rdr.rest v = c :: rest ∧ (c.toNat < 128 → ∃ rdr', rdr.gu_in_utf8 S none = .ok (c.toNat, rdr', none) ∧ rdr'.Ok v ∧
      rdr'.rest v = rest ∧ rdr'.gu_in_tell = rdr.gu_in_tell + 1) := by
  have hlong : rdr.gu_in_utf8 S none = rdr.gu_in_utf8_ S none := by
    unfold GuIn.gu_in_utf8 GuIn.gu_in_peek_u8
    rw [if_pos hleft]
    rfl
  rw [hlong]
  unfold GuIn.gu_in_utf8_
  rcases GuIn.u8_spec h with ⟨hend, rdr₁, hu8, hok, hrest, htell⟩ | ⟨c, rdr₁, hu8, hok, hrest, htell⟩
  · refine .inl ⟨hend, rdr₁, ?_, hok, hrest, htell⟩
    rw [hu8]
    rfl
  · refine .inr ⟨c, rdr₁.rest v, hrest, fun hc => ?_⟩
    obtain ⟨got, rdr', hsome, hok', hrest', htell', hlen, -⟩ := GuIn.some_spec hok (Nat.le_refl 0) (Nat.zero_le PTRDIFF_MAX)
    obtain rfl := List.length_eq_zero_iff.1 (Nat.le_zero.1 hlen)
    have hlead : c < 0xc0 := by
      show c.toNat < 0xc0
      omega
    have hdec : gu_utf8_decode_one [c] 0 none = .ok (1, c.toNat, none) := if_pos hc
    refine ⟨rdr', ?_, hok', hrest'.symm, htell'.trans htell⟩
    rw [hu8]
    simp only [Exec.ok_bind, gu_ok_none, Bool.not_true, Bool.false_eq_true, if_false, if_pos hlead, hsome, List.length_nil,
      Nat.lt_irrefl, hdec, Exec.pure_eq]

/-- What the slow path makes of an ASCII code point. -/
theorem gu_in_utf8_char_slow {rdr' : GuReader σ} {c : GuChar} (hc : c.toNat < 128) (hrun : rdr.gu_in_utf8 S none = .ok (c.toNat, rdr', none)) :
    rdr.gu_in_utf8_char_ S none = if gu_char_is_valid c then .ok (c, rdr', none) else .ok (0, rdr', some .GuUCSExn) := by
  unfold GuIn.gu_in_utf8_char_
  rw [hrun]
  simp only [Exec.ok_bind, gu_ok_none, Bool.not_true, Bool.false_eq_true, if_false, ucs_char_ascii hc, gu_raise_none, Exec.pure_eq]
  cases hvalid : gu_char_is_valid c with
  | true =>
    have hzero : ¬ (c = 0 ∧ c.toNat ≠ 0) := fun h => h.2 (congrArg UInt8.toNat h.1)
    simp only [if_true, if_neg hzero]
  | false =>
    have hpos : c.toNat ≠ 0 := by
      intro h
      obtain rfl : c = 0 := UInt8.toNat_inj.1 h
      exact absurd hvalid (by decide)
    simp only [Bool.false_eq_true, if_false, hpos, ne_eq, not_false_eq_true, and_self, if_true]

theorem getc_end (h : Source S rdr pos []) : ∃ rdr', gu_getc S rdr none = .ok (0, rdr', some .GuEOF) ∧ Source S rdr' pos [] := by
  obtain ⟨v, hcalm, hok, rfl, hrest⟩ := h
  rcases GuIn.peek_spec hok with ⟨hleft, hp⟩ | ⟨u, -, -, hhead⟩
  · rcases gu_in_utf8_ascii hok hleft with ⟨-, rdr', hrun, hok', hrest', htell'⟩ | ⟨c, rest, hcons, -⟩
    · refine ⟨rdr', ?_, v, hcalm, hok', htell', hrest'⟩
      unfold gu_getc GuIn.gu_in_utf8_char GuIn.gu_in_utf8_char_
      rw [hp, Exec.ok_bind, hrun]
      rfl
    · rw [hrest] at hcons
      cases hcons
  · rw [hrest] at hhead
    cases hhead

/-- An ASCII character comes as it is, unless it is not portable and not in the buffer. -/
theorem getc_ascii {c : GuChar} {rest : Bytes} (h : Source S rdr pos (c :: rest)) (hc : c.toNat < 128) :
    ∃ rdr', Source S rdr' (pos + 1) rest ∧ (gu_getc S rdr none = .ok (c, rdr', none) ∨
      (gu_char_is_valid c = false ∧ gu_getc S rdr none = .ok (0, rdr', some .GuUCSExn))) := by
  obtain ⟨v, hcalm, hok, rfl, hrest⟩ := h
  unfold gu_getc GuIn.gu_in_utf8_char
  rcases GuIn.peek_spec hok with ⟨hleft, hp⟩ | ⟨u, hleft, hp, hhead⟩
  · rcases gu_in_utf8_ascii hok hleft with ⟨hend, -⟩ | ⟨c', rest', hcons, hrun⟩
    · rw [hrest] at hend
      cases hend
    · rw [hrest] at hcons
      cases hcons
      obtain ⟨rdr', hrun, hok', hrest', htell'⟩ := hrun hc
      refine ⟨rdr', ⟨v, hcalm, hok', htell', hrest'⟩, ?_⟩
      rw [hp]
      simp only [Exec.ok_bind, gu_in_utf8_char_slow hc hrun]
      cases hvalid : gu_char_is_valid c with
      | true => exact .inl rfl
      | false => exact .inr ⟨rfl, rfl⟩
  · obtain ⟨c', -, hok', hcons, htell⟩ := GuIn.unread_cons hok hleft
    rw [hrest] at hhead hcons
    cases hcons
    cases hhead
    refine ⟨rdr.advance 1, ⟨v, hcalm, hok', htell, rfl⟩, .inl ?_⟩
    rw [hp]
    simp only [Exec.ok_bind, if_pos (show c < 0x80 from hc), GuIn.consume_eq hleft, Exec.pure_eq]

/-- With an exception raised, what is read does not matter. -/
theorem getc_calm {t : GuExnType} {rem : Bytes} (h : Source S rdr pos rem) :
    ∃ c rdr' pos' rem', gu_getc S rdr (some t) = .ok (c, rdr', some t) ∧ Source S rdr' pos' rem' := by
  obtain ⟨v, hcalm, hok, rfl, rfl⟩ := h
  obtain ⟨u, rdr₁, hu8, hok₁⟩ := GuIn.calm_u8 (t := t) hcalm hok
  have hslow : rdr.gu_in_utf8_ S (some t) = .ok (0, rdr₁, some t) := by
    unfold GuIn.gu_in_utf8_
    rw [hu8]
    rfl
  have hsource : Source S rdr₁ rdr₁.gu_in_tell (rdr₁.rest v) := ⟨v, hcalm, hok₁, rfl, rfl⟩
  unfold gu_getc GuIn.gu_in_utf8_char
  rcases GuIn.peek_spec hok with ⟨-, hp⟩ | ⟨c, hleft, hp, -⟩
  · refine ⟨0, rdr₁, _, _, ?_, hsource⟩
    unfold GuIn.gu_in_utf8_char_ GuIn.gu_in_utf8
    rw [hp, Exec.ok_bind, Exec.ok_bind, hslow]
    rfl
  · rw [hp, Exec.ok_bind]
    by_cases hc : c < 0x80
    · obtain ⟨-, -, hok', -⟩ := GuIn.unread_cons hok hleft
      refine ⟨c, rdr.advance 1, _, _, ?_, v, hcalm, hok', rfl, rfl⟩
      simp only [if_pos hc, GuIn.consume_eq hleft, Exec.ok_bind, Exec.pure_eq]
    · refine ⟨0, rdr₁, _, _, ?_, hsource⟩
      unfold GuIn.gu_in_utf8_char_ GuIn.gu_in_utf8
      rw [hp, Exec.ok_bind]
      simp only [if_neg hc, hslow, Exec.ok_bind, gu_ok_some, Bool.not_false, if_true, Exec.pure_eq]

end Getc

end Libpgf
