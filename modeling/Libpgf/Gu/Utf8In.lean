import Libpgf.Gu.InStack
import Libpgf.Gu.Utf8Laws
/-!
# Reading UTF-8

`gu_in_utf8` takes well-formed sequences for what they are. Of the others it
refuses those that are cut short, that begin with a byte that begins none, and
that come to more than `GU_UCS_MAX`; any others come through.
-/

namespace Libpgf

open String

/-! ## What the decoder accepts -/

/-- How many bytes `gu_in_utf8_` reads after the first one. -/
def gu_in_utf8_len (c : UInt8) : Nat := if c < 0xc0 then 0 else gu_utf8_len c

theorem in_len_lead {c : UInt8} (h : 0xc2 ≤ c.toNat) : gu_in_utf8_len c = gu_utf8_len c := by
  have h' : ¬ c.toNat < 0xc0 := by omega
  exact if_neg h'

theorem in_len_ascii {c : UInt8} (h : c.toNat < 0x80) : gu_in_utf8_len c = 0 := by
  have h' : c.toNat < 0xc0 := by omega
  exact if_pos h'

theorem in_len_le (c : UInt8) : gu_in_utf8_len c ≤ 3 := by
  unfold gu_in_utf8_len gu_utf8_len
  split <;> [skip; split] <;> [skip; skip; split] <;> decide

/-- The only sequences above `GU_UCS_MAX` are those that begin with `F4` and have a second byte that is too large. -/
def Above (c : UInt8) (tail : Bytes) : Prop := c = 0xf4 ∧ ∃ b ∈ tail.head?, 16 ≤ b.toNat % 64

theorem assemble_valid {c : UInt8} {tail : Bytes} (hlo : 0xc2 ≤ c.toNat) (hhi : c.toNat ≤ 0xf4) (hlen : tail.length = gu_utf8_len c) :
    ∃ u, gu_utf8_assemble (c :: tail) (gu_utf8_len c) (gu_utf8_mask c (gu_utf8_len c)) = .ok u ∧ (gu_ucs_valid u = true ↔ ¬ Above c tail) := by
  have hf4 : c = 0xf4 ↔ c.toNat = 0xf4 := UInt8.toNat_inj.symm
  unfold gu_ucs_valid GU_UCS_MAX Above
  by_cases h₁ : c.toNat < 0xe0
  · rw [len_one h₁] at hlen ⊢
    obtain ⟨b, rfl⟩ := List.length_eq_one_iff.1 hlen
    refine ⟨_, assemble_one c b [], ?_⟩
    rw [decide_eq_true_iff, hf4]
    constructor
    · rintro - ⟨h, -⟩
      omega
    · intro
      show c.toNat % 32 * 64 + b.toNat % 64 ≤ 0x10FFFF
      omega
  by_cases h₂ : c.toNat < 0xf0
  · rw [len_two (Nat.not_lt.1 h₁) h₂] at hlen ⊢
    obtain ⟨b₁, b₂, rfl⟩ := List.length_eq_two.1 hlen
    refine ⟨_, assemble_two c b₁ b₂ [], ?_⟩
    rw [decide_eq_true_iff, hf4]
    constructor
    · rintro - ⟨h, -⟩
      omega
    · intro
      show (c.toNat % 16 * 64 + b₁.toNat % 64) * 64 + b₂.toNat % 64 ≤ 0x10FFFF
      omega
  · rw [len_three (Nat.not_lt.1 h₂)] at hlen ⊢
    obtain ⟨b₁, b₂, b₃, rfl⟩ := List.length_eq_three.1 hlen
    refine ⟨_, assemble_three c b₁ b₂ b₃ [], ?_⟩
    rw [decide_eq_true_iff, hf4]
    show ((c.toNat % 8 * 64 + b₁.toNat % 64) * 64 + b₂.toNat % 64) * 64 + b₃.toNat % 64 ≤ 0x10FFFF ↔ _
    simp only [List.head?_cons, Option.mem_some_iff, exists_eq_left']
    omega

/-- What becomes of a character when the bytes `rem` are still to come, and the bytes that are to come after it. -/
inductive Utf8Outcome : Bytes → GuUCS → GuExn → Bytes → Prop
  | eof : Utf8Outcome [] 0 (some .GuEOF) []
  | ascii {c : UInt8} {rest : Bytes} (hc : c.toNat < 0x80) : Utf8Outcome (c :: rest) c.toNat none rest
  | cut {c : UInt8} {got : Bytes} (hlen : got.length < gu_in_utf8_len c) : Utf8Outcome (c :: got) 0 (some .GuUCSExn) []
  | refused {c : UInt8} {tail rest : Bytes} (hlen : tail.length = gu_in_utf8_len c) (hc : 0x80 ≤ c.toNat)
      (hc' : c.toNat < 0xc2 ∨ 0xf4 < c.toNat) : Utf8Outcome (c :: (tail ++ rest)) 0 (some .GuUCSExn) rest
  | above {c : UInt8} {tail rest : Bytes} (hlen : tail.length = gu_utf8_len c) (hlo : 0xc2 ≤ c.toNat) (hhi : c.toNat ≤ 0xf4)
      (h : Above c tail) : Utf8Outcome (c :: (tail ++ rest)) 0 (some .GuUCSExn) rest
  | taken {c : UInt8} {tail rest : Bytes} {u : GuUCS} (hlen : tail.length = gu_utf8_len c) (hlo : 0xc2 ≤ c.toNat) (hhi : c.toNat ≤ 0xf4)
      (h : ¬ Above c tail)
      (hu : gu_utf8_assemble (c :: tail) (gu_utf8_len c) (gu_utf8_mask c (gu_utf8_len c)) = .ok u) :
      Utf8Outcome (c :: (tail ++ rest)) u none rest

section Run
variable {σ : Type} {S : GuInStreamFuns σ} {in_ : GuIn σ}

/-- The last step of `gu_in_utf8_`, with all bytes at hand. -/
theorem decode_outcome {c : UInt8} {tail : Bytes} (hlen : tail.length = gu_in_utf8_len c) (rest : Bytes) :
    ∃ n u err, gu_utf8_decode_one (c :: tail) 0 none = .ok (n, u, err) ∧ Utf8Outcome (c :: (tail ++ rest)) u err rest := by
  unfold gu_utf8_decode_one
  simp only [List.getElem?_cons_zero, Exec.deref_some, Exec.ok_bind]
  by_cases hascii : c.toNat < 0x80
  · rw [in_len_ascii hascii, List.length_eq_zero_iff] at hlen
    subst hlen
    exact ⟨1, c.toNat, none, if_pos hascii, .ascii hascii⟩
  rw [if_neg (show ¬ c < 0x80 from hascii)]
  by_cases hout : c.toNat < 0xc2 ∨ 0xf4 < c.toNat
  · exact ⟨0, 0, some .GuUCSExn, if_pos hout, .refused hlen (Nat.not_lt.1 hascii) hout⟩
  rw [if_neg (show ¬ (c < 0xc2 ∨ c > 0xf4) from hout)]
  have hlo : 0xc2 ≤ c.toNat := by omega
  have hhi : c.toNat ≤ 0xf4 := by omega
  rw [in_len_lead hlo] at hlen
  obtain ⟨u, hu, hvalid⟩ := assemble_valid hlo hhi hlen
  simp only [hu, Exec.ok_bind]
  by_cases habove : Above c tail
  · refine ⟨0, 0, some .GuUCSExn, ?_, .above hlen hlo hhi habove⟩
    have hfalse : gu_ucs_valid u = false := Bool.eq_false_iff.2 fun h => hvalid.1 h habove
    rw [hfalse]
    rfl
  · refine ⟨gu_utf8_len c + 1, u, none, ?_, .taken hlen hlo hhi habove hu⟩
    rw [hvalid.2 habove]
    rfl

theorem in_utf8_long_spec {rem : Bytes} (h : InReach S in_ rem) : ∃ u in' err rest, in_.gu_in_utf8_ S none = .ok (u, in', err) ∧
    Utf8Outcome rem u err rest ∧ (err = none → InReach S in' rest ∧ in'.gu_in_tell + rest.length = in_.gu_in_tell + rem.length) := by
  obtain ⟨v, hok, rfl⟩ := h.view
  rcases GuIn.u8_spec hok with ⟨hend, in₁, hu8, -⟩ | ⟨c, in₁, hu8, hok₁, hrest₁, htell₁⟩
  · refine ⟨0, in₁, some .GuEOF, [], ?_, by rw [hend]; exact .eof, by simp⟩
    rw [GuIn.gu_in_utf8_, hu8]
    rfl
  have hreach₁ : InReach S in₁ (in₁.rest v) := by
    have hrun : GuInOp.in_u8.run S in_ = .ok ([c], in₁, none) := by
      simp only [GuInOp.run, hu8, Exec.ok_bind, gu_ok_none, if_true, Exec.pure_eq]
    simpa [hrest₁] using h.op .in_u8 trivial hrun
  have hsz : gu_in_utf8_len c ≤ PTRDIFF_MAX := (in_len_le c).trans (by decide)
  obtain ⟨got, in', hsome, hok', hrest', htell', hle, hend⟩ := GuIn.some_spec hok₁ (Nat.le_refl _) hsz
  have hrun : in_.gu_in_utf8_ S none = if got.length < gu_in_utf8_len c then .ok (0, in', some .GuUCSExn)
      else gu_utf8_decode_one (c :: got) 0 none >>= fun r => .ok (r.2.1, in', r.2.2) := by
    rw [GuIn.gu_in_utf8_, hu8]
    show (in₁.gu_in_some S (gu_in_utf8_len c) (gu_in_utf8_len c) none >>= _) = _
    rw [hsome]
    rfl
  by_cases hcut : got.length < gu_in_utf8_len c
  · refine ⟨0, in', some .GuUCSExn, [], by rw [hrun, if_pos hcut], ?_, by simp⟩
    rw [hrest₁, hrest', hend hcut, List.append_nil]
    exact .cut hcut
  · have hlen : got.length = gu_in_utf8_len c := by omega
    obtain ⟨n, u, err, hdec, hout⟩ := decode_outcome hlen (in'.rest v)
    refine ⟨u, in', err, in'.rest v, ?_, ?_, fun _ => ⟨?_, ?_⟩⟩
    · rw [hrun, if_neg hcut, hdec]
      rfl
    · rw [hrest₁, hrest']
      exact hout
    · have hrun' : (GuInOp.in_some (gu_in_utf8_len c) (gu_in_utf8_len c)).run S in₁ = .ok (got, in', none) := hsome
      have hreach := hreach₁.op (.in_some (gu_in_utf8_len c) (gu_in_utf8_len c)) ⟨Nat.le_refl _, hsz⟩ hrun'
      rwa [hrest', List.drop_left] at hreach
    · rw [htell', htell₁, hrest₁, hrest', List.length_cons, List.length_append]
      omega

theorem in_utf8_spec {rem : Bytes} (h : InReach S in_ rem) : ∃ u in' err rest, in_.gu_in_utf8 S none = .ok (u, in', err) ∧
    Utf8Outcome rem u err rest ∧ (err = none → InReach S in' rest ∧ in'.gu_in_tell + rest.length = in_.gu_in_tell + rem.length) := by
  obtain ⟨v, hok, rfl⟩ := h.view
  rcases GuIn.peek_spec hok with ⟨-, hp⟩ | ⟨c, hleft, hp, hhead⟩
  · rw [GuIn.gu_in_utf8, hp]
    exact in_utf8_long_spec h
  by_cases hc : c < 0x80
  · obtain ⟨c', -, hok', hrest, htell⟩ := GuIn.unread_cons hok hleft
    obtain rfl : c' = c := by simpa [hrest] using hhead
    have hreach : InReach S (in_.advance 1) ((in_.advance 1).rest v) := by
      have hrun : GuInOp.in_consume.run S in_ = .ok ([c'], in_.advance 1, none) := by
        simp only [GuInOp.run, hp, Exec.ok_bind, GuIn.consume_eq hleft, Exec.pure_eq]
      simpa [hrest] using h.op .in_consume trivial hrun
    refine ⟨c'.toNat, in_.advance 1, none, (in_.advance 1).rest v, ?_, by rw [hrest]; exact .ascii hc, fun _ => ⟨hreach, ?_⟩⟩
    · simp only [GuIn.gu_in_utf8, hp, Exec.ok_bind, if_pos hc, GuIn.consume_eq hleft, Exec.pure_eq]
    · rw [htell, hrest, List.length_cons]
      omega
  · have hlong : in_.gu_in_utf8 S none = in_.gu_in_utf8_ S none := by
      simp only [GuIn.gu_in_utf8, hp, Exec.ok_bind, if_neg hc]
    rw [hlong]
    exact in_utf8_long_spec h

end Run

/-! ## Strictness -/

/-- A well-formed sequence comes to its character. -/
theorem Utf8Outcome.char {c : Char} {rest rest' : Bytes} {u : GuUCS} {err : GuExn} (h : Utf8Outcome (utf8EncodeChar c ++ rest) u err rest') :
    u = c.toNat ∧ err = none ∧ rest' = rest := by
  obtain ⟨lead, tail, henc, hseq⟩ := sequence_spec c []
  rw [List.append_nil] at hseq
  rw [henc] at h
  generalize hrem : lead :: tail ++ rest = rem at h
  cases h with
  | eof => cases hrem
  | ascii hc =>
    cases hrem
    rcases hseq with ⟨-, rfl, hu⟩ | ⟨hlo, -⟩
    · exact ⟨hu, rfl, rfl⟩
    · omega
  | cut hlen =>
    obtain ⟨rfl, rfl⟩ := List.cons.inj hrem
    rcases hseq with ⟨hlead, rfl, -⟩ | ⟨hlo, -, htail, -⟩
    · rw [in_len_ascii hlead] at hlen
      exact absurd hlen (Nat.not_lt_zero _)
    · have hle : tail.length ≤ (tail ++ rest).length := by
        rw [List.length_append]
        exact Nat.le_add_right _ _
      rw [in_len_lead hlo, ← htail] at hlen
      exact absurd hle (Nat.not_le.2 hlen)
  | refused hlen hc hc' =>
    obtain ⟨rfl, -⟩ := List.cons.inj hrem
    rcases hseq with ⟨hlead, -, -⟩ | ⟨hlo, hhi, -⟩ <;> omega
  | above hlen hlo hhi habove =>
    obtain ⟨rfl, htail⟩ := List.cons.inj hrem
    rcases hseq with ⟨hlead, -, -⟩ | ⟨-, -, hlen', hu⟩
    · omega
    obtain ⟨rfl, rfl⟩ := List.append_inj htail (hlen'.trans hlen.symm)
    obtain ⟨u', hu', hvalid⟩ := assemble_valid hlo hhi hlen
    rw [hu'] at hu
    cases hu
    exact absurd habove (hvalid.1 (toNat_valid c))
  | taken hlen hlo hhi habove hu =>
    obtain ⟨rfl, htail⟩ := List.cons.inj hrem
    rcases hseq with ⟨hlead, -, -⟩ | ⟨-, -, hlen', hu'⟩
    · omega
    obtain ⟨rfl, rfl⟩ := List.append_inj htail (hlen'.trans hlen.symm)
    rw [hu'] at hu
    cases hu
    exact ⟨rfl, rfl, rfl⟩

/-- A byte below 80 is a character. -/
theorem ascii_char {b : UInt8} (h : b.toNat < 0x80) : ∃ c : Char, utf8EncodeChar c = [b] := by
  refine ⟨Char.ofNat b.toNat, ?_⟩
  have hn : (Char.ofNat b.toNat).toNat = b.toNat := by
    rw [Char.toNat_ofNat, if_pos (Or.inl (by omega))]
  rcases utf8_cases (Char.ofNat b.toNat) with ⟨-, henc⟩ | ⟨hlo, -⟩ | ⟨hlo, -⟩ | ⟨hlo, -⟩
  · rw [henc, hn, UInt8.ofNat_toNat]
  all_goals omega

/-- The stream continues with a well-formed sequence. -/
def Continues (rem : Bytes) : Prop := ∃ c rest, rem = utf8EncodeChar c ++ rest

/-- Reading a character where the bytes `rem` are still to come: well-formed sequences and no others, with their code points. -/
def Strict {σ : Type} (S : GuInStreamFuns σ) (in_ : GuIn σ) (rem : Bytes) : Prop :=
  ∃ u in' err, in_.gu_in_utf8 S none = .ok (u, in', err) ∧
    (err = none ↔ Continues rem) ∧
    (∀ c rest, rem = utf8EncodeChar c ++ rest →
      u = c.toNat ∧ in'.gu_in_tell = in_.gu_in_tell + (utf8EncodeChar c).length ∧ InReach S in' rest) ∧
    (rem = [] → err = some .GuEOF) ∧
    (rem ≠ [] → ¬ Continues rem → err = some .GuUCSExn)

/-- The stream continues with a byte that begins a sequence and with as many bytes as it asks for, which make no well-formed sequence
with it and do not come to more than `GU_UCS_MAX`: a byte outside 80..BF, an overlong form, or a surrogate. -/
def Unchecked (rem : Bytes) : Prop :=
  ∃ c tail rest, rem = c :: (tail ++ rest) ∧ tail.length = gu_utf8_len c ∧ 0xc2 ≤ c.toNat ∧ c.toNat ≤ 0xf4 ∧ ¬ Above c tail ∧
    ¬ ∃ ch, utf8EncodeChar ch = c :: tail

/-- A malformed sequence of this kind comes through. -/
theorem Unchecked.taken {rem : Bytes} (h : Unchecked rem) : ¬ Continues rem ∧ ∀ {u err rest}, Utf8Outcome rem u err rest → err = none := by
  obtain ⟨c, tail, rest, rfl, hlen, hlo, hhi, habove, hnone⟩ := h
  refine ⟨fun ⟨ch, rest', hrem⟩ => ?_, fun {u err rest'} hout => ?_⟩
  · obtain ⟨lead, tail', henc, hseq⟩ := sequence_spec ch []
    rw [henc] at hrem
    obtain ⟨rfl, htail⟩ := List.cons.inj hrem
    rcases hseq with ⟨hlead, -, -⟩ | ⟨-, -, hlen', -⟩
    · omega
    obtain ⟨rfl, -⟩ := List.append_inj htail (hlen.trans hlen'.symm)
    exact hnone ⟨ch, henc⟩
  · generalize hrem : c :: (tail ++ rest) = rem at hout
    cases hout with
    | eof => cases hrem
    | ascii => rfl
    | cut hcut =>
      obtain ⟨rfl, rfl⟩ := List.cons.inj hrem
      rw [in_len_lead hlo, List.length_append] at hcut
      omega
    | refused _ _ hc =>
      obtain ⟨rfl, -⟩ := List.cons.inj hrem
      omega
    | above hlen' _ _ habove' =>
      obtain ⟨rfl, htail⟩ := List.cons.inj hrem
      obtain ⟨rfl, -⟩ := List.append_inj htail (hlen.trans hlen'.symm)
      exact absurd habove' habove
    | taken => rfl

/-- What is neither well-formed nor unchecked is refused. -/
theorem Utf8Outcome.refuses {rem rest : Bytes} {u : GuUCS} {err : GuExn} (h : Utf8Outcome rem u err rest) (hne : rem ≠ [])
    (hmal : ¬ Continues rem) (hunc : ¬ Unchecked rem) : err = some .GuUCSExn := by
  cases h with
  | eof => exact absurd rfl hne
  | ascii hc =>
    obtain ⟨c, henc⟩ := ascii_char hc
    exact absurd ⟨c, rest, by rw [henc]; rfl⟩ hmal
  | cut => rfl
  | refused => rfl
  | above => rfl
  | @taken c tail _ _ hlen hlo hhi habove hu =>
    refine absurd ⟨c, tail, rest, rfl, hlen, hlo, hhi, habove, fun ⟨ch, henc⟩ => hmal ⟨ch, rest, ?_⟩⟩ hunc
    rw [henc]
    rfl

/-- Reading a character is strict unless an unchecked sequence comes. -/
theorem utf8_strict {σ : Type} {S : GuInStreamFuns σ} {in_ : GuIn σ} {rem : Bytes} (h : InReach S in_ rem) :
    Strict S in_ rem ↔ ¬ Unchecked rem := by
  obtain ⟨u, in', err, rest, hrun, hout, hreach⟩ := in_utf8_spec h
  constructor
  · rintro ⟨u', in'', err', hrun', hiff, -⟩ hunc
    rw [hrun] at hrun'
    cases hrun'
    exact hunc.taken.1 (hiff.1 (hunc.taken.2 hout))
  · intro hunc
    refine ⟨u, in', err, hrun, ⟨fun herr => ?_, fun ⟨c, rest', hrem⟩ => ?_⟩, fun c rest' hrem => ?_, fun hnil => ?_, fun hne hmal => ?_⟩
    · by_contra hmal
      cases rem with
      | nil => cases hout; cases herr
      | cons b bs => cases (hout.refuses (List.cons_ne_nil _ _) hmal hunc).symm.trans herr
    · subst hrem
      exact hout.char.2.1
    · subst hrem
      obtain ⟨rfl, rfl, rfl⟩ := hout.char
      obtain ⟨hreach, htell⟩ := hreach rfl
      refine ⟨rfl, ?_, hreach⟩
      rw [List.length_append] at htell
      omega
    · subst hnil
      cases hout
      rfl
    · exact hout.refuses hne hmal hunc

/-- An overlong form of NUL in three bytes. -/
theorem utf8_strict_overlong : Strict gu_data_in_funs (gu_data_in [0xe0, 0x80, 0x80]) [0xe0, 0x80, 0x80] ↔
    ¬ Unchecked [0xe0, 0x80, 0x80] :=
  utf8_strict (.start (.data _))

/-- The byte 41 passes for the second byte of a sequence. -/
theorem utf8_lax : ¬ ∀ {σ : Type} {S : GuInStreamFuns σ} {in_ : GuIn σ} {rem : Bytes}, InReach S in_ rem → Strict S in_ rem := by
  intro h
  have hunc : Unchecked [0xc3, 0x41] := by
    refine ⟨0xc3, [0x41], [], rfl, rfl, by decide, by decide, by simp [Above], fun ⟨c, hc⟩ => ?_⟩
    rcases utf8_cases c with ⟨-, henc⟩ | ⟨-, -, henc⟩ | ⟨-, -, henc⟩ | ⟨-, -, henc⟩ <;> rw [henc] at hc
    · simp at hc
    · have htail : (0x41 : Nat) = c.toNat % 64 + 0x80 := by
        rw [← tailByte_toNat, (List.cons.inj (List.cons.inj hc).2).1]
        rfl
      omega
    all_goals simp at hc
  obtain ⟨u, in', err, hrun, hiff, -⟩ := h (.start (.data [0xc3, 0x41]))
  have hval : (gu_data_in [0xc3, 0x41]).gu_in_utf8 gu_data_in_funs none = .ok (0xc1, ⟨some [0xc3, 0x41], 0, [0xc3, 0x41], 0⟩, none) := rfl
  rw [hval] at hrun
  cases hrun
  exact hunc.taken.1 (hiff.1 rfl)

end Libpgf
