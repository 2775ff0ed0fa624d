import Libpgf.Gu.Words
/-!
# Integers of a grammar file (`pgf/reader.c`)

An integer comes in groups of seven bits, the lowest first. The code does not
look at how many there are: what does not fit in 32 bits is dropped, and after
five bytes it shifts by more bits than an `int` has.
-/

namespace Libpgf

/-- `<<` on an `int`. The bits that do not fit are dropped; a shift by 32 or more is undefined. -/
def intShiftLeft (i shift : Nat) : Exec Nat := if shift < 32 then .ok (i <<< shift % 2 ^ 32) else Exec.abort

/-- The types that `pgf_read_len` names in its exception. -/
inductive PgfLenType where
  | GuLength
  deriving DecidableEq

structure PgfReadTagExn where
  type : PgfLenType
  tag : Int
  deriving DecidableEq

section Read
variable {σ : Type} (S : GuInStreamFuns σ)

def pgf_read_u8 (in_ : GuIn σ) (err : GuExn) : Exec (UInt8 × GuIn σ × GuExn) := in_.gu_in_u8 S err

/-- The `do` loop, with a bound on its rounds. -/
def pgf_read_uint_loop : Nat → Nat → Nat → GuIn σ → GuExn → Exec (Nat × GuIn σ × GuExn)
  | 0, _, _, _, _ => Exec.hang
  | n + 1, u, shift, in_, err => do
    let (b, in_, err) ← pgf_read_u8 S in_ err
    if !gu_ok err then return (0, in_, err)
    let bits ← intShiftLeft (b.toNat &&& 0x7f) shift
    if b.toNat &&& 0x80 ≠ 0 then pgf_read_uint_loop n (u ||| bits) (shift + 7) in_ err
    else return (u ||| bits, in_, err)

/-- The shift of the sixth round is undefined. -/
def pgf_read_uint (in_ : GuIn σ) (err : GuExn) : Exec (Nat × GuIn σ × GuExn) := pgf_read_uint_loop S 6 0 0 in_ err

def pgf_read_int (in_ : GuIn σ) (err : GuExn) : Exec (Int × GuIn σ × GuExn) := toSigned gu_decode_2c32 (pgf_read_uint S in_ err)

def pgf_read_len (in_ : GuIn σ) (err : GuExn) : Exec (Nat × GuIn σ × GuExn × Option PgfReadTagExn) := do
  let (len, in_, err) ← pgf_read_int S in_ err
  if !gu_ok err then return (0, in_, err, none)
  if len < 0 then return (0, in_, gu_raise err .PgfReadTagExn, some ⟨.GuLength, len⟩)
  return (len.toNat, in_, err, none)

end Read

/-! ## What the bytes say -/

/-- The bytes up to the first without the high bit, that one included, or all of them. -/
def encodedBytes : Bytes → Bytes
  | [] => []
  | b :: rest => if b < 0x80 then [b] else b :: encodedBytes rest

/-- Some byte is without the high bit. -/
def Ended (bytes : Bytes) : Prop := ∃ b ∈ bytes, b < 0x80

instance (bytes : Bytes) : Decidable (Ended bytes) := inferInstanceAs (Decidable (∃ b ∈ bytes, b < 0x80))

/-- The sum of `(b_i & 0x7f) * 128 ^ i`. -/
def encodedValue (bytes : Bytes) : Nat := Nat.ofDigits 128 ((encodedBytes bytes).map fun b => b.toNat &&& 0x7f)

theorem encodedBytes_prefix (bytes : Bytes) : encodedBytes bytes <+: bytes := by
  induction bytes with
  | nil => exact List.prefix_refl _
  | cons b rest ih =>
    unfold encodedBytes
    split
    · exact ⟨rest, rfl⟩
    · exact (List.prefix_cons_inj b).2 ih

section Bytes
variable {b : UInt8} {rest : Bytes}

variable (rest) in
theorem encoded_last (hb : b < 0x80) : encodedBytes (b :: rest) = [b] ∧ Ended (b :: rest) ∧ encodedValue (b :: rest) = b.toNat &&& 0x7f := by
  have hbytes : encodedBytes (b :: rest) = [b] := if_pos hb
  refine ⟨hbytes, ⟨b, List.mem_cons_self, hb⟩, ?_⟩
  unfold encodedValue
  rw [hbytes, List.map_cons, List.map_nil, Nat.ofDigits_singleton]

variable (rest) in
theorem encoded_more (hb : ¬ b < 0x80) : encodedBytes (b :: rest) = b :: encodedBytes rest ∧ (Ended (b :: rest) ↔ Ended rest) ∧
    encodedValue (b :: rest) = (b.toNat &&& 0x7f) + 128 * encodedValue rest := by
  have hbytes : encodedBytes (b :: rest) = b :: encodedBytes rest := if_neg hb
  refine ⟨hbytes, ?_, ?_⟩
  · unfold Ended
    simp [hb]
  · unfold encodedValue
    rw [hbytes, List.map_cons, Nat.ofDigits_cons]

theorem high_bit_iff : b.toNat &&& 0x80 ≠ 0 ↔ ¬ b < 0x80 := by
  have hlt := b.toNat_lt
  have hand : b.toNat &&& 0x80 = (b.toNat.testBit 7).toNat * 2 ^ 7 := Nat.and_two_pow b.toNat 7
  have hbit : b.toNat.testBit 7 = decide (128 ≤ b.toNat) := by
    rw [Nat.testBit_eq_decide_div_mod_eq]
    congr 1
    rw [eq_iff_iff]
    omega
  rw [hand, hbit, UInt8.lt_iff_toNat_lt]
  by_cases h : 128 ≤ b.toNat
  · simp [h]
  · simp [h, Nat.lt_of_not_le h]

theorem low_bits_lt : b.toNat &&& 0x7f < 2 ^ 7 := Nat.and_lt_two_pow _ (by decide)

end Bytes

/-- A group is added above the bits that are there. -/
theorem or_group {u g i : Nat} (hi : i < 32) (hu : u < 2 ^ i) : u ||| g <<< i % 2 ^ 32 = (u + g * 2 ^ i) % 2 ^ 32 := by
  have hpow : 2 ^ 32 = 2 ^ i * 2 ^ (32 - i) := by
    rw [← Nat.pow_add]
    congr 1
    omega
  have hmod : g * 2 ^ i % 2 ^ 32 = 2 ^ i * (g % 2 ^ (32 - i)) := by
    rw [hpow, Nat.mul_comm g, Nat.mul_mod_mul_left]
  have hlt : u + 2 ^ i * (g % 2 ^ (32 - i)) < 2 ^ 32 := by
    have hg : g % 2 ^ (32 - i) + 1 ≤ 2 ^ (32 - i) := Nat.mod_lt g (Nat.two_pow_pos _)
    calc u + 2 ^ i * (g % 2 ^ (32 - i)) < 2 ^ i * (g % 2 ^ (32 - i) + 1) := by rw [Nat.mul_add, Nat.mul_one]; omega
      _ ≤ 2 ^ i * 2 ^ (32 - i) := Nat.mul_le_mul_left _ hg
      _ = 2 ^ 32 := hpow.symm
  have hsum : (u + g * 2 ^ i) % 2 ^ 32 = u + 2 ^ i * (g % 2 ^ (32 - i)) := by
    rw [Nat.add_mod, hmod, Nat.mod_eq_of_lt (by omega : u < 2 ^ 32), Nat.mod_eq_of_lt hlt]
  rw [hsum, Nat.shiftLeft_eq, hmod, Nat.or_comm, ← Nat.two_pow_add_eq_or_of_lt hu, Nat.add_comm]

/-! ## What the loop returns -/

section Source
variable {σ : Type} {S : GuInStreamFuns σ} {in_ : GuIn σ} {pos : Nat} {rem : Bytes}

theorem read_u8_spec (h : Source S in_ pos rem) :
    (rem = [] ∧ ∃ in', pgf_read_u8 S in_ none = .ok (0, in', some .GuEOF)) ∨
      ∃ b rest in', rem = b :: rest ∧ pgf_read_u8 S in_ none = .ok (b, in', none) ∧ Source S in' (pos + 1) rest := by
  obtain ⟨v, hcalm, hok, rfl, rfl⟩ := h
  rcases GuIn.u8_spec hok with ⟨hend, in', hrun, -⟩ | ⟨b, in', hrun, hok', hrest, htell⟩
  · exact .inl ⟨hend, in', hrun⟩
  · exact .inr ⟨b, in'.rest v, in', hrest, hrun, v, hcalm, hok', htell, rfl⟩

/-- What the loop does in round `k`, when `n` rounds are left. -/
theorem read_uint_loop_spec {n k u : Nat} (h : Source S in_ pos rem) (hn : n + k = 6) (h0 : 0 < n) (hu : k ≤ 4 → u < 2 ^ (7 * k)) :
    (5 < (encodedBytes rem).length + k → pgf_read_uint_loop S n u (7 * k) in_ none = Exec.abort) ∧
    ((encodedBytes rem).length + k ≤ 5 → ¬ Ended rem → ∃ in', pgf_read_uint_loop S n u (7 * k) in_ none = .ok (0, in', some .GuEOF)) ∧
    ((encodedBytes rem).length + k ≤ 5 → Ended rem → ∃ in',
      pgf_read_uint_loop S n u (7 * k) in_ none = .ok ((u + encodedValue rem * 2 ^ (7 * k)) % 2 ^ 32, in', none) ∧
        Source S in' (pos + (encodedBytes rem).length) (rem.drop (encodedBytes rem).length)) := by
  induction n generalizing in_ pos rem k u with
  | zero => exact absurd h0 (Nat.lt_irrefl 0)
  | succ n ih =>
    unfold pgf_read_uint_loop
    rcases read_u8_spec h with ⟨rfl, in', hrun⟩ | ⟨b, rest, in', rfl, hrun, hsource⟩
    · refine ⟨?_, ?_, ?_⟩
      · intro hlong
        have hk : 5 < 0 + k := hlong
        omega
      · intro _ _
        rw [hrun]
        exact ⟨in', rfl⟩
      · rintro - ⟨b, hb, -⟩
        cases hb
    · rw [hrun, Exec.ok_bind]
      dsimp only
      rw [gu_ok_none, Bool.not_true, if_neg Bool.false_ne_true]
      by_cases hk : k ≤ 4
      · have hshift : intShiftLeft (b.toNat &&& 0x7f) (7 * k) = .ok ((b.toNat &&& 0x7f) <<< (7 * k) % 2 ^ 32) := if_pos (by omega)
        have hor := or_group (g := b.toNat &&& 0x7f) (by omega : 7 * k < 32) (hu hk)
        rw [hshift, Exec.ok_bind, hor]
        by_cases hb : b < 0x80
        · obtain ⟨hbytes, hended, hvalue⟩ := encoded_last rest hb
          rw [if_neg (fun h => high_bit_iff.1 h hb), hbytes, hvalue]
          refine ⟨?_, fun _ hno => absurd hended hno, fun _ _ => ⟨in', rfl, hsource⟩⟩
          intro hlong
          have hk' : 5 < 1 + k := hlong
          omega
        · obtain ⟨hbytes, hended, hvalue⟩ := encoded_more rest hb
          rw [if_pos (high_bit_iff.2 hb), hbytes, hended, hvalue, List.length_cons]
          have hu' : k + 1 ≤ 4 → (u + (b.toNat &&& 0x7f) * 2 ^ (7 * k)) % 2 ^ 32 < 2 ^ (7 * (k + 1)) := by
            intro _
            have hbits := low_bits_lt (b := b)
            calc (u + (b.toNat &&& 0x7f) * 2 ^ (7 * k)) % 2 ^ 32 ≤ u + (b.toNat &&& 0x7f) * 2 ^ (7 * k) := Nat.mod_le _ _
              _ < 2 ^ (7 * k) + (b.toNat &&& 0x7f) * 2 ^ (7 * k) := Nat.add_lt_add_right (hu hk) _
              _ = ((b.toNat &&& 0x7f) + 1) * 2 ^ (7 * k) := by ring
              _ ≤ 2 ^ 7 * 2 ^ (7 * k) := Nat.mul_le_mul_right _ hbits
              _ = 2 ^ (7 * (k + 1)) := by ring
          obtain ⟨hlong, hshort, hvalue'⟩ := ih hsource (by omega : n + (k + 1) = 6) (by omega) hu'
          refine ⟨fun hl => hlong (by omega), fun hl hno => hshort (by omega) hno, ?_⟩
          intro hl hyes
          obtain ⟨in'', hrun', hsource'⟩ := hvalue' (by omega) hyes
          refine ⟨in'', ?_, ?_⟩
          · rw [Nat.mod_add_mod] at hrun'
            have hsum : u + (b.toNat &&& 0x7f) * 2 ^ (7 * k) + encodedValue rest * 2 ^ (7 * (k + 1)) =
                u + ((b.toNat &&& 0x7f) + 128 * encodedValue rest) * 2 ^ (7 * k) := by ring
            rw [hsum] at hrun'
            exact hrun'
          · rw [Nat.add_right_comm] at hsource'
            exact hsource'
      · -- the sixth byte
        have hshift : intShiftLeft (b.toNat &&& 0x7f) (7 * k) = Exec.abort := if_neg (by omega)
        have hlen : 0 < (encodedBytes (b :: rest)).length := by
          unfold encodedBytes
          split
          · exact Nat.zero_lt_one
          · exact Nat.succ_pos _
        rw [hshift]
        refine ⟨fun _ => rfl, fun _ _ => ?_, fun _ _ => ?_⟩ <;> omega

/-- `pgf_read_uint` returns the value modulo `2 ^ 32`, if it does not shift too far. -/
theorem read_uint_spec (h : Source S in_ pos rem) :
    (5 < (encodedBytes rem).length → pgf_read_uint S in_ none = Exec.abort) ∧
    ((encodedBytes rem).length ≤ 5 → ¬ Ended rem → ∃ in', pgf_read_uint S in_ none = .ok (0, in', some .GuEOF)) ∧
    ((encodedBytes rem).length ≤ 5 → Ended rem → ∃ in', pgf_read_uint S in_ none = .ok (encodedValue rem % 2 ^ 32, in', none) ∧
      Source S in' (pos + (encodedBytes rem).length) (rem.drop (encodedBytes rem).length)) := by
  have hloop := read_uint_loop_spec (n := 6) (k := 0) (u := 0) h rfl (by decide) (fun _ => Nat.zero_lt_one)
  rw [Nat.mul_zero, Nat.add_zero, Nat.zero_add, Nat.pow_zero, Nat.mul_one] at hloop
  exact hloop

theorem read_int_of {u : Nat} {in' : GuIn σ} {err : GuExn} (hu : u < 2 ^ 32) (hrun : pgf_read_uint S in_ none = .ok (u, in', err)) :
    pgf_read_int S in_ none = .ok (Int.bmod u (2 ^ 32), in', err) := by
  simp only [pgf_read_int, toSigned, hrun, Exec.ok_bind, gu_decode_2c32_spec hu, Exec.pure_eq]

theorem read_len_of {i : Int} {in' : GuIn σ} (hrun : pgf_read_int S in_ none = .ok (i, in', none)) :
    ∃ len in' err tag, pgf_read_len S in_ none = .ok (len, in', err, tag) ∧ (0 ≤ i → (len : Int) = i ∧ err = none) ∧
      (i < 0 → len = 0 ∧ err ≠ none) := by
  unfold pgf_read_len
  rw [hrun, Exec.ok_bind]
  dsimp only
  rw [gu_ok_none, Bool.not_true, if_neg Bool.false_ne_true]
  by_cases hi : i < 0
  · rw [if_pos hi]
    exact ⟨0, in', some .PgfReadTagExn, _, rfl, fun h => absurd hi (not_lt.2 h), fun _ => ⟨rfl, Option.some_ne_none _⟩⟩
  · rw [if_neg hi]
    exact ⟨i.toNat, in', none, none, rfl, fun h => ⟨Int.toNat_of_nonneg h, rfl⟩, fun h => absurd h hi⟩

/-! ## Exact or rejected -/

/-- What is asked of the three functions: the value, or an exception. -/
structure DecodesInts (S : GuInStreamFuns σ) (in_ : GuIn σ) (pos : Nat) (rem : Bytes) : Prop where
  uint : Ended rem → encodedValue rem < 2 ^ 32 → ∃ in', pgf_read_uint S in_ none = .ok (encodedValue rem, in', none) ∧
    Source S in' (pos + (encodedBytes rem).length) (rem.drop (encodedBytes rem).length)
  int : Ended rem → encodedValue rem < 2 ^ 32 → ∃ in', pgf_read_int S in_ none = .ok (Int.bmod (encodedValue rem) (2 ^ 32), in', none)
  len : Ended rem → encodedValue rem < 2 ^ 32 → ∃ len in' err tag, pgf_read_len S in_ none = .ok (len, in', err, tag) ∧
    (0 ≤ Int.bmod (encodedValue rem) (2 ^ 32) → (len : Int) = Int.bmod (encodedValue rem) (2 ^ 32) ∧ err = none) ∧
    (Int.bmod (encodedValue rem) (2 ^ 32) < 0 → len = 0 ∧ err ≠ none)
  uint_raises : ¬ (Ended rem ∧ encodedValue rem < 2 ^ 32) → ∃ u in' err, pgf_read_uint S in_ none = .ok (u, in', err) ∧ err ≠ none
  int_raises : ¬ (Ended rem ∧ encodedValue rem < 2 ^ 32) → ∃ i in' err, pgf_read_int S in_ none = .ok (i, in', err) ∧ err ≠ none
  len_raises : ¬ (Ended rem ∧ encodedValue rem < 2 ^ 32) → ∃ len in' err tag, pgf_read_len S in_ none = .ok (len, in', err, tag) ∧ err ≠ none

/-- Integers are decoded or rejected when they have at most five bytes, and their value fits. -/
theorem decodes_ints_iff (h : Source S in_ pos rem) :
    DecodesInts S in_ pos rem ↔ (encodedBytes rem).length ≤ 5 ∧ (Ended rem → encodedValue rem < 2 ^ 32) := by
  obtain ⟨hlong, hshort, hvalue⟩ := read_uint_spec h
  constructor
  · intro hdec
    have hlen : (encodedBytes rem).length ≤ 5 := by
      by_contra hgt
      have habort := hlong (Nat.lt_of_not_le hgt)
      by_cases hfit : Ended rem ∧ encodedValue rem < 2 ^ 32
      · obtain ⟨in', hrun, -⟩ := hdec.uint hfit.1 hfit.2
        exact Exec.abort_ne_ok _ (habort.symm.trans hrun)
      · obtain ⟨u, in', err, hrun, -⟩ := hdec.uint_raises hfit
        exact Exec.abort_ne_ok _ (habort.symm.trans hrun)
    refine ⟨hlen, ?_⟩
    intro hended
    by_contra hbig
    -- the truncated value is returned without an exception
    obtain ⟨u, in', err, hrun, herr⟩ := hdec.uint_raises (fun hfit => hbig hfit.2)
    obtain ⟨in'', hrun', -⟩ := hvalue hlen hended
    rw [hrun] at hrun'
    cases hrun'
    exact herr rfl
  · rintro ⟨hlen, hfit⟩
    by_cases hended : Ended rem
    · obtain ⟨in', hrun, hsource⟩ := hvalue hlen hended
      rw [Nat.mod_eq_of_lt (hfit hended)] at hrun
      have hint := read_int_of (hfit hended) hrun
      refine ⟨fun _ _ => ⟨in', hrun, hsource⟩, fun _ _ => ⟨in', hint⟩, fun _ _ => ?_, ?_, ?_, ?_⟩
      · exact read_len_of hint
      all_goals exact fun hno => absurd ⟨hended, hfit hended⟩ hno
    · obtain ⟨in', hrun⟩ := hshort hlen hended
      have hint := read_int_of (Nat.two_pow_pos 32) hrun
      refine ⟨fun hyes => absurd hyes hended, fun hyes => absurd hyes hended, fun hyes => absurd hyes hended, ?_, ?_, ?_⟩
      · exact fun _ => ⟨0, in', some .GuEOF, hrun, Option.some_ne_none _⟩
      · exact fun _ => ⟨_, in', some .GuEOF, hint, Option.some_ne_none _⟩
      · intro _
        refine ⟨0, in', some .GuEOF, none, ?_, Option.some_ne_none _⟩
        unfold pgf_read_len
        rw [hint]
        rfl

end Source

/-- `2 ^ 32` in five bytes is read as 0. -/
theorem decodes_ints_truncated : ¬ ∀ (in_ : GuIn Bytes) (pos : Nat) (rem : Bytes), Source gu_data_in_funs in_ pos rem →
    DecodesInts gu_data_in_funs in_ pos rem := by
  intro h
  have hdec := h _ _ _ (InReach.start (.data [0x80, 0x80, 0x80, 0x80, 0x10])).source
  obtain ⟨u, in', err, hrun, herr⟩ := hdec.uint_raises (by decide)
  have hok : (pgf_read_uint gu_data_in_funs (gu_data_in [0x80, 0x80, 0x80, 0x80, 0x10]) none).map (fun r => (r.1, r.2.2)) = .ok (0, none) := rfl
  rw [hrun] at hok
  have hnone : (u, err) = (0, none) := Except.ok.inj hok
  exact herr (congrArg Prod.snd hnone)

/-- -2, in a file that comes in single bytes. -/
theorem decodes_ints_negative : DecodesInts gu_file_in_funs (gu_file_in [0xfe, 0xff, 0xff, 0xff, 0x0f] fun _ => 1) 0 [0xfe, 0xff, 0xff, 0xff, 0x0f] :=
  (decodes_ints_iff (InReach.start (.file _ _)).source).2 ⟨by decide, fun _ => by decide⟩

end Libpgf
