import Libpgf.Gu.InCalm
/-!
# Words of several bytes (`gu/in.c`, `gu/bits.h`)

Both accumulation loops take the first byte for the highest one. The readers
that are named little-endian hence read big-endian words, and so does
`gu_in_f64be`, which calls one of them.
-/

namespace Libpgf

/-! ## Decoding -/

/-- `(t_) ((umax_) - (u_))` is in the range of its type whenever it is evaluated. -/
def GU_DECODE_2C_ (u umax posmax : Nat) (tmin : Int) (err : GuExn) : Int × GuExn :=
  if u ≤ posmax then (u, err)
  else if tmin + ((umax - u : Nat) : Int) < 0 then (-1 - ((umax - u : Nat) : Int), err)
  else (-1, gu_raise err .GuIntDecodeExn)

def gu_decode_2c16 (u : Nat) (err : GuExn) : Int × GuExn := GU_DECODE_2C_ u 0xffff 0x7fff (-0x8000) err

def gu_decode_2c32 (u : Nat) (err : GuExn) : Int × GuExn := GU_DECODE_2C_ u 0xffffffff 0x7fffffff (-0x80000000) err

def gu_decode_2c64 (u : Nat) (err : GuExn) : Int × GuExn :=
  GU_DECODE_2C_ u 0xffffffffffffffff 0x7fffffffffffffff (-0x8000000000000000) err

/-- A double as the library calls that make it: `INFINITY`, `nan` and `ldexp`, and the sign. -/
inductive GuDouble where
  | infinity (sign : Bool)
  | nan (sign : Bool) (mantissa : Nat)
  | ldexp (sign : Bool) (m : Nat) (exp : Int)
  deriving DecidableEq

def gu_decode_double (u : Nat) : GuDouble :=
  let sign : Bool := u >>> 63 ≠ 0
  let rawexp := u >>> 52 &&& 0x7ff
  let mantissa := u &&& 0xfffffffffffff
  if rawexp = 0x7ff then if mantissa = 0 then .infinity sign else .nan sign mantissa
  else .ldexp sign (if rawexp ≠ 0 then 1 <<< 52 ||| mantissa else mantissa <<< 1) ((rawexp : Int) - 1075)

/-! ## Reading -/

section Readers
variable {σ : Type} (S : GuInStreamFuns σ) (in_ : GuIn σ) (err : GuExn)

/-- The loop of `gu_in_be` and of `gu_in_le`. -/
def accumulate (bytes : Bytes) : Nat := bytes.foldl (fun u b => (u <<< 8 ||| b.toNat) % 2 ^ 64) 0

/-- `buf` is what the array holds at first. -/
def gu_in_be (n : Nat) (buf : Bytes) : Exec (Nat × GuIn σ × GuExn) := do
  let (got, in_, err) ← in_.gu_in_bytes S n err
  return (accumulate ((got ++ buf.drop got.length).take n), in_, err)

def gu_in_le (n : Nat) (buf : Bytes) : Exec (Nat × GuIn σ × GuExn) := do
  let (got, in_, err) ← in_.gu_in_bytes S n err
  return (accumulate ((got ++ buf.drop got.length).take n), in_, err)

/-- A conversion to an unsigned type of so many bits. -/
def toUnsigned (bits : Nat) (read : Exec (Nat × GuIn σ × GuExn)) : Exec (Nat × GuIn σ × GuExn) := do
  let (u, in_, err) ← read
  return (u % 2 ^ bits, in_, err)

def toSigned (decode : Nat → GuExn → Int × GuExn) (read : Exec (Nat × GuIn σ × GuExn)) : Exec (Int × GuIn σ × GuExn) := do
  let (u, in_, err) ← read
  let (i, err) := decode u err
  return (i, in_, err)

def toDouble (read : Exec (Nat × GuIn σ × GuExn)) : Exec (GuDouble × GuIn σ × GuExn) := do
  let (u, in_, err) ← read
  return (gu_decode_double u, in_, err)

variable (buf : Bytes)

def gu_in_u16le : Exec (Nat × GuIn σ × GuExn) := toUnsigned 16 (gu_in_le S in_ err 2 buf)

def gu_in_s16le : Exec (Int × GuIn σ × GuExn) := toSigned gu_decode_2c16 (gu_in_u16le S in_ err buf)

def gu_in_u16be : Exec (Nat × GuIn σ × GuExn) := toUnsigned 16 (gu_in_be S in_ err 2 buf)

def gu_in_s16be : Exec (Int × GuIn σ × GuExn) := toSigned gu_decode_2c16 (gu_in_u16be S in_ err buf)

def gu_in_u32le : Exec (Nat × GuIn σ × GuExn) := toUnsigned 32 (gu_in_le S in_ err 4 buf)

def gu_in_s32le : Exec (Int × GuIn σ × GuExn) := toSigned gu_decode_2c32 (gu_in_u32le S in_ err buf)

def gu_in_u32be : Exec (Nat × GuIn σ × GuExn) := toUnsigned 32 (gu_in_be S in_ err 4 buf)

def gu_in_s32be : Exec (Int × GuIn σ × GuExn) := toSigned gu_decode_2c32 (gu_in_u32be S in_ err buf)

def gu_in_u64le : Exec (Nat × GuIn σ × GuExn) := toUnsigned 64 (gu_in_le S in_ err 8 buf)

def gu_in_s64le : Exec (Int × GuIn σ × GuExn) := toSigned gu_decode_2c64 (gu_in_u64le S in_ err buf)

def gu_in_u64be : Exec (Nat × GuIn σ × GuExn) := toUnsigned 64 (gu_in_be S in_ err 8 buf)

def gu_in_s64be : Exec (Int × GuIn σ × GuExn) := toSigned gu_decode_2c64 (gu_in_u64be S in_ err buf)

def gu_in_f64le : Exec (GuDouble × GuIn σ × GuExn) := toDouble (gu_in_u64le S in_ err buf)

/-- The word is read by the other reader. -/
def gu_in_f64be : Exec (GuDouble × GuIn σ × GuExn) := toDouble (gu_in_u64le S in_ err buf)

end Readers

inductive WordKind where
  | u16 | s16 | u32 | s32 | u64 | s64 | f64
  deriving DecidableEq

def WordKind.size : WordKind → Nat
  | .u16 | .s16 => 2
  | .u32 | .s32 => 4
  | .u64 | .s64 | .f64 => 8

inductive ByteOrder where
  | le | be
  deriving DecidableEq

inductive WordValue where
  | integer (i : Int)
  | double (d : GuDouble)
  deriving DecidableEq

/-- The fourteen readers. -/
def gu_in_word {σ : Type} (S : GuInStreamFuns σ) (kind : WordKind) (order : ByteOrder) (in_ : GuIn σ) (err : GuExn) (buf : Bytes) :
    Exec (WordValue × GuIn σ × GuExn) :=
  let unsigned (read : Exec (Nat × GuIn σ × GuExn)) : Exec (WordValue × GuIn σ × GuExn) := do
    let (u, rest) ← read
    return (.integer u, rest)
  let signed (read : Exec (Int × GuIn σ × GuExn)) : Exec (WordValue × GuIn σ × GuExn) := do
    let (i, rest) ← read
    return (.integer i, rest)
  let double (read : Exec (GuDouble × GuIn σ × GuExn)) : Exec (WordValue × GuIn σ × GuExn) := do
    let (d, rest) ← read
    return (.double d, rest)
  match kind, order with
  | .u16, .le => unsigned (gu_in_u16le S in_ err buf)
  | .s16, .le => signed (gu_in_s16le S in_ err buf)
  | .u16, .be => unsigned (gu_in_u16be S in_ err buf)
  | .s16, .be => signed (gu_in_s16be S in_ err buf)
  | .u32, .le => unsigned (gu_in_u32le S in_ err buf)
  | .s32, .le => signed (gu_in_s32le S in_ err buf)
  | .u32, .be => unsigned (gu_in_u32be S in_ err buf)
  | .s32, .be => signed (gu_in_s32be S in_ err buf)
  | .u64, .le => unsigned (gu_in_u64le S in_ err buf)
  | .s64, .le => signed (gu_in_s64le S in_ err buf)
  | .u64, .be => unsigned (gu_in_u64be S in_ err buf)
  | .s64, .be => signed (gu_in_s64be S in_ err buf)
  | .f64, .le => double (gu_in_f64le S in_ err buf)
  | .f64, .be => double (gu_in_f64be S in_ err buf)

/-! ## What the words are to be -/

/-- The sum of `b_i * 256 ^ i`, or of `b_i * 256 ^ (n - 1 - i)`. -/
def ByteOrder.sum (order : ByteOrder) (bytes : Bytes) : Nat :=
  match order with
  | .le => Nat.ofDigits 256 (bytes.map UInt8.toNat)
  | .be => Nat.ofDigits 256 (bytes.reverse.map UInt8.toNat)

/-- The value of a bit pattern. -/
def WordKind.value : WordKind → Nat → WordValue
  | .u16, u | .u32, u | .u64, u => .integer u
  | .s16, u => .integer (Int.bmod u (2 ^ 16))
  | .s32, u => .integer (Int.bmod u (2 ^ 32))
  | .s64, u => .integer (Int.bmod u (2 ^ 64))
  | .f64, u => .double (gu_decode_double u)

/-! ## Decoding is exact -/

theorem decode_2c_spec {u n m umax posmax : Nat} {tmin : Int} (hn : n = 2 * m) (hmax : umax = n - 1) (hpos : posmax = m - 1) (hmin : tmin = -m)
    (h0 : 0 < m) (hu : u < n) (err : GuExn) : GU_DECODE_2C_ u umax posmax tmin err = (Int.bmod u n, err) := by
  subst hmax hpos hmin hn
  unfold GU_DECODE_2C_
  have hmod : ((u : Int) % ((2 * m : Nat) : Int)) = u := Int.emod_eq_of_lt (Int.natCast_nonneg u) (by exact_mod_cast hu)
  have hhalf : (((2 * m : Nat) : Int) + 1) / 2 = m := by omega
  rw [Int.bmod_def, hmod, hhalf]
  by_cases hle : u ≤ m - 1
  · rw [if_pos hle, if_pos (by omega)]
  · have hneg : -(m : Int) + ((2 * m - 1 - u : Nat) : Int) < 0 := by omega
    rw [if_neg hle, if_pos hneg, if_neg (by omega)]
    congr 1
    omega

theorem gu_decode_2c16_spec {u : Nat} (hu : u < 2 ^ 16) (err : GuExn) : gu_decode_2c16 u err = (Int.bmod u (2 ^ 16), err) := by
  apply decode_2c_spec (m := 2 ^ 15) <;> first | exact hu | norm_num

theorem gu_decode_2c32_spec {u : Nat} (hu : u < 2 ^ 32) (err : GuExn) : gu_decode_2c32 u err = (Int.bmod u (2 ^ 32), err) := by
  apply decode_2c_spec (m := 2 ^ 31) <;> first | exact hu | norm_num

theorem gu_decode_2c64_spec {u : Nat} (hu : u < 2 ^ 64) (err : GuExn) : gu_decode_2c64 u err = (Int.bmod u (2 ^ 64), err) := by
  apply decode_2c_spec (m := 2 ^ 63) <;> first | exact hu | norm_num

theorem bmod_inj {u u' n : Nat} (hu : u < n) (hu' : u' < n) (h : Int.bmod u n = Int.bmod u' n) : u = u' := by
  have hmod : (u : Int) % n = (u' : Int) % n := by
    rw [← Int.bmod_emod, h, Int.bmod_emod]
  rw [Int.emod_eq_of_lt (Int.natCast_nonneg u) (by exact_mod_cast hu),
    Int.emod_eq_of_lt (Int.natCast_nonneg u') (by exact_mod_cast hu')] at hmod
  exact_mod_cast hmod

/-- The sign, the exponent and the mantissa of a pattern. -/
theorem decode_double_fields {u : Nat} (hu : u < 2 ^ 64) : ∃ s e m, s < 2 ∧ e < 2 ^ 11 ∧ m < 2 ^ 52 ∧ u = s * 2 ^ 63 + e * 2 ^ 52 + m ∧
    gu_decode_double u = if e = 0x7ff then if m = 0 then .infinity (s ≠ 0) else .nan (s ≠ 0) m
      else .ldexp (s ≠ 0) (if e ≠ 0 then 2 ^ 52 + m else m * 2) ((e : Int) - 1075) := by
  refine ⟨u / 2 ^ 63, u / 2 ^ 52 % 2 ^ 11, u % 2 ^ 52, by omega, by omega, by omega, by omega, ?_⟩
  have hsign : u >>> 63 = u / 2 ^ 63 := Nat.shiftRight_eq_div_pow u 63
  have hexp : u >>> 52 &&& 0x7ff = u / 2 ^ 52 % 2 ^ 11 := by
    rw [Nat.shiftRight_eq_div_pow]
    exact Nat.and_two_pow_sub_one_eq_mod _ 11
  have hmant : u &&& 0xfffffffffffff = u % 2 ^ 52 := Nat.and_two_pow_sub_one_eq_mod u 52
  have hone : 1 <<< 52 ||| u % 2 ^ 52 = 2 ^ 52 + u % 2 ^ 52 := by
    have := Nat.two_pow_add_eq_or_of_lt (Nat.mod_lt u (Nat.two_pow_pos 52)) 1
    rw [Nat.mul_one] at this
    rw [this]
    rfl
  unfold gu_decode_double
  dsimp only
  rw [hsign, hexp, hmant, hone, Nat.shiftLeft_eq, Nat.pow_one]

/-- No two patterns are the same double. -/
theorem decode_double_inj {u u' : Nat} (hu : u < 2 ^ 64) (hu' : u' < 2 ^ 64) (h : gu_decode_double u = gu_decode_double u') : u = u' := by
  obtain ⟨s, e, m, hs, he, hm, rfl, hd⟩ := decode_double_fields hu
  obtain ⟨s', e', m', hs', he', hm', rfl, hd'⟩ := decode_double_fields hu'
  rw [hd, hd'] at h
  -- the fields are equal
  split_ifs at h <;>
    simp only [GuDouble.infinity.injEq, GuDouble.nan.injEq, GuDouble.ldexp.injEq, decide_eq_decide] at h <;> omega

/-! ## The loops -/

theorem accumulate_append (bytes : Bytes) (b : UInt8) : accumulate (bytes ++ [b]) = (accumulate bytes <<< 8 ||| b.toNat) % 2 ^ 64 := by
  unfold accumulate
  rw [List.foldl_append]
  rfl

theorem ByteOrder.sum_lt (order : ByteOrder) (bytes : Bytes) : order.sum bytes < 256 ^ bytes.length := by
  have hlt : ∀ bs : Bytes, Nat.ofDigits 256 (bs.map UInt8.toNat) < 256 ^ bs.length := by
    intro bs
    have h := Nat.ofDigits_lt_base_pow_length (b := 256) (l := bs.map UInt8.toNat) (by decide) (by
      intro x hx
      obtain ⟨b, -, rfl⟩ := List.mem_map.1 hx
      exact b.toNat_lt)
    rwa [List.length_map] at h
  cases order with
  | le => exact hlt bytes
  | be =>
    have h := hlt bytes.reverse
    rwa [List.length_reverse] at h

/-- The two sums are equal only when the bytes read the same from both ends. -/
theorem sum_eq_iff {bytes : Bytes} : ByteOrder.be.sum bytes = ByteOrder.le.sum bytes ↔ bytes.reverse = bytes := by
  have hdigit : ∀ bs : Bytes, ∀ x ∈ bs.map UInt8.toNat, x < 256 := by
    intro bs x hx
    obtain ⟨b, -, rfl⟩ := List.mem_map.1 hx
    exact b.toNat_lt
  constructor
  · intro h
    have hmap := Nat.ofDigits_inj_of_len_eq (by decide) (by simp) (hdigit bytes.reverse) (hdigit bytes) h
    exact List.map_injective_iff.2 (fun a b => UInt8.toNat_inj.1) hmap
  · intro h
    show Nat.ofDigits 256 (bytes.reverse.map UInt8.toNat) = _
    rw [h]
    rfl

/-- The first byte is the highest. -/
theorem accumulate_eq (bytes : Bytes) (h : bytes.length ≤ 8) : accumulate bytes = ByteOrder.be.sum bytes := by
  induction bytes using List.reverseRecOn with
  | nil => rfl
  | append_singleton bytes b ih =>
    rw [List.length_append, List.length_singleton] at h
    have hlt : ByteOrder.be.sum bytes < 2 ^ 56 := by
      calc ByteOrder.be.sum bytes < 256 ^ bytes.length := ByteOrder.be.sum_lt bytes
        _ ≤ 256 ^ 7 := Nat.pow_le_pow_right (by decide) (by omega)
        _ = 2 ^ 56 := by norm_num
    have hb := b.toNat_lt
    have hor : ByteOrder.be.sum bytes <<< 8 ||| b.toNat = ByteOrder.be.sum bytes * 2 ^ 8 + b.toNat := by
      rw [Nat.shiftLeft_eq, Nat.mul_comm, ← Nat.two_pow_add_eq_or_of_lt hb]
    have hsum : ByteOrder.be.sum (bytes ++ [b]) = b.toNat + 256 * ByteOrder.be.sum bytes := by
      unfold ByteOrder.sum
      rw [List.reverse_append, List.reverse_singleton, List.singleton_append, List.map_cons, Nat.ofDigits_cons]
    have hmod : (ByteOrder.be.sum bytes * 2 ^ 8 + b.toNat) % 2 ^ 64 = ByteOrder.be.sum bytes * 2 ^ 8 + b.toNat := Nat.mod_eq_of_lt (by omega)
    rw [accumulate_append, ih (by omega), hor, hsum, hmod]
    omega

/-! ## What the readers return -/

/-- What the readers make of a word. -/
def WordKind.ofWord {σ : Type} (kind : WordKind) (read : Exec (Nat × GuIn σ × GuExn)) : Exec (WordValue × GuIn σ × GuExn) := do
  let (u, rest) ← read
  return (kind.value (u % 2 ^ (8 * kind.size)), rest)

theorem toSigned_eq {σ : Type} {decode : Nat → GuExn → Int × GuExn} {k m : Nat} (hm : 2 ^ k = m)
    (hdecode : ∀ u < m, ∀ err, decode u err = (Int.bmod u m, err)) (read : Exec (Nat × GuIn σ × GuExn)) :
    toSigned decode (toUnsigned k read) = do
      let (u, rest) ← read
      return (Int.bmod (u % m : Nat) m, rest) := by
  cases read with
  | error e => rfl
  | ok r =>
    obtain ⟨u, in', err⟩ := r
    show toSigned decode (.ok (u % 2 ^ k, in', err)) = _
    unfold toSigned
    rw [Exec.ok_bind, hm]
    dsimp only
    rw [hdecode _ (Nat.mod_lt u (hm ▸ Nat.two_pow_pos k))]
    rfl

/-- Every reader makes its value of the big-endian word. -/
theorem gu_in_word_eq {σ : Type} (S : GuInStreamFuns σ) (kind : WordKind) (order : ByteOrder) (in_ : GuIn σ) (err : GuExn) (buf : Bytes) :
    gu_in_word S kind order in_ err buf = kind.ofWord (gu_in_be S in_ err kind.size buf) := by
  have hle : ∀ n, gu_in_le S in_ err n buf = gu_in_be S in_ err n buf := fun n => rfl
  have h16 := fun read : Exec (Nat × GuIn σ × GuExn) => toSigned_eq (k := 16) rfl (fun u hu err => gu_decode_2c16_spec hu err) read
  have h32 := fun read : Exec (Nat × GuIn σ × GuExn) => toSigned_eq (k := 32) rfl (fun u hu err => gu_decode_2c32_spec hu err) read
  have h64 := fun read : Exec (Nat × GuIn σ × GuExn) => toSigned_eq (k := 64) rfl (fun u hu err => gu_decode_2c64_spec hu err) read
  cases kind <;> cases order <;> unfold gu_in_word <;>
    simp only [gu_in_u16le, gu_in_s16le, gu_in_u16be, gu_in_s16be, gu_in_u32le, gu_in_s32le, gu_in_u32be, gu_in_s32be, gu_in_u64le,
      gu_in_s64le, gu_in_u64be, gu_in_s64be, gu_in_f64le, gu_in_f64be, hle, h16, h32, h64, WordKind.size] <;>
    cases gu_in_be S in_ err _ buf <;>
    simp only [WordKind.ofWord, WordKind.size, WordKind.value, toUnsigned, toDouble, Exec.error_bind, Exec.ok_bind, Exec.pure_eq, Nat.reduceMul]

theorem value_inj {kind : WordKind} {u u' : Nat} (hu : u < 2 ^ (8 * kind.size)) (hu' : u' < 2 ^ (8 * kind.size))
    (h : kind.value u = kind.value u') : u = u' := by
  cases kind with
  | u16 | u32 | u64 =>
    have hi := WordValue.integer.inj h
    exact_mod_cast hi
  | s16 | s32 | s64 =>
    exact bmod_inj hu hu' (WordValue.integer.inj h)
  | f64 =>
    exact decode_double_inj hu hu' (WordValue.double.inj h)

theorem take_sum_lt {bytes : Bytes} {n : Nat} (h : n ≤ bytes.length) (order : ByteOrder) : order.sum (bytes.take n) < 2 ^ (8 * n) := by
  have hlt := order.sum_lt (bytes.take n)
  rw [List.length_take, Nat.min_eq_left h] at hlt
  rwa [Nat.pow_mul]

section Source
variable {σ : Type} {S : GuInStreamFuns σ} {in_ : GuIn σ} {pos : Nat} {rem : Bytes}

theorem gu_in_be_spec (h : Source S in_ pos rem) {n : Nat} (hn : n ≤ 8) (buf : Bytes) :
    ∃ u in' err, gu_in_be S in_ none n buf = .ok (u, in', err) ∧ ((rem.length < n ∧ err = some .GuEOF) ∨
      (n ≤ rem.length ∧ u = ByteOrder.be.sum (rem.take n) ∧ err = none ∧ Source S in' (pos + n) (rem.drop n))) := by
  obtain ⟨v, hcalm, hok, rfl, rfl⟩ := h
  have hsz : n < PTRDIFF_MAX := by
    unfold PTRDIFF_MAX
    omega
  obtain ⟨got, in', err, hrun, hok', hrest, htell, hcase⟩ := GuIn.bytes_spec hok hsz
  refine ⟨accumulate ((got ++ buf.drop got.length).take n), in', err, ?_, ?_⟩
  · unfold gu_in_be
    rw [hrun]
    rfl
  rcases hcase with ⟨hlen, rfl⟩ | ⟨hlt, hend, rfl⟩
  · right
    have htake : (in_.rest v).take n = got := by rw [hrest, List.take_left' hlen]
    refine ⟨?_, ?_, rfl, v, hcalm, hok', by rw [htell, hlen], by rw [hrest, List.drop_left' hlen]⟩
    · rw [hrest, List.length_append]
      omega
    · rw [List.take_left' hlen, htake]
      exact accumulate_eq got (by omega)
  · left
    rw [hrest, hend, List.append_nil]
    exact ⟨hlt, rfl⟩

/-- What is asked of a reader, whatever is in its array at first. -/
def ReadsWord (S : GuInStreamFuns σ) (kind : WordKind) (order : ByteOrder) (in_ : GuIn σ) (pos : Nat) (rem : Bytes) : Prop :=
  ∀ buf : Bytes, buf.length = 8 → ∃ value in' err, gu_in_word S kind order in_ none buf = .ok (value, in', err) ∧
    (rem.length < kind.size → err = some .GuEOF) ∧
    (kind.size ≤ rem.length → value = kind.value (order.sum (rem.take kind.size)) ∧ err = none ∧
      Source S in' (pos + kind.size) (rem.drop kind.size))

theorem gu_in_word_spec (h : Source S in_ pos rem) (kind : WordKind) (order : ByteOrder) (buf : Bytes) :
    ∃ value in' err, gu_in_word S kind order in_ none buf = .ok (value, in', err) ∧ ((rem.length < kind.size ∧ err = some .GuEOF) ∨
      (kind.size ≤ rem.length ∧ value = kind.value (ByteOrder.be.sum (rem.take kind.size)) ∧ err = none ∧
        Source S in' (pos + kind.size) (rem.drop kind.size))) := by
  have hsize : kind.size ≤ 8 := by cases kind <;> decide
  obtain ⟨u, in', err, hrun, hcase⟩ := gu_in_be_spec h hsize buf
  refine ⟨kind.value (u % 2 ^ (8 * kind.size)), in', err, ?_, ?_⟩
  · rw [gu_in_word_eq, hrun]
    rfl
  rcases hcase with ⟨hlt, herr⟩ | ⟨hle, hu, herr, hsource⟩
  · exact .inl ⟨hlt, herr⟩
  · right
    refine ⟨hle, ?_, herr, hsource⟩
    rw [hu, Nat.mod_eq_of_lt (take_sum_lt hle .be)]

/-- The little-endian readers are right only about words that read the same from both ends. -/
theorem reads_word_iff (h : Source S in_ pos rem) (kind : WordKind) (order : ByteOrder) :
    ReadsWord S kind order in_ pos rem ↔ order = .be ∨ rem.length < kind.size ∨ (rem.take kind.size).reverse = rem.take kind.size := by
  constructor
  · intro hreads
    by_cases hlt : rem.length < kind.size
    · exact .inr (.inl hlt)
    have hle := Nat.le_of_not_lt hlt
    cases order with
    | be => exact .inl rfl
    | le =>
      obtain ⟨value, in', err, hrun, -, hvalue⟩ := hreads (List.replicate 8 0) (List.length_replicate ..)
      obtain ⟨value', in'', err', hrun', hcase⟩ := gu_in_word_spec h kind .le (List.replicate 8 0)
      rw [hrun] at hrun'
      cases hrun'
      rcases hcase with ⟨hlt', -⟩ | ⟨-, hbe, -⟩
      · exact .inr (.inl hlt')
      · have hsum := value_inj (take_sum_lt hle .be) (take_sum_lt hle .le) (hbe.symm.trans (hvalue hle).1)
        exact .inr (.inr (sum_eq_iff.1 hsum))
  · intro hcond buf _
    obtain ⟨value, in', err, hrun, hcase⟩ := gu_in_word_spec h kind order buf
    refine ⟨value, in', err, hrun, ?_, ?_⟩
    · intro hlt
      rcases hcase with ⟨-, herr⟩ | ⟨hle, -⟩
      · exact herr
      · exact absurd hlt (Nat.not_lt.2 hle)
    · intro hle
      rcases hcase with ⟨hlt, -⟩ | ⟨-, hvalue, herr, hsource⟩
      · exact absurd hlt (Nat.not_lt.2 hle)
      refine ⟨?_, herr, hsource⟩
      rw [hvalue]
      congr 1
      cases order with
      | be => rfl
      | le =>
        rcases hcond with hbe | hlt | hrev
        · cases hbe
        · exact absurd hlt (Nat.not_lt.2 hle)
        · exact sum_eq_iff.2 hrev

end Source

/-- `01 00` is 1 when the low byte comes first. -/
theorem reads_word_swapped : ¬ ∀ (in_ : GuIn Bytes) (pos : Nat) (rem : Bytes), Source gu_data_in_funs in_ pos rem →
    ∀ kind order, ReadsWord gu_data_in_funs kind order in_ pos rem := by
  intro h
  have hsource := (InReach.start (.data [1, 0])).source
  obtain ⟨value, in', err, hrun, -, hvalue⟩ := h _ _ _ hsource .u16 .le [0, 0, 0, 0, 0, 0, 0, 0] rfl
  have hfirst : (gu_in_word gu_data_in_funs .u16 .le (gu_data_in [1, 0]) none [0, 0, 0, 0, 0, 0, 0, 0]).map Prod.fst = .ok (.integer 256) := rfl
  rw [hrun] at hfirst
  have hbe : value = .integer 256 := Except.ok.inj hfirst
  have hle : value = .integer 1 := (hvalue (Nat.le_refl 2)).1
  rw [hbe] at hle
  cases hle

/-- A double in a file that comes in single bytes, through a buffer of three. -/
theorem reads_word_double : ReadsWord (gu_buffered_in_funs gu_file_in_funs) .f64 .be
    (gu_new_buffered_in (gu_file_in [64, 9, 33, 251, 84, 68, 45, 24] fun _ => 1) 3) 0 [64, 9, 33, 251, 84, 68, 45, 24] :=
  (reads_word_iff (InReach.start (.buffered (.file _ _) (by decide) (by decide))).source .f64 .be).2 (.inl rfl)

end Libpgf
