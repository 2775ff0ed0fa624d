import Libpgf.Gu.OutStack
import Libpgf.Gu.InStack
/-!
# Strings (`gu/string.c`)

A string is a word. A short one is in the word itself, with the low bit set; a
longer one is in memory, at an address that is even.
-/

namespace Libpgf

/-! ## Memory -/

/-- Where the blocks of a pool are put, in the order of the calls to `gu_malloc_aligned` and `gu_malloc_prefixed`, whose alignment is 2 at
least for all that is allocated here. -/
structure GuPool where
  addr : Nat → Nat
  addr_even : ∀ i, addr i % 2 = 0
  addr_pos : ∀ i, 0 < addr i
  addr_inj : ∀ {i j}, addr i = addr j → i = j

structure GuBlock where
  /-- The word in front of the block. -/
  pre : Option Nat
  bytes : Bytes

abbrev GuMemory := List GuBlock

abbrev GuWord := Nat

namespace GuPool
variable (pool : GuPool)

/-- The block at an address. -/
def at_ (mem : GuMemory) (p : GuWord) : Option GuBlock := (mem.zipIdx.find? fun b => pool.addr b.2 = p).map Prod.fst

/-- Allocates a block that begins with the byte `first`. -/
def malloc (mem : GuMemory) (pre : Option Nat) (first : UInt8) : GuWord × GuMemory := (pool.addr mem.length, mem ++ [⟨pre, [first]⟩])

/-- `memcpy(&p[1], buf.p, buf.sz)` for the block that was allocated last. -/
def memcpy (mem : GuMemory) (p : Option GuWord) (buf : Bytes) : Exec (GuWord × GuMemory) := do
  let p ← Exec.deref p
  let block ← Exec.deref mem.getLast?
  return (p, mem.dropLast ++ [{ block with bytes := block.bytes ++ buf }])

/-! ## Strings -/

/-- `w << 8 | buf.p[n]` for each byte. -/
def gu_short_word (buf : Bytes) : Nat := buf.foldl (fun w b => w <<< 8 % 2 ^ 64 ||| b.toNat) 0

def gu_utf8_string (buf : Bytes) (mem : GuMemory) : Exec (GuWord × GuMemory) :=
  if buf.length < min 8 128 then .ok (gu_short_word buf <<< 8 % 2 ^ 64 ||| buf.length <<< 1 ||| 1, mem)
  else if buf.length < 256 then
    let (p, mem) := pool.malloc mem none (UInt8.ofNat buf.length)
    memcpy mem (some p) buf
  else
    -- this branch declares a `p` of its own, and the outer one is still null
    let (_, mem) := pool.malloc mem (some buf.length) 0
    memcpy mem none buf

/-- The slice is null for a null string, and for a short one when there is no `short_data`. -/
structure GuCSlice where
  p : Option Bytes
  sz : Nat

/-- The loop of `gu_string_open`, from the last byte on. -/
def gu_short_bytes : Nat → Nat → Bytes → Bytes
  | 0, _, p => p
  | i + 1, w, p => gu_short_bytes i (w >>> 8) (UInt8.ofNat (w >>> 8 &&& 0xff) :: p)

def gu_string_open (mem : GuMemory) (s : GuWord) (short_data : Bool) : Exec GuCSlice :=
  if s = 0 then .ok ⟨none, 0⟩
  else if s &&& 1 = 0 then do
    let block ← Exec.deref (pool.at_ mem s)
    let first ← Exec.deref block.bytes[0]?
    let sz ← if first = 0 then Exec.deref block.pre else pure first.toNat
    Exec.require (sz ≤ (block.bytes.drop 1).length)
    return ⟨some ((block.bytes.drop 1).take sz), sz⟩
  else
    let sz := (s &&& 0xff) >>> 1
    .ok ⟨if short_data then some (gu_short_bytes sz s []) else none, sz⟩

def gu_string_is_stable (s : GuWord) : Bool := s &&& 1 = 1

def gu_string_copy (s : GuWord) (mem : GuMemory) : Exec (GuWord × GuMemory) :=
  if gu_string_is_stable s then .ok (s, mem)
  else do
    let data ← pool.gu_string_open mem s false
    pool.gu_utf8_string (data.p.getD []) mem

def gu_string_utf8 (s : GuWord) (mem : GuMemory) : Exec Bytes := do
  let data ← pool.gu_string_open mem s true
  return data.p.getD []

def gu_string_write {σ : Type} (S : GuOutStreamFuns σ) (s : GuWord) (mem : GuMemory) (wtr : GuOut σ) (err : GuExn) :
    Exec (GuOut σ × GuExn) := do
  let data ← pool.gu_string_open mem s true
  let (_, wtr, err) ← wtr.gu_out_bytes S (data.p.getD []) err
  return (wtr, err)

/-- The reader is a proxy over the slice, or over a copy of it. -/
def gu_string_reader (s : GuWord) (mem : GuMemory) : Exec (GuIn (GuIn Bytes)) := do
  let buf ← pool.gu_string_open mem s true
  return gu_init_in (gu_in_proxy_stream (gu_data_in (buf.p.getD [])))

def gu_hash_byte (h : GuWord) (u : UInt8) : GuWord := (h * 101 + u.toNat) % 2 ^ 64

def gu_hash_bytes (h : GuWord) (buf : Bytes) : GuWord := buf.foldl gu_hash_byte h

def gu_string_hash (s : GuWord) (mem : GuMemory) : Exec GuWord :=
  if s &&& 1 = 1 then .ok s
  else do
    let data ← pool.gu_string_open mem s false
    return gu_hash_bytes 0 (data.p.getD [])

/-- Two slices are at the same address when both are null, or in the same block. -/
def gu_cslice_eq (s₁ s₂ : GuCSlice) : Bool :=
  s₁.sz = s₂.sz && ((s₁.p.isNone && s₂.p.isNone) || (s₁.p.isSome && s₂.p.isSome && s₁.p.getD [] == s₂.p.getD []))

def gu_string_eq (s₁ s₂ : GuWord) (mem : GuMemory) : Exec Bool :=
  if s₁ = s₂ then .ok true
  else do
    let data₁ ← pool.gu_string_open mem s₁ true
    let data₂ ← pool.gu_string_open mem s₂ true
    return gu_cslice_eq data₁ data₂

/-! ## Short strings -/

/-- The word of a short string, as a number. -/
theorem short_word_append {buf : Bytes} {b : UInt8} (h : gu_short_word buf < 2 ^ 48) :
    gu_short_word (buf ++ [b]) = gu_short_word buf * 256 + b.toNat := by
  have hb := b.toNat_lt
  have hfold : gu_short_word (buf ++ [b]) = gu_short_word buf <<< 8 % 2 ^ 64 ||| b.toNat := List.foldl_append
  have hmod : gu_short_word buf <<< 8 % 2 ^ 64 = gu_short_word buf <<< 8 := by
    rw [Nat.shiftLeft_eq, Nat.mod_eq_of_lt]
    omega
  rw [hfold, hmod, ← Nat.shiftLeft_add_eq_or_of_lt (show b.toNat < 2 ^ 8 from hb), Nat.shiftLeft_eq]

theorem short_word_lt {buf : Bytes} (h : buf.length ≤ 7) : gu_short_word buf < 256 ^ buf.length := by
  induction buf using List.reverseRecOn with
  | nil => exact Nat.zero_lt_one
  | append_singleton buf b ih =>
    have hb := b.toNat_lt
    rw [List.length_append, List.length_singleton] at h ⊢
    have hlt := ih (by omega)
    have hpow : 256 ^ buf.length ≤ 2 ^ 48 := by
      rw [show (256 : Nat) = 2 ^ 8 from rfl, ← Nat.pow_mul]
      exact Nat.pow_le_pow_right (by decide) (by omega)
    rw [short_word_append (hlt.trans_le hpow), Nat.pow_succ]
    omega

theorem short_word_small {buf : Bytes} (h : buf.length ≤ 7) : gu_short_word buf < 2 ^ 56 := by
  refine (short_word_lt h).trans_le ?_
  rw [show (256 : Nat) = 2 ^ 8 from rfl, ← Nat.pow_mul]
  exact Nat.pow_le_pow_right (by decide) (by omega)

/-- The word that `gu_utf8_string` returns. -/
def shortString (buf : Bytes) : Nat := gu_short_word buf * 256 + (2 * buf.length + 1)

theorem shortString_eq {buf : Bytes} (h : buf.length ≤ 7) :
    gu_short_word buf <<< 8 % 2 ^ 64 ||| buf.length <<< 1 ||| 1 = shortString buf := by
  have hlt := short_word_small h
  have hmod : gu_short_word buf <<< 8 % 2 ^ 64 = gu_short_word buf <<< 8 := by
    rw [Nat.shiftLeft_eq, Nat.mod_eq_of_lt]
    omega
  have htag : buf.length <<< 1 ||| 1 = 2 * buf.length + 1 := by
    rw [← Nat.shiftLeft_add_eq_or_of_lt (show 1 < 2 ^ 1 by decide), Nat.shiftLeft_eq]
    omega
  rw [hmod, Nat.or_assoc, htag, ← Nat.shiftLeft_add_eq_or_of_lt (show 2 * buf.length + 1 < 2 ^ 8 by omega), Nat.shiftLeft_eq]
  rfl

theorem shortString_tag (buf : Bytes) : shortString buf &&& 1 = 1 := by
  rw [Nat.and_one_is_mod, shortString]
  omega

/-- The bytes come out of the word last one first. -/
theorem short_bytes_eq {buf : Bytes} (h : buf.length ≤ 7) {t : Nat} (ht : t < 256) (p : Bytes) :
    gu_short_bytes buf.length (gu_short_word buf * 256 + t) p = buf ++ p := by
  induction buf using List.reverseRecOn generalizing t p with
  | nil => rfl
  | append_singleton buf b ih =>
    have hb := b.toNat_lt
    rw [List.length_append, List.length_singleton] at h ⊢
    have hsmall : gu_short_word buf < 2 ^ 48 := by
      refine (short_word_lt (by omega)).trans_le ?_
      rw [show (256 : Nat) = 2 ^ 8 from rfl, ← Nat.pow_mul]
      exact Nat.pow_le_pow_right (by decide) (by omega)
    have hshift : (gu_short_word (buf ++ [b]) * 256 + t) >>> 8 = gu_short_word buf * 256 + b.toNat := by
      rw [short_word_append hsmall, Nat.shiftRight_eq_div_pow]
      omega
    have hbyte : UInt8.ofNat ((gu_short_word buf * 256 + b.toNat) &&& 0xff) = b := by
      rw [Nat.and_two_pow_sub_one_eq_mod _ 8, show (gu_short_word buf * 256 + b.toNat) % 2 ^ 8 = b.toNat by omega, UInt8.ofNat_toNat]
    rw [gu_short_bytes, hshift, hbyte, ih (by omega) hb, List.append_assoc]
    rfl

/-! ## Memory -/

section Memory
variable {pool : GuPool} {mem : GuMemory}

theorem at_append {w : GuWord} {block : GuBlock} (h : pool.at_ mem w = some block) (more : GuMemory) :
    pool.at_ (mem ++ more) w = some block := by
  unfold at_ at h ⊢
  obtain ⟨b, hb, rfl⟩ := Option.map_eq_some_iff.1 h
  rw [List.zipIdx_append, List.find?_append, hb]
  rfl

theorem at_last (block : GuBlock) : pool.at_ (mem ++ [block]) (pool.addr mem.length) = some block := by
  unfold at_
  have hnone : mem.zipIdx.find? (fun b => pool.addr b.2 = pool.addr mem.length) = none := by
    rw [List.find?_eq_none]
    intro b hb haddr
    have hlt := List.snd_lt_of_mem_zipIdx hb
    have heq := pool.addr_inj (of_decide_eq_true haddr)
    omega
  rw [List.zipIdx_append, List.find?_append, hnone, Option.none_or]
  simp

/-- The word `s` is a string for `b`. -/
inductive Holds (pool : GuPool) (mem : GuMemory) : GuWord → Bytes → Prop
  | short {b : Bytes} (h : b.length ≤ 7) : Holds pool mem (shortString b) b
  | long {b : Bytes} {i : Nat} (h : 8 ≤ b.length) (h' : b.length < 256)
      (hat : pool.at_ mem (pool.addr i) = some ⟨none, UInt8.ofNat b.length :: b⟩) : Holds pool mem (pool.addr i) b

theorem Holds.append {s : GuWord} {b : Bytes} (h : Holds pool mem s b) (more : GuMemory) : Holds pool (mem ++ more) s b := by
  cases h with
  | short h => exact .short h
  | long h h' hat => exact .long h h' (at_append hat more)

theorem addr_tag (i : Nat) : pool.addr i &&& 1 = 0 := by
  rw [Nat.and_one_is_mod]
  exact pool.addr_even i

theorem utf8_string_spec (pool : GuPool) {b : Bytes} (h : b.length < 256) (mem : GuMemory) :
    ∃ s more, pool.gu_utf8_string b mem = .ok (s, mem ++ more) ∧ Holds pool (mem ++ more) s b := by
  unfold gu_utf8_string
  by_cases hshort : b.length < 8
  · refine ⟨shortString b, [], ?_, .short (by omega)⟩
    rw [if_pos (show b.length < min 8 128 from hshort), shortString_eq (by omega), List.append_nil]
  · refine ⟨pool.addr mem.length, [⟨none, UInt8.ofNat b.length :: b⟩], ?_, .long (by omega) h (at_last _)⟩
    rw [if_neg (show ¬ b.length < min 8 128 from hshort), if_pos h]
    simp [malloc, memcpy]

/-- A longer one is written through a null pointer. -/
theorem utf8_string_long {b : Bytes} (h : 256 ≤ b.length) (mem : GuMemory) : pool.gu_utf8_string b mem = Exec.abort := by
  have hshort : ¬ b.length < min 8 128 := by
    rw [Nat.lt_min]
    omega
  unfold gu_utf8_string
  rw [if_neg hshort, if_neg (Nat.not_lt.2 h)]
  rfl

theorem Holds.open_eq {s : GuWord} {b : Bytes} (h : Holds pool mem s b) : pool.gu_string_open mem s true = .ok ⟨some b, b.length⟩ := by
  unfold gu_string_open
  cases h with
  | short h =>
    have hpos : shortString b ≠ 0 := by
      unfold shortString
      omega
    have hsz : (shortString b &&& 0xff) >>> 1 = b.length := by
      rw [Nat.and_two_pow_sub_one_eq_mod _ 8, Nat.shiftRight_eq_div_pow, shortString]
      omega
    rw [if_neg hpos, shortString_tag, if_neg Nat.one_ne_zero, hsz]
    simp only [if_true]
    rw [shortString, short_bytes_eq h (by omega), List.append_nil]
  | @long _ i h h' hat =>
    have hne : UInt8.ofNat b.length ≠ 0 := by
      rw [Ne, ← UInt8.toNat_inj, UInt8.toNat_ofNat_of_lt' h']
      show b.length ≠ 0
      omega
    rw [if_neg (Nat.ne_of_gt (pool.addr_pos i)), addr_tag, if_pos rfl, hat]
    simp [hne, UInt8.toNat_ofNat_of_lt' h', Exec.require]

/-- A string in memory needs no buffer to be opened. -/
theorem Holds.cases_tag {s : GuWord} {b : Bytes} (h : Holds pool mem s b) : (s &&& 1 = 1 ∧ s = shortString b ∧ b.length ≤ 7) ∨
    (s &&& 1 = 0 ∧ 8 ≤ b.length ∧ b.length < 256 ∧ pool.gu_string_open mem s false = .ok ⟨some b, b.length⟩) := by
  have hopen := h.open_eq
  cases h with
  | short h => exact .inl ⟨shortString_tag b, rfl, h⟩
  | @long _ i h h' hat =>
    refine .inr ⟨addr_tag i, h, h', ?_⟩
    unfold gu_string_open at hopen ⊢
    rw [if_neg (Nat.ne_of_gt (pool.addr_pos i)), addr_tag, if_pos rfl] at hopen ⊢
    exact hopen

theorem Holds.copy_eq {s : GuWord} {b : Bytes} (h : Holds pool mem s b) :
    ∃ s' more, pool.gu_string_copy s mem = .ok (s', mem ++ more) ∧ Holds pool (mem ++ more) s' b := by
  unfold gu_string_copy gu_string_is_stable
  rcases h.cases_tag with ⟨htag, -, -⟩ | ⟨htag, -, hlt, hopen⟩
  · refine ⟨s, [], ?_, h.append []⟩
    rw [htag, List.append_nil]
    rfl
  · rw [htag, hopen]
    exact utf8_string_spec pool hlt mem

/-! ## What a string delivers -/

/-- `gu_string_utf8` returns `b`, `gu_string_write` hands it to the writer, and `gu_string_reader` returns a stack over it. -/
def Delivers (pool : GuPool) (mem : GuMemory) (s : GuWord) (b : Bytes) : Prop :=
  pool.gu_string_utf8 s mem = .ok b ∧
  (∀ {lim : Nat} {σ : Type} {S : GuOutStreamFuns σ} {sink : σ → Bytes} {wtr : GuOut σ} {init : Bytes}, OutStack lim S sink wtr init →
    b.length ≤ lim → ∃ wtr₁ wtr₂, pool.gu_string_write S s mem wtr none = .ok (wtr₁, none) ∧
      wtr₁.gu_out_flush S none = .ok (wtr₂, none) ∧ sink wtr₂.stream = init ++ b) ∧
  ∃ rdr, pool.gu_string_reader s mem = .ok rdr ∧ InStack (gu_proxy_in_funs gu_data_in_funs) rdr b

theorem Holds.delivers {s : GuWord} {b : Bytes} (h : Holds pool mem s b) : Delivers pool mem s b := by
  have hlen : b.length ≤ PTRDIFF_MAX := by
    have hsmall : b.length < 256 := by
      cases h with
      | short h => omega
      | long _ h' _ => exact h'
    exact (Nat.le_of_lt hsmall).trans (by decide)
  refine ⟨?_, fun hstack hlim => ?_, _, ?_, .proxy (.data b)⟩
  · rw [gu_string_utf8, h.open_eq]
    rfl
  · obtain ⟨v, hok, htaken, rfl⟩ := hstack.view any_blocks
    obtain ⟨k, wtr₁, hrun, hok₁, htaken₁⟩ := GuOut.bytes_spec (n := 0) any_blocks (hok.less hlim) hlen trivial
    obtain ⟨wtr₂, hflush, -, -, hsink⟩ := GuOut.flush_spec any_blocks hok₁
    refine ⟨wtr₁, wtr₂, ?_, hflush, by rw [hsink, htaken₁, htaken]⟩
    rw [gu_string_write, h.open_eq]
    simp only [Exec.ok_bind, Option.getD_some, hrun, Exec.pure_eq]
  · rw [gu_string_reader, h.open_eq]
    rfl

theorem Holds.eq_spec {s₁ s₂ : GuWord} {b₁ b₂ : Bytes} (h₁ : Holds pool mem s₁ b₁) (h₂ : Holds pool mem s₂ b₂) :
    pool.gu_string_eq s₁ s₂ mem = .ok (decide (b₁ = b₂)) := by
  unfold gu_string_eq
  by_cases hs : s₁ = s₂
  · subst hs
    have hopen := h₁.open_eq.symm.trans h₂.open_eq
    have hb : b₁ = b₂ := by
      simp only [Except.ok.injEq, GuCSlice.mk.injEq, Option.some.injEq] at hopen
      exact hopen.1
    rw [if_pos rfl, hb, decide_eq_true rfl]
  · rw [if_neg hs, h₁.open_eq, h₂.open_eq]
    by_cases hb : b₁ = b₂
    · subst hb
      simp [gu_cslice_eq]
    · simp [gu_cslice_eq, hb]

theorem Holds.hash_eq {s₁ s₂ : GuWord} {b : Bytes} (h₁ : Holds pool mem s₁ b) (h₂ : Holds pool mem s₂ b) :
    ∃ hash, pool.gu_string_hash s₁ mem = .ok hash ∧ pool.gu_string_hash s₂ mem = .ok hash := by
  unfold gu_string_hash
  rcases h₁.cases_tag with ⟨htag₁, rfl, hlen⟩ | ⟨htag₁, hlen, -, hopen₁⟩ <;> rcases h₂.cases_tag with ⟨htag₂, rfl, hlen'⟩ | ⟨htag₂, hlen', -, hopen₂⟩
  · exact ⟨shortString b, by rw [if_pos htag₁], by rw [if_pos htag₁]⟩
  · omega
  · omega
  · refine ⟨gu_hash_bytes 0 b, ?_, ?_⟩
    · rw [htag₁, if_neg Nat.zero_ne_one, hopen₁]
      rfl
    · rw [htag₂, if_neg Nat.zero_ne_one, hopen₂]
      rfl

/-! ## Strings and the calls that make them -/

/-- `s` was made from the bytes `b`, or copied from a string that was; `mem` is the memory after that or after more calls. -/
inductive Made (pool : GuPool) : GuMemory → GuWord → Bytes → Prop
  | new {mem mem' : GuMemory} {s : GuWord} {b : Bytes} (hrun : pool.gu_utf8_string b mem = .ok (s, mem')) : Made pool mem' s b
  | copy {mem mem' : GuMemory} {s s' : GuWord} {b : Bytes} (h : Made pool mem s b) (hrun : pool.gu_string_copy s mem = .ok (s', mem')) :
      Made pool mem' s' b
  | later_new {mem mem' : GuMemory} {s s' : GuWord} {b b' : Bytes} (h : Made pool mem s b)
      (hrun : pool.gu_utf8_string b' mem = .ok (s', mem')) : Made pool mem' s b
  | later_copy {mem mem' : GuMemory} {s s' s'' : GuWord} {b b' : Bytes} (h : Made pool mem s b) (h' : Made pool mem s' b')
      (hrun : pool.gu_string_copy s' mem = .ok (s'', mem')) : Made pool mem' s b

/-- What comes of a call to `gu_utf8_string` that returns. -/
theorem utf8_string_returns {b : Bytes} {s : GuWord} {mem' : GuMemory} (hrun : pool.gu_utf8_string b mem = .ok (s, mem')) :
    ∃ more, mem' = mem ++ more ∧ Holds pool mem' s b := by
  by_cases h : b.length < 256
  · obtain ⟨s', more, hrun', hholds⟩ := utf8_string_spec pool h mem
    rw [hrun'] at hrun
    cases hrun
    exact ⟨more, rfl, hholds⟩
  · rw [utf8_string_long (Nat.not_lt.1 h)] at hrun
    cases hrun

theorem Holds.copy_returns {s s' : GuWord} {b : Bytes} {mem' : GuMemory} (h : Holds pool mem s b)
    (hrun : pool.gu_string_copy s mem = .ok (s', mem')) : ∃ more, mem' = mem ++ more ∧ Holds pool mem' s' b := by
  obtain ⟨s'', more, hrun', hholds⟩ := h.copy_eq
  rw [hrun'] at hrun
  cases hrun
  exact ⟨more, rfl, hholds⟩

theorem Made.holds {s : GuWord} {b : Bytes} (h : Made pool mem s b) : Holds pool mem s b := by
  induction h with
  | new hrun => exact (utf8_string_returns hrun).choose_spec.2
  | copy _ hrun ih => exact (ih.copy_returns hrun).choose_spec.2
  | later_new _ hrun ih =>
    obtain ⟨more, rfl, -⟩ := utf8_string_returns hrun
    exact ih.append more
  | later_copy _ _ hrun ih ih' =>
    obtain ⟨more, rfl, -⟩ := ih'.copy_returns hrun
    exact ih.append more

end Memory

/-- `b₁` and `b₂` have strings and their strings have copies; these deliver what they were made from, and they are equal when that is so,
with the same hash. -/
def Represents (pool : GuPool) (b₁ b₂ : Bytes) : Prop :=
  (∀ mem, (∃ s mem', pool.gu_utf8_string b₁ mem = .ok (s, mem')) ∧ ∃ s mem', pool.gu_utf8_string b₂ mem = .ok (s, mem')) ∧
  ∀ {mem s₁ s₂}, Made pool mem s₁ b₁ → Made pool mem s₂ b₂ →
    (∃ s mem', pool.gu_string_copy s₁ mem = .ok (s, mem')) ∧ Delivers pool mem s₁ b₁ ∧ Delivers pool mem s₂ b₂ ∧
    pool.gu_string_eq s₁ s₂ mem = .ok (decide (b₁ = b₂)) ∧
    (b₁ = b₂ → ∃ hash, pool.gu_string_hash s₁ mem = .ok hash ∧ pool.gu_string_hash s₂ mem = .ok hash)

/-- Strings represent their bytes up to the length 255. -/
theorem string_represents (pool : GuPool) (b₁ b₂ : Bytes) : Represents pool b₁ b₂ ↔ b₁.length < 256 ∧ b₂.length < 256 := by
  have hreturns : ∀ {b : Bytes}, (∃ s mem', pool.gu_utf8_string b [] = .ok (s, mem')) → b.length < 256 := by
    rintro b ⟨s, mem', hrun⟩
    by_contra h
    rw [utf8_string_long (Nat.not_lt.1 h)] at hrun
    cases hrun
  constructor
  · rintro ⟨hmake, -⟩
    exact ⟨hreturns (hmake []).1, hreturns (hmake []).2⟩
  · rintro ⟨h₁, h₂⟩
    refine ⟨fun mem => ?_, fun hs₁ hs₂ => ?_⟩
    · obtain ⟨s₁, more₁, hrun₁, -⟩ := utf8_string_spec pool h₁ mem
      obtain ⟨s₂, more₂, hrun₂, -⟩ := utf8_string_spec pool h₂ mem
      exact ⟨⟨s₁, _, hrun₁⟩, s₂, _, hrun₂⟩
    · obtain ⟨s, more, hcopy, -⟩ := hs₁.holds.copy_eq
      refine ⟨⟨s, _, hcopy⟩, hs₁.holds.delivers, hs₂.holds.delivers, hs₁.holds.eq_spec hs₂.holds, ?_⟩
      rintro rfl
      exact hs₁.holds.hash_eq hs₂.holds

/-- 256 bytes. -/
theorem string_too_long : ¬ ∀ (pool : GuPool) (b₁ b₂ : Bytes), Represents pool b₁ b₂ := by
  intro h
  let pool : GuPool := ⟨fun i => 2 * i + 2, fun i => by omega, fun i => by omega, fun hij => by omega⟩
  obtain ⟨⟨s, mem', hrun⟩, -⟩ := (h pool (List.replicate 256 0) []).1 []
  have habort : pool.gu_utf8_string (List.replicate 256 0) [] = Exec.abort :=
    utf8_string_long (by rw [List.length_replicate]) []
  rw [habort] at hrun
  cases hrun

end GuPool

end Libpgf
