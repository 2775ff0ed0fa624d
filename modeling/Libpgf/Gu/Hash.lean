import Libpgf.Gu.Words
import Libpgf.Gu.String
/-!
# Derived equality and hashing (`gu/hash.c`, `gu/string.c`)

`gu_specialize` makes a hasher for a type from the hashers of its parts. A
hasher gets the addresses of values, and looks into memory.

What is in memory at an address of a type is a `GuValue`, which has no addresses
but those that are compared as such. Derived equality is equality of these
values, whatever the shortcuts for equal pointers, and the hash is a function of
the value.
-/

namespace Libpgf

namespace Hash

/-! ## Memory -/

/-- The byte at each address. Memory does not change here. -/
abbrev GuMem := Nat → UInt8

section Memory
variable (M : GuMem)

def load (p size : Nat) : Nat := ByteOrder.le.sum ((List.range size).map fun i => M (p + i))

def loadWord (p : Nat) : Nat := load M p 8

/-- The bytes of a word, as they are in memory. -/
def wordBytes (w : Nat) : Bytes := (List.range 8).map fun i => UInt8.ofNat (w / 256 ^ i % 256)

def gu_hash_word (h w : Nat) : Nat := GuPool.gu_hash_bytes h (wordBytes w)

/-- A conversion to `GuWord`. -/
def toWord (i : Int) : Nat := (i % 2 ^ 64).toNat

/-- `~h` -/
def notWord (h : Nat) : Nat := (2 ^ 64 - 1) ^^^ h

/-! ## Hashers -/

/-- A `GuHasher` with its `GuEq`. -/
structure GuHasher where
  hash : GuMem → Nat → Nat → Exec Nat
  is_equal : GuMem → Nat → Nat → Exec Bool

def gu_eq (H : GuHasher) (a b : Nat) : Exec Bool := if a = b then .ok true else H.is_equal M a b

/-- A loop that returns false at the first element for which `eq` does. -/
def eqAll {ι : Type} (eq : ι → Exec Bool) : List ι → Exec Bool
  | [] => .ok true
  | i :: is => do
    let b ← eq i
    if !b then return false
    eqAll eq is

def DEFINE_INTEGER_HASHER (read : GuMem → Nat → Int) : GuHasher where
  hash M h p := .ok (gu_hash_word h (toWord (read M p)))
  is_equal M p1 p2 := .ok (decide (read M p1 = read M p2))

def gu_int32_hasher : GuHasher := DEFINE_INTEGER_HASHER fun M p => Int.bmod (load M p 4) (2 ^ 32)

def gu_word_hasher : GuHasher := DEFINE_INTEGER_HASHER fun M p => loadWord M p

def gu_uint16_hasher : GuHasher := DEFINE_INTEGER_HASHER fun M p => load M p 2

def gu_uint8_hasher : GuHasher := DEFINE_INTEGER_HASHER fun M p => load M p 1

def gu_addr_hasher : GuHasher where
  hash _ h p := .ok (gu_hash_word h p)
  is_equal _ p1 p2 := .ok (decide (p1 = p2))

def gu_shared_hasher : GuHasher where
  hash M h p := .ok (gu_hash_word h (loadWord M p))
  is_equal M p1 p2 := .ok (decide (loadWord M p1 = loadWord M p2))

/-! ## Sequences -/

def gu_seq_length (w : Nat) : Exec Nat := do
  let tag := w &&& 7
  if tag = 0 then
    Exec.require (w ≠ 0)
    return loadWord M (w - 8) >>> 1
  return tag

def gu_seq_data (w : Nat) : Exec Nat := do
  let tag := w &&& 7
  let ptr := w / 8 * 8
  if tag = 0 then
    Exec.require (w ≠ 0)
    if loadWord M (ptr - 8) &&& 1 ≠ 0 then return loadWord M ptr
  return ptr

def gu_make_seq_hasher (elem_hasher : GuHasher) (elem_size : Nat) : GuHasher where
  is_equal M p1 p2 := do
    let s1 := loadWord M p1
    let s2 := loadWord M p2
    let len ← gu_seq_length M s1
    let len2 ← gu_seq_length M s2
    if len2 ≠ len then return false
    let d1 ← gu_seq_data M s1
    let d2 ← gu_seq_data M s2
    if d1 = d2 then return true
    eqAll (fun i => gu_eq M elem_hasher (d1 + i * elem_size) (d2 + i * elem_size)) (List.range len)
  hash M h p := do
    let seq := loadWord M p
    let len ← gu_seq_length M seq
    let h := gu_hash_word h len
    let data ← gu_seq_data M seq
    forEach (fun h i => elem_hasher.hash M h (data + i * elem_size)) (List.range len) h

/-! ## Variants -/

/-- `-1` is `GU_VARIANT_NULL`. -/
def gu_variant_tag (variant : Nat) : Int :=
  if variant = 0 then -1
  else
    let u := variant % 8
    if u = 0 then (M (variant - 1)).toNat else (u : Int) - 1

def gu_variant_data (variant : Nat) : Nat := if variant = 0 then 0 else variant / 8 * 8

/-- `gu_seq_get(vhasher->data_hashers, GuHasher*, tag)` -/
def seqGet {n : Nat} (data_hashers : Fin n → GuHasher) (tag : Int) : Exec GuHasher :=
  if h : tag.toNat < n then if 0 ≤ tag then .ok (data_hashers ⟨tag.toNat, h⟩) else Exec.abort else Exec.abort

def gu_make_variant_hasher {n : Nat} (data_hashers : Fin n → GuHasher) : GuHasher where
  is_equal M p1 p2 :=
    let v1 := loadWord M p1
    let v2 := loadWord M p2
    if gu_variant_tag M v1 ≠ gu_variant_tag M v2 then .ok false
    else if gu_variant_data v1 = gu_variant_data v2 then .ok true
    else do
      let dhasher ← seqGet data_hashers (gu_variant_tag M v1)
      dhasher.is_equal M (gu_variant_data v1) (gu_variant_data v2)
  hash M h p :=
    let v := loadWord M p
    let h := gu_hash_word h (toWord (gu_variant_tag M v))
    if gu_variant_data v = 0 ∨ gu_variant_tag M v < 0 then .ok (notWord h)
    else do
      let dhasher ← seqGet data_hashers (gu_variant_tag M v)
      dhasher.hash M h (gu_variant_data v)

/-! ## Structs and pointers -/

def gu_make_struct_hasher {n : Nat} (offset : Fin n → Nat) (hasher : Fin n → GuHasher) : GuHasher where
  is_equal M p1 p2 := eqAll (fun i => (hasher i).is_equal M (p1 + offset i) (p2 + offset i)) (List.finRange n)
  hash M h p := forEach (fun h i => (hasher i).hash M h (p + offset i)) (List.finRange n) h

def gu_make_ptr_hasher (pointed_hasher : GuHasher) : GuHasher where
  is_equal M p1 p2 :=
    let v1 := loadWord M p1
    let v2 := loadWord M p2
    if v1 ≠ 0 ∧ v2 ≠ 0 then gu_eq M pointed_hasher v1 v2 else .ok (decide (v1 = v2))
  hash M h p :=
    let v := loadWord M p
    if v ≠ 0 then pointed_hasher.hash M h v else .ok (notWord h)

/-! ## Strings -/

/-- Where a slice is: nowhere, in memory, or in one of the buffers of `gu_string_eq`. -/
inductive SlicePtr where
  | null
  | mem (p : Nat)
  | short (k : Nat)
  deriving DecidableEq

structure GuCSlice where
  p : SlicePtr
  bytes : Bytes

/-- `k` is the buffer for a short string. -/
def gu_string_open (w k : Nat) : GuCSlice :=
  if w = 0 then ⟨.null, []⟩
  else if w &&& 1 = 0 then
    let sz := if M w = 0 then loadWord M (w - 8) else (M w).toNat
    ⟨.mem (w + 1), (List.range sz).map fun i => M (w + 1 + i)⟩
  else ⟨.short k, GuPool.gu_short_bytes ((w &&& 0xff) >>> 1) w []⟩

def gu_cslice_eq (s1 s2 : GuCSlice) : Bool :=
  s1.bytes.length = s2.bytes.length && (s1.p = s2.p || (s1.p ≠ .null && s2.p ≠ .null && s1.bytes = s2.bytes))

def gu_string_hash (w : Nat) : Nat :=
  if w &&& 1 = 1 then w else GuPool.gu_hash_bytes 0 (gu_string_open M w 0).bytes

def gu_string_eq (w1 w2 : Nat) : Bool :=
  if w1 = w2 then true else gu_cslice_eq (gu_string_open M w1 1) (gu_string_open M w2 2)

/-- The hash that is given is not used. -/
def gu_string_hasher : GuHasher where
  hash M _ p := .ok (gu_string_hash M (loadWord M p))
  is_equal M p1 p2 := .ok (gu_string_eq M (loadWord M p1) (loadWord M p2))

end Memory

/-! ## Types -/

/-- The type descriptors whose kinds, down to their parts, are in `gu_hasher_instances`. -/
inductive GuType where
  | int32_t
  | uint16_t
  | uint8_t
  | GuWord
  | struct (size : Nat) {n : Nat} (offset : Fin n → Nat) (type : Fin n → GuType)
  | GuVariant {n : Nat} (ctors : Fin n → GuType)
  | pointer (pointed_type : GuType)
  | shared
  | abstract
  | GuSeq (elem_type : GuType)
  | GuString

namespace GuType

/-- An abstract type has no representation. -/
def gu_type_size : GuType → Nat
  | int32_t => 4
  | uint16_t => 2
  | uint8_t => 1
  | struct size _ _ => size
  | abstract => 0
  | GuWord | GuVariant _ | pointer _ | shared | GuSeq _ | GuString => 8

/-- `gu_specialize` with `gu_hasher_instances`. -/
def gu_specialize : GuType → GuHasher
  | int32_t => gu_int32_hasher
  | uint16_t => gu_uint16_hasher
  | uint8_t => gu_uint8_hasher
  | GuWord => gu_word_hasher
  | struct _ offset type => gu_make_struct_hasher offset fun i => (type i).gu_specialize
  | GuVariant ctors => gu_make_variant_hasher fun i => (ctors i).gu_specialize
  | pointer pointed_type => gu_make_ptr_hasher pointed_type.gu_specialize
  | shared => gu_shared_hasher
  | abstract => gu_addr_hasher
  | GuSeq elem_type => gu_make_seq_hasher elem_type.gu_specialize elem_type.gu_type_size
  | GuString => gu_string_hasher

/-! ## The items of the parser -/

def PgfTokens : GuType := GuSeq GuString

def PgfAlternative : GuType := struct 16 ![0, 8] ![PgfTokens, GuSeq GuString]

def PgfSymbolIdx : GuType := struct 8 ![0, 4] ![int32_t, int32_t]

def PgfSymbol : GuType :=
  GuVariant ![PgfSymbolIdx, PgfSymbolIdx, PgfSymbolIdx, struct 8 ![0] ![PgfTokens], struct 16 ![0, 8] ![PgfTokens, GuSeq PgfAlternative]]

def PgfPArg : GuType := struct 16 ![0, 8] ![GuSeq shared, shared]

def PgfProduction : GuType := GuVariant ![struct 16 ![0, 8] ![shared, GuSeq PgfPArg], struct 8 ![0] ![shared]]

def PgfItemBase : GuType := struct 32 ![0, 8, 16, 24] ![pointer abstract, shared, PgfProduction, GuWord]

def PgfItem : GuType :=
  struct 32 ![0, 8, 16, 24, 26, 27] ![pointer PgfItemBase, GuSeq PgfPArg, PgfSymbol, uint16_t, uint8_t, uint8_t]

/-- `parser->item_hasher` -/
def item_hasher : GuHasher := (pointer PgfItem).gu_specialize

end GuType

/-! ## Values -/

/-- What is in memory at an address of a type. -/
inductive GuValue where
  | int (i : Int)
  | addr (p : Nat)
  | string (content : Option Bytes)
  | null
  | ptr (v : GuValue)
  | tagged (tag : Int) (v : GuValue)
  | seq (vs : List GuValue)
  | struct (vs : List GuValue)

/-- `none` is the null string. A short string is hashed to its word. -/
def stringHash : Option Bytes → Nat
  | none => 0
  | some b => if b.length ≤ 7 then GuPool.shortString b else GuPool.gu_hash_bytes 0 b

mutual
def GuValue.hash : GuValue → Nat → Nat
  | .int i, h => gu_hash_word h (toWord i)
  | .addr p, h => gu_hash_word h p
  | .string content, _ => stringHash content
  | .null, h => notWord h
  | .ptr v, h => v.hash h
  | .tagged tag v, h => v.hash (gu_hash_word h (toWord tag))
  | .seq vs, h => hashAll vs (gu_hash_word h vs.length)
  | .struct vs, h => hashAll vs h

def hashAll : List GuValue → Nat → Nat
  | [], h => h
  | v :: vs, h => hashAll vs (v.hash h)
end

section Value
variable (M : GuMem)

def content (w : Nat) : Option Bytes := if w = 0 then none else some (gu_string_open M w 0).bytes

def ptrValue (f : Nat → GuValue) (p : Nat) : GuValue := if loadWord M p = 0 then .null else .ptr (f (loadWord M p))

def seqValue (size : Nat) (f : Nat → GuValue) (p : Nat) : GuValue :=
  match gu_seq_length M (loadWord M p), gu_seq_data M (loadWord M p) with
  | .ok len, .ok data => .seq ((List.range len).map fun i => f (data + i * size))
  | _, _ => .null

def structValue {n : Nat} (offset : Fin n → Nat) (f : Fin n → Nat → GuValue) (p : Nat) : GuValue :=
  .struct ((List.finRange n).map fun i => f i (p + offset i))

/-- The null variant has the tag -1. -/
def variantValue {n : Nat} (f : Fin n → Nat → GuValue) (p : Nat) : GuValue :=
  let v := loadWord M p
  let tag := gu_variant_tag M v
  .tagged tag (if h : tag.toNat < n then if gu_variant_data v = 0 then .null else f ⟨tag.toNat, h⟩ (gu_variant_data v) else .null)

def GuType.value : GuType → Nat → GuValue
  | .int32_t, p => .int (Int.bmod (load M p 4) (2 ^ 32))
  | .uint16_t, p => .int (load M p 2)
  | .uint8_t, p => .int (load M p 1)
  | .GuWord, p => .int (loadWord M p)
  | .struct _ offset type, p => structValue offset (fun i => (type i).value) p
  | .GuVariant ctors, p => variantValue M (fun i => (ctors i).value) p
  | .pointer pointed_type, p => ptrValue M pointed_type.value p
  | .shared, p => .addr (loadWord M p)
  | .abstract, p => .addr p
  | .GuSeq elem_type, p => seqValue M elem_type.gu_type_size elem_type.value p
  | .GuString, p => .string (content M (loadWord M p))

/-- What `gu_utf8_string` makes, and the null string. -/
inductive IsString : Nat → Prop
  | null : IsString 0
  | short (buf : Bytes) (h : buf.length ≤ 7) : IsString (GuPool.shortString buf)
  | long {w : Nat} (h0 : w ≠ 0) (heven : w &&& 1 = 0) (hlen : 8 ≤ (gu_string_open M w 0).bytes.length) : IsString w

/-- Pointers are null or lead to a value. -/
def ValidPtr (V : Nat → Prop) (p : Nat) : Prop := loadWord M p ≠ 0 → V (loadWord M p)

/-- Sequences are not null. -/
def ValidSeq (size : Nat) (V : Nat → Prop) (p : Nat) : Prop :=
  ∃ len data, gu_seq_length M (loadWord M p) = .ok len ∧ gu_seq_data M (loadWord M p) = .ok data ∧ ∀ i < len, V (data + i * size)

def ValidStruct {n : Nat} (offset : Fin n → Nat) (V : Fin n → Nat → Prop) (p : Nat) : Prop := ∀ i, V i (p + offset i)

/-- Variants are null or have the tag of a constructor. -/
def ValidVariant {n : Nat} (V : Fin n → Nat → Prop) (p : Nat) : Prop :=
  loadWord M p ≠ 0 → ∃ i : Fin n, gu_variant_tag M (loadWord M p) = (i : Nat) ∧ gu_variant_data (loadWord M p) ≠ 0 ∧
    V i (gu_variant_data (loadWord M p))

/-- There is a value of the type at the address. -/
def GuType.Valid : GuType → Nat → Prop
  | .struct _ offset type, p => ValidStruct offset (fun i => (type i).Valid) p
  | .GuVariant ctors, p => ValidVariant M (fun i => (ctors i).Valid) p
  | .pointer pointed_type, p => ValidPtr M pointed_type.Valid p
  | .GuSeq elem_type, p => ValidSeq M elem_type.gu_type_size elem_type.Valid p
  | .GuString, p => IsString M (loadWord M p)
  | .int32_t, _ | .uint16_t, _ | .uint8_t, _ | .GuWord, _ | .shared, _ | .abstract, _ => True

end Value

/-! ## Hashers implement equality and a function of values -/

def Decides (r : Exec Bool) (P : Prop) : Prop := ∃ b, r = .ok b ∧ (b = true ↔ P)

theorem Decides.of_decide (P : Prop) [Decidable P] : Decides (.ok (decide P)) P := ⟨decide P, rfl, decide_eq_true_iff⟩

theorem Decides.congr {r : Exec Bool} {P Q : Prop} (h : Decides r P) (hpq : P ↔ Q) : Decides r Q := by
  obtain ⟨b, hr, hb⟩ := h
  exact ⟨b, hr, hb.trans hpq⟩

theorem eqAll_decides {ι : Type} {eq : ι → Exec Bool} {P : ι → Prop} {l : List ι} (h : ∀ i ∈ l, Decides (eq i) (P i)) :
    Decides (eqAll eq l) (∀ i ∈ l, P i) := by
  induction l with
  | nil => exact ⟨true, rfl, fun _ i hi => absurd hi List.not_mem_nil, fun _ => rfl⟩
  | cons i l ih =>
    obtain ⟨b, hb, hiff⟩ := h i List.mem_cons_self
    unfold eqAll
    rw [hb, Exec.ok_bind]
    cases b with
    | false =>
      refine ⟨false, rfl, fun h => absurd h Bool.false_ne_true, fun hall => ?_⟩
      exact hiff.2 (hall i List.mem_cons_self)
    | true =>
      refine (ih fun j hj => h j (List.mem_cons_of_mem _ hj)).congr ?_
      rw [List.forall_mem_cons]
      exact ⟨fun hall => ⟨hiff.1 rfl, hall⟩, fun hall => hall.2⟩

/-- The hasher compares the values of `f`, and hashes them. -/
structure Implements (M : GuMem) (H : GuHasher) (V : Nat → Prop) (f : Nat → GuValue) : Prop where
  equal : ∀ {p q}, V p → V q → Decides (H.is_equal M p q) (f p = f q)
  hash : ∀ {p}, V p → ∀ h, H.hash M h p = .ok ((f p).hash h)

section Makers
variable {M : GuMem} {H : GuHasher} {V : Nat → Prop} {f : Nat → GuValue}

theorem Implements.gu_eq (h : Implements M H V f) {a b : Nat} (ha : V a) (hb : V b) : Decides (gu_eq M H a b) (f a = f b) := by
  unfold Hash.gu_eq
  by_cases hab : a = b
  · rw [if_pos hab]
    exact ⟨true, rfl, fun _ => hab ▸ rfl, fun _ => rfl⟩
  · rw [if_neg hab]
    exact h.equal ha hb

theorem forEach_hashes {ι : Type} {hash : Nat → ι → Exec Nat} {v : ι → GuValue} {l : List ι}
    (h : ∀ i ∈ l, ∀ k, hash k i = .ok ((v i).hash k)) (k : Nat) : forEach hash l k = .ok (hashAll (l.map v) k) := by
  induction l generalizing k with
  | nil => rfl
  | cons i l ih =>
    rw [forEach_cons, h i List.mem_cons_self, Exec.ok_bind, ih fun j hj => h j (List.mem_cons_of_mem _ hj)]
    rfl

theorem integer_implements (read : GuMem → Nat → Int) :
    Implements M (DEFINE_INTEGER_HASHER read) (fun _ => True) (fun p => .int (read M p)) where
  equal _ _ := (Decides.of_decide _).congr (by rw [GuValue.int.injEq])
  hash _ _ := rfl

theorem addr_implements : Implements M gu_addr_hasher (fun _ => True) GuValue.addr where
  equal _ _ := (Decides.of_decide _).congr (by rw [GuValue.addr.injEq])
  hash _ _ := rfl

theorem shared_implements : Implements M gu_shared_hasher (fun _ => True) (fun p => .addr (loadWord M p)) where
  equal _ _ := (Decides.of_decide _).congr (by rw [GuValue.addr.injEq])
  hash _ _ := rfl

/-! ### Pointers -/

theorem ptrValue_null {p : Nat} (h : loadWord M p = 0) : ptrValue M f p = .null := if_pos h

theorem ptrValue_ptr {p : Nat} (h : loadWord M p ≠ 0) : ptrValue M f p = .ptr (f (loadWord M p)) := if_neg h

theorem ptr_implements (h : Implements M H V f) : Implements M (gu_make_ptr_hasher H) (ValidPtr M V) (ptrValue M f) where
  equal := by
    intro p q hp hq
    unfold gu_make_ptr_hasher
    dsimp only
    by_cases hboth : loadWord M p ≠ 0 ∧ loadWord M q ≠ 0
    · rw [if_pos hboth, ptrValue_ptr hboth.1, ptrValue_ptr hboth.2, GuValue.ptr.injEq]
      exact h.gu_eq (hp hboth.1) (hq hboth.2)
    · rw [if_neg hboth]
      refine (Decides.of_decide _).congr ?_
      by_cases hp0 : loadWord M p = 0
      · by_cases hq0 : loadWord M q = 0
        · simp only [ptrValue_null hp0, ptrValue_null hq0, hp0, hq0]
        · simp only [ptrValue_null hp0, ptrValue_ptr hq0, hp0, Ne.symm hq0, reduceCtorEq]
      · have hq0 : loadWord M q = 0 := not_not.1 fun hq0 => hboth ⟨hp0, hq0⟩
        simp only [ptrValue_ptr hp0, ptrValue_null hq0, hq0, hp0, reduceCtorEq]
  hash := by
    intro p hp k
    unfold gu_make_ptr_hasher
    dsimp only
    by_cases hp0 : loadWord M p = 0
    · rw [if_neg (not_not.2 hp0), ptrValue_null hp0, GuValue.hash]
    · rw [if_pos hp0, ptrValue_ptr hp0, GuValue.hash]
      exact h.hash (hp hp0) k

/-! ### Sequences -/

theorem seqValue_eq {size p len data : Nat} (hlen : gu_seq_length M (loadWord M p) = .ok len) (hdata : gu_seq_data M (loadWord M p) = .ok data) :
    seqValue M size f p = .seq ((List.range len).map fun i => f (data + i * size)) := by
  unfold seqValue
  rw [hlen, hdata]

theorem seq_implements (h : Implements M H V f) (size : Nat) :
    Implements M (gu_make_seq_hasher H size) (ValidSeq M size V) (seqValue M size f) where
  equal := by
    intro p q hp hq
    obtain ⟨len, d1, hlen, hd1, hp⟩ := hp
    obtain ⟨len2, d2, hlen2, hd2, hq⟩ := hq
    unfold gu_make_seq_hasher
    dsimp only
    rw [hlen, hlen2, hd1, hd2, seqValue_eq hlen hd1, seqValue_eq hlen2 hd2, GuValue.seq.injEq]
    simp only [Exec.ok_bind]
    by_cases hne : len2 = len
    · subst hne
      rw [if_neg (not_not.2 rfl)]
      by_cases hd : d1 = d2
      · rw [if_pos hd]
        exact ⟨true, rfl, fun _ => hd ▸ rfl, fun _ => rfl⟩
      · rw [if_neg hd, List.map_inj_left]
        refine eqAll_decides fun i hi => ?_
        have hlt := List.mem_range.1 hi
        exact h.gu_eq (hp i hlt) (hq i hlt)
    · rw [if_pos hne]
      refine ⟨false, rfl, fun hf => absurd hf Bool.false_ne_true, fun heq => ?_⟩
      have hcount := congrArg List.length heq
      simp only [List.length_map, List.length_range] at hcount
      exact absurd hcount.symm hne
  hash := by
    intro p hp k
    obtain ⟨len, d, hlen, hd, hp⟩ := hp
    unfold gu_make_seq_hasher
    dsimp only
    rw [hlen, hd, seqValue_eq hlen hd, GuValue.hash, List.length_map, List.length_range]
    simp only [Exec.ok_bind]
    exact forEach_hashes (fun i hi => h.hash (hp i (List.mem_range.1 hi))) _

end Makers

/-! ### Structs and variants -/

section Members
variable {M : GuMem} {n : Nat} {H : Fin n → GuHasher} {V : Fin n → Nat → Prop} {f : Fin n → Nat → GuValue}

theorem struct_implements (h : ∀ i, Implements M (H i) (V i) (f i)) (offset : Fin n → Nat) :
    Implements M (gu_make_struct_hasher offset H) (ValidStruct offset V) (structValue offset f) where
  equal := by
    intro p q hp hq
    have hall : Decides ((gu_make_struct_hasher offset H).is_equal M p q) (∀ i ∈ List.finRange n, f i (p + offset i) = f i (q + offset i)) :=
      eqAll_decides fun i _ => (h i).equal (hp i) (hq i)
    refine hall.congr ?_
    unfold structValue
    rw [GuValue.struct.injEq, List.map_inj_left]
  hash := by
    intro p hp k
    exact forEach_hashes (fun i _ => (h i).hash (hp i)) k

theorem gu_variant_tag_null : gu_variant_tag M 0 = -1 := rfl

theorem gu_variant_data_null : gu_variant_data 0 = 0 := rfl

theorem variantValue_null {p : Nat} (h : loadWord M p = 0) : variantValue M f p = .tagged (-1) .null := by
  unfold variantValue
  dsimp only
  rw [h, gu_variant_tag_null, gu_variant_data_null]
  simp only [↓reduceIte, dite_eq_ite, ite_self]

theorem variantValue_ctor {p : Nat} {i : Fin n} (htag : gu_variant_tag M (loadWord M p) = (i : Nat))
    (hdata : gu_variant_data (loadWord M p) ≠ 0) : variantValue M f p = .tagged (i : Nat) (f i (gu_variant_data (loadWord M p))) := by
  unfold variantValue
  dsimp only
  rw [htag, Int.toNat_natCast, dif_pos i.isLt, if_neg hdata]

theorem seqGet_ok (i : Fin n) : seqGet H ((i : Nat) : Int) = .ok (H i) := by
  unfold seqGet
  rw [Int.toNat_natCast, dif_pos i.isLt, if_pos (Int.natCast_nonneg _)]

theorem variant_implements (h : ∀ i, Implements M (H i) (V i) (f i)) :
    Implements M (gu_make_variant_hasher H) (ValidVariant M V) (variantValue M f) where
  equal := by
    intro p q hp hq
    unfold gu_make_variant_hasher
    dsimp only
    by_cases hp0 : loadWord M p = 0
    · rw [variantValue_null hp0, hp0, gu_variant_tag_null, gu_variant_data_null]
      by_cases hq0 : loadWord M q = 0
      · rw [variantValue_null hq0, hq0, gu_variant_tag_null, gu_variant_data_null, if_neg (not_not.2 rfl), if_pos rfl]
        exact ⟨true, rfl, fun _ => rfl, fun _ => rfl⟩
      · obtain ⟨j, hj, hdata, -⟩ := hq hq0
        have hne : (-1 : Int) ≠ (j : Nat) := by omega
        rw [variantValue_ctor hj hdata, hj, if_pos hne]
        refine ⟨false, rfl, fun hf => absurd hf Bool.false_ne_true, fun heq => ?_⟩
        exact absurd (GuValue.tagged.inj heq).1 hne
    · obtain ⟨i, hi, hdata, hvalid⟩ := hp hp0
      rw [variantValue_ctor hi hdata, hi]
      by_cases hq0 : loadWord M q = 0
      · have hne : ((i : Nat) : Int) ≠ -1 := by omega
        rw [variantValue_null hq0, hq0, gu_variant_tag_null, if_pos hne]
        refine ⟨false, rfl, fun hf => absurd hf Bool.false_ne_true, fun heq => ?_⟩
        exact absurd (GuValue.tagged.inj heq).1 hne
      · obtain ⟨j, hj, hdata2, hvalid2⟩ := hq hq0
        rw [variantValue_ctor hj hdata2, hj, GuValue.tagged.injEq]
        by_cases hij : i = j
        · subst hij
          rw [if_neg (not_not.2 rfl)]
          by_cases hd : gu_variant_data (loadWord M p) = gu_variant_data (loadWord M q)
          · rw [if_pos hd, hd]
            exact ⟨true, rfl, fun _ => ⟨rfl, rfl⟩, fun _ => rfl⟩
          · rw [if_neg hd, seqGet_ok, Exec.ok_bind]
            refine ((h i).equal hvalid hvalid2).congr ?_
            exact (and_iff_right rfl).symm
        · have hne : ((i : Nat) : Int) ≠ (j : Nat) := fun heq => hij (Fin.ext (Int.natCast_inj.1 heq))
          rw [if_pos hne]
          exact ⟨false, rfl, fun hf => absurd hf Bool.false_ne_true, fun heq => absurd heq.1 hne⟩
  hash := by
    intro p hp k
    unfold gu_make_variant_hasher
    dsimp only
    by_cases hp0 : loadWord M p = 0
    · rw [variantValue_null hp0, hp0, gu_variant_tag_null, gu_variant_data_null, if_pos (Or.inl rfl), GuValue.hash, GuValue.hash]
    · obtain ⟨i, hi, hdata, hvalid⟩ := hp hp0
      have hneg : ¬(gu_variant_data (loadWord M p) = 0 ∨ ((i : Nat) : Int) < 0) := not_or.2 ⟨hdata, by omega⟩
      rw [variantValue_ctor hi hdata, hi, if_neg hneg, seqGet_ok, Exec.ok_bind, GuValue.hash]
      exact (h i).hash hvalid _

end Members

/-! ### Strings -/

section Strings
variable {M : GuMem}

theorem gu_string_open_bytes (w k : Nat) : (gu_string_open M w k).bytes = (gu_string_open M w 0).bytes := by
  unfold gu_string_open
  split_ifs <;> rfl

theorem gu_string_open_null {w k : Nat} : (gu_string_open M w k).p = .null ↔ w = 0 := by
  unfold gu_string_open
  split_ifs with h0 heven
  · simp only [h0]
  · simp only [h0]
  · simp only [h0]

/-- Two strings that are at one place are one word. -/
theorem gu_string_open_apart {w1 w2 : Nat} (hne : w1 ≠ w2) : (gu_string_open M w1 1).p ≠ (gu_string_open M w2 2).p := by
  unfold gu_string_open
  split_ifs with h1 h2 h2 <;> simp only [ne_eq, reduceCtorEq, not_false_eq_true, not_true_eq_false, SlicePtr.mem.injEq, SlicePtr.short.injEq]
  all_goals omega

theorem content_eq_iff {w1 w2 : Nat} (hne : w1 ≠ w2) :
    content M w1 = content M w2 ↔ w1 ≠ 0 ∧ w2 ≠ 0 ∧ (gu_string_open M w1 0).bytes = (gu_string_open M w2 0).bytes := by
  unfold content
  split_ifs with h1 h2 h2
  · exact absurd (h1.trans h2.symm) hne
  · simp only [ne_eq, h1, not_true_eq_false, false_and]
  · simp only [ne_eq, h2, not_true_eq_false, false_and, and_false]
  · simp only [Option.some.injEq, ne_eq, h1, h2, not_false_eq_true, true_and]

theorem gu_string_eq_iff (w1 w2 : Nat) : gu_string_eq M w1 w2 = true ↔ content M w1 = content M w2 := by
  unfold gu_string_eq
  by_cases hw : w1 = w2
  · rw [if_pos hw, hw]
    exact ⟨fun _ => rfl, fun _ => rfl⟩
  · rw [if_neg hw, content_eq_iff hw]
    unfold gu_cslice_eq
    rw [gu_string_open_bytes w1 1, gu_string_open_bytes w2 2]
    simp only [Bool.and_eq_true, Bool.or_eq_true, decide_eq_true_eq, gu_string_open_apart hw, false_or, ne_eq, gu_string_open_null]
    constructor
    · rintro ⟨-, ⟨h1, h2⟩, hbytes⟩
      exact ⟨h1, h2, hbytes⟩
    · rintro ⟨h1, h2, hbytes⟩
      exact ⟨congrArg List.length hbytes, ⟨h1, h2⟩, hbytes⟩

theorem gu_string_open_short {buf : Bytes} (h : buf.length ≤ 7) (k : Nat) : (gu_string_open M (GuPool.shortString buf) k).bytes = buf := by
  have htag := GuPool.shortString_tag buf
  have hne : GuPool.shortString buf ≠ 0 := by
    intro h0
    rw [h0] at htag
    exact absurd htag (by decide)
  have hlen : (GuPool.shortString buf &&& 0xff) >>> 1 = buf.length := by
    rw [Nat.and_two_pow_sub_one_eq_mod _ 8, Nat.shiftRight_eq_div_pow, GuPool.shortString]
    omega
  unfold gu_string_open
  rw [if_neg hne, if_neg (by rw [htag]; decide), hlen, GuPool.shortString]
  exact (GuPool.short_bytes_eq h (by omega) []).trans (List.append_nil buf)

theorem gu_string_hash_eq {w : Nat} (h : IsString M w) : gu_string_hash M w = stringHash (content M w) := by
  unfold gu_string_hash
  cases h with
  | null => rfl
  | short buf h =>
    have htag := GuPool.shortString_tag buf
    have hne : GuPool.shortString buf ≠ 0 := by
      intro h0
      rw [h0] at htag
      exact absurd htag (by decide)
    rw [if_pos htag, content, if_neg hne, gu_string_open_short h, stringHash, if_pos h]
  | long h0 heven hlen =>
    rw [if_neg (by rw [heven]; decide), content, if_neg h0, stringHash, if_neg (by omega)]

theorem string_implements :
    Implements M gu_string_hasher (fun p => IsString M (loadWord M p)) (fun p => .string (content M (loadWord M p))) where
  equal := by
    intro p q _ _
    refine ⟨gu_string_eq M (loadWord M p) (loadWord M q), rfl, ?_⟩
    rw [GuValue.string.injEq]
    exact gu_string_eq_iff _ _
  hash := by
    intro p hp k
    exact congrArg Except.ok (gu_string_hash_eq hp)

end Strings

/-! ### All types -/

variable {M : GuMem}

/-- The hasher that `gu_specialize` makes is equality and a hash of values. -/
theorem specialized (T : GuType) : Implements M T.gu_specialize (T.Valid M) (T.value M) := by
  induction T with
  | int32_t => exact integer_implements fun M p => Int.bmod (load M p 4) (2 ^ 32)
  | uint16_t => exact integer_implements fun M p => load M p 2
  | uint8_t => exact integer_implements fun M p => load M p 1
  | GuWord => exact integer_implements fun M p => loadWord M p
  | struct size offset type ih => exact struct_implements ih offset
  | GuVariant ctors ih =>
    have hvalid : (GuType.GuVariant ctors).Valid M = ValidVariant M fun i => (ctors i).Valid M := funext fun _ => by rw [GuType.Valid]
    have hvalue : (GuType.GuVariant ctors).value M = variantValue M fun i => (ctors i).value M := funext fun _ => by rw [GuType.value]
    rw [GuType.gu_specialize, hvalid, hvalue]
    exact variant_implements ih
  | pointer pointed_type ih => exact ptr_implements ih
  | shared => exact shared_implements
  | abstract => exact addr_implements
  | GuSeq elem_type ih => exact seq_implements ih elem_type.gu_type_size
  | GuString => exact string_implements

/-! ## Coherence -/

/-- The equality of a hasher, on the places where there is a value. -/
def Equal (M : GuMem) (H : GuHasher) (V : Nat → Prop) (p q : { p : Nat // V p }) : Prop := H.is_equal M p.1 q.1 = .ok true

/-- Equality always gets an answer and is an equivalence, and equal values have the same hash, whatever the hash they are added to. -/
structure Coherent (M : GuMem) (H : GuHasher) (V : Nat → Prop) : Prop where
  answers : ∀ p q : { p : Nat // V p }, ∃ b, H.is_equal M p.1 q.1 = .ok b
  equivalence : Equivalence (Equal M H V)
  same_hash : ∀ p q, Equal M H V p q → ∀ h, ∃ k, H.hash M h p.1 = .ok k ∧ H.hash M h q.1 = .ok k

section Coherence
variable {H : GuHasher} {V : Nat → Prop} {f : Nat → GuValue}

theorem Implements.equal_iff (h : Implements M H V f) {p q : { p : Nat // V p }} : Equal M H V p q ↔ f p.1 = f q.1 := by
  obtain ⟨b, hb, hiff⟩ := h.equal p.2 q.2
  unfold Equal
  rw [hb, Except.ok.injEq]
  exact hiff

theorem Implements.coherent (h : Implements M H V f) : Coherent M H V where
  answers := by
    intro p q
    obtain ⟨b, hb, -⟩ := h.equal p.2 q.2
    exact ⟨b, hb⟩
  equivalence := by
    refine ⟨?_, ?_, ?_⟩
    · intro p
      exact h.equal_iff.2 rfl
    · intro p q hpq
      exact h.equal_iff.2 (h.equal_iff.1 hpq).symm
    · intro p q r hpq hqr
      exact h.equal_iff.2 ((h.equal_iff.1 hpq).trans (h.equal_iff.1 hqr))
  same_hash := by
    intro p q hpq k
    have hvalue := h.equal_iff.1 hpq
    refine ⟨(f p.1).hash k, h.hash p.2 k, ?_⟩
    rw [hvalue]
    exact h.hash q.2 k

end Coherence

/-- Every derived hasher is coherent with derived equality, and so is the one for the items of the parser. -/
theorem hashes_coherent (M : GuMem) :
    (∀ T : GuType, Coherent M T.gu_specialize (T.Valid M)) ∧ Coherent M GuType.item_hasher ((GuType.pointer GuType.PgfItem).Valid M) := by
  have hall : ∀ T : GuType, Coherent M T.gu_specialize (T.Valid M) := fun T => (specialized T).coherent
  exact ⟨hall, hall (GuType.pointer GuType.PgfItem)⟩

end Hash

end Libpgf
