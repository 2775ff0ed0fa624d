import Libpgf.Gu.Prime
import Libpgf.Gu.Mem
/-!
# Hash maps (`gu/map.c`)

A `GuMap` is an open-addressing table with double hashing. A slot is free when
its key has only zero bytes, except for the slot that `zero_idx` remembers: it
holds the one key that is all zero. There is no deletion.

The three kinds of map (generic, address, word) run the same steps with
different hashes and equalities, which a `GuHasher` provides.
-/

namespace Libpgf

/-- How a map's keys are hashed and compared, with what the table relies on. -/
structure GuHasher (K : Type) where
  hash : K → Nat
  eq : K → K → Bool
  /-- The key whose bytes are all zero. -/
  zero : K
  isZero : K → Bool
  eq_refl : ∀ k, eq k k = true
  eq_symm : ∀ {k k'}, eq k k' = true → eq k' k = true
  eq_trans : ∀ {a b c}, eq a b = true → eq b c = true → eq a c = true
  hash_eq : ∀ {k k'}, eq k k' = true → hash k = hash k'
  isZero_iff : ∀ {k}, isZero k = true ↔ k = zero

structure GuMap (K V : Type) where
  key_size : Nat
  value_size : Nat
  default_value : Option V
  /-- What a value's memory holds before anything is stored in it. -/
  zero_value : V
  keys : List K
  values : List V
  n_occupied : Nat
  /-- `none` is `SIZE_MAX`. -/
  zero_idx : Option Nat

namespace GuMap
variable {K V : Type}

def n_entries (m : GuMap K V) : Nat := m.keys.length

variable (h : GuHasher K)

def key (m : GuMap K V) (idx : Nat) : K := m.keys.getD idx h.zero

/-- `gu_map_entry_is_free` -/
def isFree (m : GuMap K V) (idx : Nat) : Bool :=
  if m.zero_idx = some idx then false else h.isZero (m.key h idx)

/-- The probe loop of `gu_map_lookup`, from slot `idx`. -/
def gu_map_probe (m : GuMap K V) (k : K) (offset : Nat) : Nat → Nat → Exec (Bool × Nat)
  | 0, _ => Exec.hang
  | n + 1, idx =>
    if m.isFree h idx then .ok (false, idx)
    else if h.eq k (m.key h idx) then .ok (true, idx)
    else gu_map_probe m k offset n ((idx + offset) % m.n_entries)

/-- Whether the key is in the table, and the slot where it is or belongs. A
probe sequence that comes back to its start goes on forever. -/
def gu_map_lookup (m : GuMap K V) (k : K) : Exec (Bool × Nat) :=
  m.gu_map_probe h k (h.hash k % (m.n_entries - 2) + 1) m.n_entries (h.hash k % m.n_entries)

/-- Copies one entry of the old table into the new one. -/
def reinsert (insert : GuMap K V → K → Exec (GuMap K V × Nat)) (old : GuMap K V) (m : GuMap K V) (i : Nat) :
    Exec (GuMap K V) := do
  if old.isFree h i then return m
  let (m, idx) ← insert m (old.key h i)
  return { m with values := m.values.set idx (old.values.getD i old.zero_value) }

/-- The number of slots that the buffers asked for have room for. -/
def roomFor (m : GuMap K V) (req_entries : Nat) : Exec Nat := do
  let keys_sz ← gu_mem_buf_size (req_entries * m.key_size)
  let n_entries := keys_sz / m.key_size
  if m.value_size = 0 then return n_entries
  let values_sz ← gu_mem_buf_size (req_entries * m.value_size)
  return min n_entries (values_sz / m.value_size)

/-- The table size that `gu_map_resize` chooses. -/
def resizedEntries (m : GuMap K V) : Exec Nat := do
  let req_entries ← gu_twin_prime_sup (intOf (max 11 (m.n_occupied * 4 / 3 + 1)))
  let n_entries ← m.roomFor req_entries.toNat
  let n ← gu_twin_prime_inf (intOf n_entries)
  return n.toNat

/-- The new table, before any entry is copied. -/
def cleared (m : GuMap K V) (n : Nat) : GuMap K V :=
  { m with keys := .replicate n h.zero, values := .replicate n m.zero_value, n_occupied := 0, zero_idx := none }

def gu_map_resize (insert : GuMap K V → K → Exec (GuMap K V × Nat)) (m : GuMap K V) : Exec (GuMap K V) := do
  let n ← m.resizedEntries
  Exec.require (n > m.n_occupied)
  forEach (reinsert h insert m) (List.range m.n_entries) (m.cleared h n)

/-- Whether `gu_map_maybe_resize` resizes. -/
def isFull (m : GuMap K V) : Prop := m.n_entries ≤ m.n_occupied + m.n_occupied / 4

instance (m : GuMap K V) : Decidable m.isFull := inferInstanceAs (Decidable (_ ≤ _))

/-- What storing a key does to the map, apart from `zero_idx`. -/
def stored (m : GuMap K V) (k : K) (idx : Nat) : GuMap K V :=
  { m with
    keys := m.keys.set idx k
    values := match m.default_value with
      | some v => m.values.set idx v
      | none => m.values
    n_occupied := m.n_occupied + 1 }

/-- Stores the key in the free slot `idx`. -/
def store (m : GuMap K V) (k : K) (idx : Nat) : Exec (GuMap K V) := do
  let m := m.stored k idx
  if m.isFree h idx then
    Exec.require (m.zero_idx = none)
    return { m with zero_idx := some idx }
  return m

/-- `gu_map_insert` and `gu_map_resize` call each other; `depth` bounds how often. -/
def gu_map_insert_at : Nat → GuMap K V → K → Exec (GuMap K V × Nat)
  | 0, _, _ => Exec.hang
  | depth + 1, m, k => do
    let (found, idx) ← m.gu_map_lookup h k
    if found then return (m, idx)
    if m.isFull then
      let m ← m.gu_map_resize h (gu_map_insert_at depth)
      let (found, idx) ← m.gu_map_lookup h k
      Exec.require (found = false)
      let m ← m.store h k idx
      return (m, idx)
    let m ← m.store h k idx
    return (m, idx)

/-- The map with the key in it, and the slot of its value. -/
def gu_map_insert (m : GuMap K V) (k : K) : Exec (GuMap K V × Nat) := m.gu_map_insert_at h 3 k

def gu_make_map (key_size value_size : Nat) (default_value : Option V) (zero_value : V) : Exec (GuMap K V) :=
  gu_map_resize h (gu_map_insert_at h 3)
    { key_size, value_size, default_value, zero_value, keys := [], values := [], n_occupied := 0, zero_idx := none }

/-- The first slot in use from `i` on, and the cursor after it. -/
def gu_map_enum_next (m : GuMap K V) (i : Nat) : Option (K × Nat) :=
  ((List.range' i (m.n_entries - i)).find? fun j => !m.isFree h j).map fun j => (m.key h j, j + 1)

end GuMap

end Libpgf
