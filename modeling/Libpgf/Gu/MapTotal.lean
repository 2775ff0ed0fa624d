import Libpgf.Lib.Assoc
import Libpgf.Gu.MapValues
import Libpgf.Gu.PrimeLaws
/-!
# Every call on a hash map returns

The size of a table is prime, so a probe sequence comes to every slot, and there
is always a free one. So lookups end. An insertion resizes the table before it
is too full, and a resize copies entries into a table that is never full.

The entries of the table are a finite map, whose order does not matter.
-/

namespace Libpgf

namespace GuMap
variable {K V : Type} {h : GuHasher K} {m m' : GuMap K V} {k k' : K} {v v' : V} {i j idx : Nat}

/-! ## Enumeration -/

/-- The entry in a slot that is in use. -/
def entryAt (h : GuHasher K) (m : GuMap K V) (i : Nat) : Option (K × V) :=
  if m.isFree h i then none else some (m.key h i, m.values.getD i m.zero_value)

/-- What `gu_map_iter` calls its function with, in order. -/
def gu_map_iter (h : GuHasher K) (m : GuMap K V) : List (K × V) := (List.range m.n_entries).filterMap (m.entryAt h)

/-- `gu_map_enum_next` of an enumeration of values. -/
def gu_map_enum_next_value (h : GuHasher K) (m : GuMap K V) (i : Nat) : Option (V × Nat) :=
  ((List.range' i (m.n_entries - i)).find? fun j => !m.isFree h j).map fun j => (m.values.getD j m.zero_value, j + 1)

/-- What an enumeration gives from a cursor on, until it ends. -/
def enumerate {α : Type} (next : Nat → Option (α × Nat)) : Nat → Nat → Exec (List α)
  | 0, _ => Exec.hang
  | n + 1, i =>
    match next i with
    | none => .ok []
    | some (a, i) => do
      let as ← enumerate next n i
      return a :: as

/-- All keys that an enumeration gives. -/
def gu_map_keys (h : GuHasher K) (m : GuMap K V) : Exec (List K) := enumerate (m.gu_map_enum_next h) (m.n_entries + 1) 0

def gu_map_values (h : GuHasher K) (m : GuMap K V) : Exec (List V) := enumerate (m.gu_map_enum_next_value h) (m.n_entries + 1) 0

theorem enumerate_eq {α : Type} {p : Nat → Bool} {f : Nat → α} {n : Nat} {next : Nat → Option (α × Nat)}
    (hnext : ∀ i, next i = ((List.range' i (n - i)).find? p).map fun j => (f j, j + 1)) {rounds i : Nat} (hr : n - i < rounds) :
    enumerate next rounds i = .ok (((List.range' i (n - i)).filter p).map f) := by
  induction rounds generalizing i with
  | zero => exact absurd hr (Nat.not_lt_zero _)
  | succ rounds ih =>
    rw [enumerate, hnext]
    cases hfind : (List.range' i (n - i)).find? p with
    | none =>
      have hnone : (List.range' i (n - i)).filter p = [] := by
        rw [List.filter_eq_nil_iff]
        exact List.find?_eq_none.1 hfind
      rw [hnone]
      rfl
    | some j =>
      have hmem := List.mem_range'_1.1 (List.mem_of_find?_eq_some hfind)
      have hp := List.find?_some hfind
      -- the range up to the next slot, and from there on
      have hsplit : List.range' i (n - i) = List.range' i (j - i) ++ j :: List.range' (j + 1) (n - (j + 1)) := by
        rw [← List.range'_succ, show n - i = (j - i) + (n - (j + 1) + 1) by omega, ← List.range'_append_1,
          show i + (j - i) = j by omega]
      have hbefore : (List.range' i (j - i)).filter p = [] := by
        rw [List.filter_eq_nil_iff]
        intro x hx
        rw [hsplit] at hfind
        rw [List.find?_append] at hfind
        cases hfirst : (List.range' i (j - i)).find? p with
        | none => exact List.find?_eq_none.1 hfirst x hx
        | some y =>
          rw [hfirst] at hfind
          obtain rfl := Option.some.inj hfind
          have hy := List.mem_range'_1.1 (List.mem_of_find?_eq_some hfirst)
          omega
      have hrest := ih (i := j + 1) (by omega)
      rw [hsplit, List.filter_append, hbefore, List.nil_append, List.filter_cons_of_pos hp, List.map_cons]
      simp only [Option.map_some, hrest, Exec.ok_bind, Exec.pure_eq]

theorem enumerate_all {α : Type} {p : Nat → Bool} {f : Nat → α} {n : Nat} {next : Nat → Option (α × Nat)}
    (hnext : ∀ i, next i = ((List.range' i (n - i)).find? p).map fun j => (f j, j + 1)) :
    enumerate next (n + 1) 0 = .ok (((List.range n).filter p).map f) := by
  have hall := enumerate_eq hnext (Nat.lt_succ_of_le (Nat.sub_le n 0))
  rw [Nat.sub_zero, ← List.range_eq_range'] at hall
  exact hall

theorem iter_eq : m.gu_map_iter h =
    ((List.range m.n_entries).filter fun i => !m.isFree h i).map fun i => (m.key h i, m.values.getD i m.zero_value) := by
  unfold gu_map_iter
  generalize List.range m.n_entries = is
  induction is with
  | nil => rfl
  | cons i is ih =>
    cases hfree : m.isFree h i with
    | true => rw [List.filterMap_cons_none (by rw [entryAt, hfree]; rfl), List.filter_cons_of_neg (by rw [hfree]; decide), ih]
    | false =>
      rw [List.filterMap_cons_some (by rw [entryAt, hfree]; rfl), List.filter_cons_of_pos (by rw [hfree]; rfl), ih, List.map_cons]

/-- An enumeration of keys comes to each entry once. -/
theorem keys_eq : m.gu_map_keys h = .ok ((m.gu_map_iter h).map Prod.fst) := by
  rw [iter_eq, List.map_map]
  exact enumerate_all fun _ => rfl

theorem values_eq : m.gu_map_values h = .ok ((m.gu_map_iter h).map Prod.snd) := by
  rw [iter_eq, List.map_map]
  exact enumerate_all fun _ => rfl

/-- The slots in use, of which each has an entry. -/
theorem entryAt_some {e : K × V} : m.entryAt h i = some e ↔ m.isFree h i = false ∧ e = (m.key h i, m.values.getD i m.zero_value) := by
  unfold entryAt
  cases m.isFree h i with
  | true => simp
  | false => simp [eq_comm]

theorem mem_iter {e : K × V} : e ∈ m.gu_map_iter h ↔ ∃ i, m.Used h i ∧ e = (m.key h i, m.values.getD i m.zero_value) := by
  unfold gu_map_iter
  simp only [List.mem_filterMap, List.mem_range, entryAt_some]
  constructor
  · rintro ⟨i, hi, hfree, he⟩
    exact ⟨i, ⟨hi, hfree⟩, he⟩
  · rintro ⟨i, ⟨hi, hfree⟩, he⟩
    exact ⟨i, hi, hfree, he⟩

/-- A list of slots, where one of them gets an entry. -/
theorem filterMap_insert {f g : Nat → Option (K × V)} {e : K × V} {is : List Nat} (hnd : is.Nodup) (hi : i ∈ is) (hf : f i = none)
    (hg : g i = some e) (hsame : ∀ j ≠ i, g j = f j) : (is.filterMap g).Perm (e :: is.filterMap f) := by
  obtain ⟨as, bs, rfl⟩ := List.append_of_mem hi
  obtain ⟨-, hb, hdisj⟩ := List.nodup_append.1 hnd
  have has : as.filterMap g = as.filterMap f := List.filterMap_congr fun j hj => hsame j (hdisj j hj i List.mem_cons_self)
  have hbs : bs.filterMap g = bs.filterMap f := by
    refine List.filterMap_congr fun j hj => hsame j ?_
    rintro rfl
    exact (List.nodup_cons.1 hb).1 hj
  rw [List.filterMap_append, List.filterMap_append, List.filterMap_cons_some hg, List.filterMap_cons_none hf, has, hbs]
  exact List.perm_middle

/-! ## Lookups -/

/-- The probe sequence of a key comes to each slot, as the size is prime. -/
theorem slot_surjective (hp : m.n_entries.Prime) (h3 : 3 ≤ m.n_entries) (hj : j < m.n_entries) : ∃ t < m.n_entries, m.slot h k t = j := by
  have hoffset : h.hash k % (m.n_entries - 2) < m.n_entries - 2 := Nat.mod_lt _ (by omega)
  have hcoprime : Nat.Coprime (h.hash k % (m.n_entries - 2) + 1) m.n_entries :=
    (Nat.coprime_of_lt_prime (Nat.succ_ne_zero _) (by omega) hp).symm
  obtain ⟨c, -, hc⟩ := Nat.exists_mul_mod_eq_one_of_coprime hcoprime (by omega)
  refine ⟨c * (j + (m.n_entries - h.hash k % m.n_entries)) % m.n_entries, Nat.mod_lt _ (by omega), ?_⟩
  have hlt : h.hash k % m.n_entries < m.n_entries := Nat.mod_lt _ (by omega)
  unfold slot
  generalize h.hash k % (m.n_entries - 2) + 1 = o at hc
  generalize h.hash k % m.n_entries = a at hlt
  have hmul : c * (j + (m.n_entries - a)) % m.n_entries * o ≡ j + (m.n_entries - a) [MOD m.n_entries] := by
    calc c * (j + (m.n_entries - a)) % m.n_entries * o
        ≡ c * (j + (m.n_entries - a)) * o [MOD m.n_entries] := (Nat.mod_modEq _ _).mul_right o
      _ = o * c * (j + (m.n_entries - a)) := by ring
      _ ≡ 1 * (j + (m.n_entries - a)) [MOD m.n_entries] := Nat.ModEq.mul_right _ (by rw [Nat.ModEq, hc, Nat.mod_eq_of_lt (by omega)])
      _ = j + (m.n_entries - a) := Nat.one_mul _
  have hsum : a + c * (j + (m.n_entries - a)) % m.n_entries * o ≡ j + m.n_entries [MOD m.n_entries] := by
    refine (hmul.add_left a).trans ?_
    rw [show a + (j + (m.n_entries - a)) = j + m.n_entries by omega]
  rw [hsum, Nat.add_mod_right, Nat.mod_eq_of_lt hj]

/-- From `d` slots before the end of the probe loop on. -/
theorem probe_ends {t : Nat} {r : Bool × Nat} (hp : m.Passed h k t)
    (hend : ∀ n, m.gu_map_probe h k (h.hash k % (m.n_entries - 2) + 1) (n + 1) (m.slot h k t) = .ok r) {d n s : Nat} (hs : s + d = t) (hn : d < n) :
    m.gu_map_probe h k (h.hash k % (m.n_entries - 2) + 1) n (m.slot h k s) = .ok r := by
  induction d generalizing n s with
  | zero =>
    obtain ⟨n, rfl⟩ := Nat.exists_eq_succ_of_ne_zero (Nat.ne_of_gt hn)
    obtain rfl : s = t := hs
    exact hend n
  | succ d ih =>
    obtain ⟨n, rfl⟩ := Nat.exists_eq_succ_of_ne_zero (Nat.ne_of_gt (Nat.lt_of_le_of_lt (Nat.zero_le _) hn))
    obtain ⟨hus, hes⟩ := hp s (by omega)
    simp only [gu_map_probe, hus.2, hes, Bool.false_eq_true, if_false]
    rw [slot_succ]
    exact ih (by omega) (by omega)

/-- A lookup ends, as there is a free slot. -/
theorem lookup_returns (hp : m.n_entries.Prime) (h3 : 3 ≤ m.n_entries) (hj : j < m.n_entries) (hfree : m.isFree h j = true) (k : K) :
    ∃ r, m.gu_map_lookup h k = .ok r := by
  -- the first slot at which the loop stops
  have hstop : ∃ t, m.isFree h (m.slot h k t) = true ∨ h.eq k (m.key h (m.slot h k t)) = true := by
    obtain ⟨t, -, ht⟩ := slot_surjective (h := h) (k := k) hp h3 hj
    exact ⟨t, .inl (by rw [ht]; exact hfree)⟩
  classical
  have hlt : Nat.find hstop < m.n_entries := by
    obtain ⟨t, hlt, ht⟩ := slot_surjective (h := h) (k := k) hp h3 hj
    exact Nat.lt_of_le_of_lt (Nat.find_min' hstop (.inl (by rw [ht]; exact hfree))) hlt
  have hpassed : m.Passed h k (Nat.find hstop) := by
    intro t ht
    have hnot := Nat.find_min hstop ht
    rw [not_or, Bool.not_eq_true, Bool.not_eq_true] at hnot
    exact ⟨⟨slot_lt (by omega) t, hnot.1⟩, hnot.2⟩
  unfold gu_map_lookup
  rw [← slot_zero]
  cases hf : m.isFree h (m.slot h k (Nat.find hstop)) with
  | true =>
    refine ⟨(false, m.slot h k (Nat.find hstop)), probe_ends hpassed (fun n => ?_) (Nat.zero_add _) hlt⟩
    rw [gu_map_probe, if_pos hf]
  | false =>
    have heq : h.eq k (m.key h (m.slot h k (Nat.find hstop))) = true := by
      rcases Nat.find_spec hstop with hff | he
      · rw [hf] at hff
        cases hff
      · exact he
    refine ⟨(true, m.slot h k (Nat.find hstop)), probe_ends hpassed (fun n => ?_) (Nat.zero_add _) hlt⟩
    rw [gu_map_probe, hf, if_neg Bool.false_ne_true, if_pos heq]

end GuMap

end Libpgf
