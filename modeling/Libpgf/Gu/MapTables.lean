import Libpgf.Gu.MapTotal
/-!
# Tables that are never full

`Table` is what every call leaves behind: a table with a free slot, whose number
of entries is the one that is counted.
-/

namespace Libpgf

theorem GuHasher.equiv {K : Type} (h : GuHasher K) : Assoc.Equiv h.eq := ⟨h.eq_refl, h.eq_symm, h.eq_trans⟩

namespace GuMap
variable {K V : Type} {h : GuHasher K} {m m' : GuMap K V} {k k' : K} {v v' : V} {i j idx : Nat}

/-- The value of a new key. -/
def initial (m : GuMap K V) : V := m.default_value.getD m.zero_value

/-- What no call changes. -/
structure SameConfig (m m' : GuMap K V) : Prop where
  key_size : m'.key_size = m.key_size
  value_size : m'.value_size = m.value_size
  default_value : m'.default_value = m.default_value
  zero_value : m'.zero_value = m.zero_value

theorem SameConfig.refl (m : GuMap K V) : SameConfig m m := ⟨rfl, rfl, rfl, rfl⟩

theorem SameConfig.trans {m₁ : GuMap K V} (h₁ : SameConfig m m₁) (h₂ : SameConfig m₁ m') : SameConfig m m' :=
  ⟨h₂.key_size.trans h₁.key_size, h₂.value_size.trans h₁.value_size, h₂.default_value.trans h₁.default_value,
    h₂.zero_value.trans h₁.zero_value⟩

theorem SameConfig.initial (hs : SameConfig m m') : m'.initial = m.initial := by
  rw [GuMap.initial, GuMap.initial, hs.default_value, hs.zero_value]

theorem SameConfig.put (hs : SameConfig m m') (i : Nat) (v : V) : SameConfig m (m'.put i v) :=
  ⟨hs.key_size, hs.value_size, hs.default_value, hs.zero_value⟩

structure Table (h : GuHasher K) (m : GuMap K V) : Prop extends m.Valued h where
  twin : m.Sized
  least : 11 ≤ m.n_entries
  zero_key : ∀ i, m.zero_idx = some i → m.key h i = h.zero
  unset : m.default_value = none → ∀ i < m.n_entries, m.isFree h i = true → m.values[i]? = some m.zero_value
  occupied : m.n_occupied = (m.gu_map_iter h).length
  room : m.n_occupied < m.n_entries

/-! ## Entries -/

theorem Wf.distinct (hw : m.Wf h) : Assoc.Distinct h.eq (m.gu_map_iter h) := by
  refine List.pairwise_filterMap.2 (List.pairwise_lt_range.imp_of_mem fun {i j} hi hj hlt e he e' he' => ?_)
  obtain ⟨hui, rfl⟩ := entryAt_some.1 he
  obtain ⟨huj, rfl⟩ := entryAt_some.1 he'
  cases heq : h.eq (m.key h i) (m.key h j) with
  | false => rfl
  | true => exact absurd (hw.slot_unique ⟨List.mem_range.1 hi, hui⟩ ⟨List.mem_range.1 hj, huj⟩ heq) (Nat.ne_of_lt hlt)

theorem entry_none_iff : Assoc.entry h.eq (m.gu_map_iter h) k = none ↔ ¬ m.Has h k := by
  rw [Assoc.entry_none]
  constructor
  · rintro hall ⟨i, hu, he⟩
    rw [hall _ (mem_iter.2 ⟨i, hu, rfl⟩)] at he
    cases he
  · intro hnot e he
    obtain ⟨i, hu, rfl⟩ := mem_iter.1 he
    cases heq : h.eq k (m.key h i) with
    | false => rfl
    | true => exact absurd ⟨i, hu, heq⟩ hnot

/-- The entry that a lookup finds. -/
theorem Valued.entry_eq (hm : m.Valued h) (hu : m.Used h i) (he : h.eq k (m.key h i) = true) :
    Assoc.entry h.eq (m.gu_map_iter h) k = some (m.key h i, m.values.getD i m.zero_value) :=
  (hm.distinct.entry_iff h.equiv).2 ⟨mem_iter.2 ⟨i, hu, rfl⟩, he⟩

theorem iter_length : (m.gu_map_iter h).length = ((List.range m.n_entries).filter fun i => !m.isFree h i).length := by
  rw [iter_eq, List.length_map]

theorem Table.exists_free (hm : m.Table h) : ∃ i < m.n_entries, m.isFree h i = true := by
  have hlt : ((List.range m.n_entries).filter fun i => !m.isFree h i).length < (List.range m.n_entries).length := by
    rw [← iter_length, ← hm.occupied, List.length_range]
    exact hm.room
  obtain ⟨i, hi, hfree⟩ := List.length_filter_lt_length_iff_exists.1 hlt
  exact ⟨i, List.mem_range.1 hi, by simpa using hfree⟩

/-- What a lookup finds out. -/
theorem Table.lookup (hm : m.Table h) (k : K) :
    (∃ i, m.gu_map_lookup h k = .ok (true, i) ∧ m.Used h i ∧ h.eq k (m.key h i) = true) ∨
      ∃ i, m.gu_map_lookup h k = .ok (false, i) ∧ ¬ m.Has h k := by
  obtain ⟨j, hj, hfree⟩ := hm.exists_free
  have hprime : m.n_entries.Prime := hm.twin.1
  obtain ⟨⟨found, i⟩, hr⟩ := lookup_returns hprime (Nat.le_trans (by decide) hm.least) hj hfree k
  cases found with
  | true => exact .inl ⟨i, hr, lookup_found hr⟩
  | false => exact .inr ⟨i, hr, lookup_absent hm.toWf hr⟩

/-! ## Storing -/

theorem Table.store_cases (hm : m.Table h) (habs : ¬ m.Has h k) (hi : idx < m.n_entries) (hf : m.isFree h idx = true) :
    (k = h.zero ∧ m.zero_idx = none ∧ m.store h k idx = .ok { m.stored k idx with zero_idx := some idx }) ∨
      k ≠ h.zero ∧ m.store h k idx = .ok (m.stored k idx) := by
  have hz : m.zero_idx ≠ some idx := by
    intro hz
    rw [isFree, if_pos hz] at hf
    cases hf
  have hkey : (m.stored k idx).key h idx = k := by
    have hlen : idx < m.keys.length := hi
    simp [stored, key, List.getD, hlen]
  have hfree : (m.stored k idx).isFree h idx = h.isZero k := by
    have hz' : (m.stored k idx).zero_idx ≠ some idx := hz
    rw [isFree, if_neg hz', hkey]
  unfold store
  dsimp only
  rw [hfree]
  cases hzero : h.isZero k with
  | false =>
    refine .inr ⟨?_, rfl⟩
    rintro rfl
    rw [h.isZero_iff.2 rfl] at hzero
    cases hzero
  | true =>
    obtain rfl := h.isZero_iff.1 hzero
    have hnone : m.zero_idx = none := by
      cases hidx : m.zero_idx with
      | none => rfl
      | some i =>
        refine absurd ⟨i, ⟨hm.zero_lt i hidx, ?_⟩, ?_⟩ habs
        · rw [isFree, if_pos hidx]
        · rw [hm.zero_key i hidx]
          exact h.eq_refl _
    refine .inl ⟨rfl, hnone, ?_⟩
    have hnone' : (m.stored h.zero idx).zero_idx = none := hnone
    rw [if_pos rfl, (Exec.require_ok (u := ())).2 hnone']
    rfl

/-- What an insertion of a new key has done. -/
structure Added (h : GuHasher K) (m : GuMap K V) (k : K) (r : GuMap K V × Nat) : Prop where
  table : r.1.Table h
  same : SameConfig m r.1
  used : r.1.Used h r.2
  key : h.eq k (r.1.key h r.2) = true
  entries : (r.1.gu_map_iter h).Perm ((k, m.initial) :: m.gu_map_iter h)

theorem Table.store_returns (hm : m.Table h) (hroom : m.n_occupied + 1 < m.n_entries) (hl : m.gu_map_lookup h k = .ok (false, idx)) :
    ∃ m', m.store h k idx = .ok m' ∧ m'.n_entries = m.n_entries ∧ Added h m k (m', idx) := by
  obtain ⟨-, -, -, hi, hfree, -⟩ := lookup_spec hl
  have hf : m.isFree h idx = true := hfree
  have habs := lookup_absent hm.toWf hl
  have hlen : idx < m.values.length := hm.length.symm ▸ hi
  have hstored : ∃ m', m.store h k idx = .ok m' ∧ m'.n_occupied = m.n_occupied + 1 ∧ SameConfig m m' ∧
      ∀ i, m'.zero_idx = some i → m.zero_idx = some i ∨ i = idx ∧ k = h.zero := by
    rcases hm.store_cases habs hi hf with ⟨hk, -, hs⟩ | ⟨-, hs⟩
    · exact ⟨_, hs, rfl, ⟨rfl, rfl, rfl, rfl⟩, fun i hz => .inr ⟨(Option.some.inj hz).symm, hk⟩⟩
    · exact ⟨_, hs, rfl, ⟨rfl, rfl, rfl, rfl⟩, fun i hz => .inl hz⟩
  obtain ⟨m', hs, hocc, hsame, hzero⟩ := hstored
  obtain ⟨hn, hkey, hused, hother, -⟩ := store_spec hi hf hs
  obtain ⟨hvalues, -⟩ := store_values hs
  have hat := store_at hm.toValued hl hs
  have hself : m'.values.getD idx m'.zero_value = m.initial := by
    rw [hvalues, hsame.zero_value, stored, GuMap.initial]
    cases hd : m.default_value with
    | some d => simp [List.getD, hlen]
    | none => simp [List.getD, hm.unset hd idx hi hf]
  have hvalue : ∀ j ≠ idx, m'.values[j]? = m.values[j]? := by
    intro j hj
    rw [hvalues, stored]
    cases m.default_value with
    | none => rfl
    | some d => exact List.getElem?_set_ne (Ne.symm hj)
  have hnew : m'.entryAt h idx = some (k, m.initial) := by
    rw [entryAt_some]
    exact ⟨hused, by rw [hkey, hself]⟩
  have hsameAt : ∀ j ≠ idx, m'.entryAt h j = m.entryAt h j := by
    intro j hj
    unfold entryAt
    rw [(hother j hj).1, (hother j hj).2, List.getD, List.getD, hvalue j hj, hsame.zero_value]
  have hentries : (m'.gu_map_iter h).Perm ((k, m.initial) :: m.gu_map_iter h) := by
    unfold gu_map_iter
    rw [hn]
    exact filterMap_insert List.nodup_range (List.mem_range.2 hi) (by rw [entryAt, if_pos hf]) hnew hsameAt
  refine ⟨m', hs, hn, { hat.valued with twin := ?_, least := ?_, zero_key := ?_, unset := ?_, occupied := ?_, room := ?_ },
    hsame, hat.used, hat.key, hentries⟩
  · rw [Sized, hn]
    exact hm.twin
  · rw [hn]
    exact hm.least
  · intro i hz
    rcases hzero i hz with hold | ⟨rfl, hk⟩
    · have hne : i ≠ idx := by
        rintro rfl
        rw [isFree, if_pos hold] at hf
        cases hf
      rw [(hother i hne).1]
      exact hm.zero_key i hold
    · rw [hkey, hk]
  · intro hd j hj hfree
    have hne : j ≠ idx := by
      rintro rfl
      rw [hused] at hfree
      cases hfree
    rw [hvalue j hne, hsame.zero_value]
    exact hm.unset (hsame.default_value ▸ hd) j (hn ▸ hj) (by rw [← (hother j hne).2]; exact hfree)
  · rw [hocc, hentries.length_eq, List.length_cons, hm.occupied]
  · rw [hocc, hn]
    exact hroom

/-- A value is written through the pointer to it. -/
theorem Table.put_table (hm : m.Table h) (hu : m.Used h idx) (he : h.eq k (m.key h idx) = true) (v : V) :
    (m.put idx v).Table h ∧ (m.put idx v).gu_map_iter h = Assoc.write h.eq (m.gu_map_iter h) k v := by
  have hlen : idx < m.values.length := hm.length.symm ▸ hu.1
  have hwrite : (m.put idx v).gu_map_iter h = Assoc.write h.eq (m.gu_map_iter h) k v := by
    rw [Assoc.write, gu_map_iter, gu_map_iter, List.map_filterMap]
    refine List.filterMap_congr fun j hj => ?_
    have hfree : (m.put idx v).isFree h j = m.isFree h j := rfl
    have hkey : (m.put idx v).key h j = m.key h j := rfl
    unfold entryAt
    rw [hfree, hkey]
    cases hf : m.isFree h j with
    | true => rfl
    | false =>
      by_cases hji : j = idx
      · subst hji
        simp [he, put, List.getD, hlen]
      · have hne : h.eq k (m.key h j) = false := by
          cases heq : h.eq k (m.key h j) with
          | false => rfl
          | true => exact absurd (hm.slot_unique ⟨List.mem_range.1 hj, hf⟩ hu (h.eq_trans (h.eq_symm heq) he)) hji
        simp [hne, put, List.getD, List.getElem?_set_ne (Ne.symm hji)]
  refine ⟨{ hm.toValued.put idx v with
    twin := hm.twin
    least := hm.least
    zero_key := hm.zero_key
    unset := ?_
    occupied := ?_
    room := hm.room }, hwrite⟩
  · intro hd j hj hfree
    have hne : idx ≠ j := by
      rintro rfl
      have hused : m.isFree h idx = true := hfree
      rw [hu.2] at hused
      cases hused
    exact (List.getElem?_set_ne hne).trans (hm.unset hd j hj hfree)
  · rw [hwrite, Assoc.length_write]
    exact hm.occupied

/-! ## Sizes -/

/-- The number of slots that a new table has to have. -/
def required (m : GuMap K V) : Nat := max 11 (m.n_occupied * 4 / 3 + 1)

/-- A new table can be made for the entries: buffers for as many slots as the twin prime above the number of slots it has to have
can be asked for, and the room in them is in the range of the searches for primes. -/
def Extensible (m : GuMap K V) : Prop :=
  ∃ q : Int, IsLeast {q | TwinPrime q ∧ (m.required : Int) ≤ q} q ∧ ∃ room, m.roomFor q.toNat = .ok room ∧ q ≤ room ∧ Searchable room

theorem intOf_of_lt {n : Nat} (h : n < 2 ^ 31) : intOf n = n := Int.bmod_eq_of_le (by omega) (by omega)

theorem resizedEntries_returns (hx : m.Extensible) : ∃ n : Nat, m.resizedEntries = .ok n ∧ TwinPrime n ∧ m.required ≤ n := by
  obtain ⟨q, hq, room, hroom, hqr, hmax⟩ := hx
  have hlt := hmax.1
  have hle : (m.required : Int) ≤ q := hq.1.2
  obtain ⟨p, hp⟩ := twin_prime_inf_loop_returns (n := intSteps) hmax (by decide) (by unfold intSteps; omega)
  have hgreatest : IsGreatest {x | TwinPrime x ∧ x ≤ (room : Int)} p := by
    rcases twin_prime_inf_loop_spec hp with hg | ⟨-, hnone⟩
    · exact hg
    · exact absurd hq.1.1 (hnone q hqr)
  have hpq : q ≤ p := hgreatest.2 ⟨hq.1.1, hqr⟩
  have hnonneg : 0 ≤ p := by omega
  refine ⟨p.toNat, ?_, by rw [Int.toNat_of_nonneg hnonneg]; exact hgreatest.1.1, by omega⟩
  have hfirst : gu_twin_prime_sup (intOf m.required) = .ok q := by
    rw [intOf_of_lt (by omega)]
    obtain ⟨p', hp', hleast⟩ := twin_prime_sup_spec hq.1.1 hle (hmax.mono hqr)
    rw [hp', hleast.unique hq]
  unfold resizedEntries
  unfold required at hfirst
  rw [hfirst, Exec.ok_bind, hroom, Exec.ok_bind, intOf_of_lt (by omega)]
  have hlast : gu_twin_prime_inf room = .ok p := hp
  rw [hlast]
  rfl

end GuMap

end Libpgf
