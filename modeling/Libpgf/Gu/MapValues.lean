import Libpgf.Gu.MapLaws
/-!
# The values of a hash map

A map with values is a finite function. An insertion gives a new key the default
value and keeps the value of every other key, and a resize keeps all values.
-/

namespace Libpgf

namespace GuMap
variable {K V : Type} {h : GuHasher K} {m m' : GuMap K V} {k k' : K} {v v' : V} {i j idx : Nat}

/-- Keys equal to `k` have the value `v`. -/
def At (h : GuHasher K) (m : GuMap K V) (k : K) (v : V) : Prop :=
  ∃ i, m.Used h i ∧ h.eq k (m.key h i) = true ∧ m.values[i]? = some v

/-- A well-formed table with room for a value in each slot. -/
structure Valued (h : GuHasher K) (m : GuMap K V) : Prop extends m.Wf h where
  length : m.values.length = m.n_entries

/-- Two slots in use hold different keys. -/
theorem Wf.slot_unique (hw : m.Wf h) (hi : m.Used h i) (hj : m.Used h j) (he : h.eq (m.key h i) (m.key h j) = true) :
    i = j := by
  obtain ⟨t, hs, hp⟩ := hw.path i hi
  obtain ⟨t', hs', hp'⟩ := hw.path j hj
  rw [slot_congr (h.eq_symm he)] at hs'
  rcases Nat.lt_trichotomy t t' with hlt | rfl | hlt
  · have := (passed_congr (h.eq_symm he) hp' t hlt).2
    rw [hs, h.eq_refl] at this
    cases this
  · exact hs.symm.trans hs'
  · have := (hp t' hlt).2
    rw [hs', he] at this
    cases this

theorem at_congr (he : h.eq k k' = true) : m.At h k v ↔ m.At h k' v := by
  unfold At
  simp only [eq_left_congr he]

theorem Valued.unique (hm : m.Valued h) (hv : m.At h k v) (hv' : m.At h k v') : v = v' := by
  obtain ⟨i, hi, he, hvi⟩ := hv
  obtain ⟨j, hj, he', hvj⟩ := hv'
  obtain rfl := hm.slot_unique hi hj (h.eq_trans (h.eq_symm he) he')
  exact Option.some.inj (hvi.symm.trans hvj)

theorem Valued.has_iff (hm : m.Valued h) : m.Has h k ↔ ∃ v, m.At h k v := by
  constructor
  · rintro ⟨i, hi, he⟩
    have hlt : i < m.values.length := hm.length.symm ▸ hi.1
    exact ⟨_, i, hi, he, List.getElem?_eq_getElem hlt⟩
  · rintro ⟨v, i, hi, he, -⟩
    exact ⟨i, hi, he⟩

/-- The value in the slot of a key. -/
theorem Valued.at_slot (hm : m.Valued h) (hi : m.Used h i) (he : h.eq k (m.key h i) = true) :
    m.At h k v ↔ m.values[i]? = some v := by
  constructor
  · rintro ⟨j, hj, he', hv⟩
    obtain rfl := hm.slot_unique hi hj (h.eq_trans (h.eq_symm he) he')
    exact hv
  · exact fun hv => ⟨i, hi, he, hv⟩

/-! ## Storing a value -/

/-- Writes through the pointer that `gu_map_insert` returns. -/
def put (m : GuMap K V) (i : Nat) (v : V) : GuMap K V := { m with values := m.values.set i v }

theorem Valued.put (hm : m.Valued h) (i : Nat) (v : V) : (m.put i v).Valued h where
  zero_lt := hm.zero_lt
  path := hm.path
  length := (List.length_set).trans hm.length

theorem Valued.put_at (hm : m.Valued h) (hi : m.Used h i) (he : h.eq k (m.key h i) = true) (v : V) :
    (m.put i v).At h k v := by
  refine ⟨i, hi, he, ?_⟩
  have hlt : i < m.values.length := hm.length.symm ▸ hi.1
  exact List.getElem?_set_self hlt

theorem put_other (he : h.eq k (m.key h i) = true) (hne : h.eq k' k = false) :
    (m.put i v).At h k' v' ↔ m.At h k' v' := by
  have hdiff : ∀ j, h.eq k' (m.key h j) = true → i ≠ j := by
    rintro j he' rfl
    rw [h.eq_trans he' (h.eq_symm he)] at hne
    cases hne
  constructor
  · rintro ⟨j, hj, he', hv⟩
    exact ⟨j, hj, he', by rw [← hv]; exact (List.getElem?_set_ne (hdiff j he')).symm⟩
  · rintro ⟨j, hj, he', hv⟩
    exact ⟨j, hj, he', by rw [← hv]; exact List.getElem?_set_ne (hdiff j he')⟩

/-! ## Insertion -/

/-- What an insertion that returns has done. -/
structure InsertedAt (h : GuHasher K) (m : GuMap K V) (k : K) (r : GuMap K V × Nat) : Prop where
  valued : r.1.Valued h
  used : r.1.Used h r.2
  key : h.eq k (r.1.key h r.2) = true
  default_value : r.1.default_value = m.default_value
  old : ∀ v, m.At h k v → r.1.At h k v
  new : ¬ m.Has h k → ∀ v, m.default_value = some v → r.1.At h k v
  other : ∀ k' v, h.eq k' k = false → (r.1.At h k' v ↔ m.At h k' v)

theorem store_values (hs : m.store h k idx = .ok m') : m'.values = (m.stored k idx).values ∧
    m'.default_value = m.default_value := by
  unfold store at hs
  simp only at hs
  split at hs
  · obtain ⟨_, -, hs⟩ := Exec.bind_ok.1 hs
    simp only [Exec.pure_eq, Except.ok.injEq] at hs
    subst hs
    exact ⟨rfl, rfl⟩
  · simp only [Exec.pure_eq, Except.ok.injEq] at hs
    subst hs
    exact ⟨rfl, rfl⟩

/-- Storing an absent key where its lookup ended. -/
theorem store_at (hm : m.Valued h) (hl : m.gu_map_lookup h k = .ok (false, idx)) (hs : m.store h k idx = .ok m') :
    InsertedAt h m k (m', idx) := by
  obtain ⟨t, ht, hp, hi, hf, -⟩ := lookup_spec hl
  have habs := lookup_absent hm.toWf hl
  obtain ⟨hw, hu, hk, -⟩ := store_wf hm.toWf hi hf ht hp hs
  obtain ⟨hn, -, -, ho, -⟩ := store_spec hi hf hs
  obtain ⟨hv, hd⟩ := store_values hs
  have hlen : m'.values.length = m'.n_entries := by
    rw [hv, hn, ← hm.length]
    unfold stored
    cases m.default_value <;> simp
  have hother : ∀ j ≠ idx, m'.values[j]? = m.values[j]? := by
    intro j hj
    rw [hv]
    unfold stored
    cases m.default_value with
    | none => rfl
    | some d => exact List.getElem?_set_ne (Ne.symm hj)
  refine ⟨{ hw with length := hlen }, hu, by rw [hk]; exact h.eq_refl k, hd, fun v hv => ?_, fun _ v hdv => ?_, fun k' v hne => ?_⟩
  · exact absurd (hm.has_iff.2 ⟨v, hv⟩) habs
  · refine ⟨idx, hu, by rw [hk]; exact h.eq_refl k, ?_⟩
    rw [hv]
    unfold stored
    rw [hdv]
    exact List.getElem?_set_self (hm.length.symm ▸ hi)
  · have hne' : ∀ j, m'.Used h j → h.eq k' (m'.key h j) = true → j ≠ idx := by
      rintro j - he rfl
      rw [hk, hne] at he
      cases he
    have hused : ∀ {j}, j ≠ idx → (m'.Used h j ↔ m.Used h j) := fun {j} hj => by simp only [Used, hn, (ho j hj).2]
    constructor
    · rintro ⟨j, hj, he, hvj⟩
      have hj' := hne' j hj he
      exact ⟨j, (hused hj').1 hj, by rw [← (ho j hj').1]; exact he, by rw [← hother j hj']; exact hvj⟩
    · rintro ⟨j, hj, he, hvj⟩
      have hj' : j ≠ idx := by
        rintro rfl
        simp [Used, hf] at hj
      exact ⟨j, (hused hj').2 hj, by rw [(ho j hj').1]; exact he, by rw [hother j hj']; exact hvj⟩

theorem cleared_valued (m : GuMap K V) (n : Nat) : (m.cleared h n).Valued h :=
  { cleared_wf n with length := by simp [cleared, n_entries] }

/-- The old entries are in the new table, each with its value. -/
theorem resize_at {insert : GuMap K V → K → Exec (GuMap K V × Nat)} (hm : m.Valued h)
    (hins : ∀ m k r, m.Valued h → insert m k = .ok r → InsertedAt h m k r) (hr : m.gu_map_resize h insert = .ok m') :
    m'.Valued h ∧ m'.default_value = m.default_value ∧ ∀ k v, m'.At h k v ↔ m.At h k v := by
  unfold gu_map_resize at hr
  obtain ⟨n, -, hr⟩ := Exec.bind_ok.1 hr
  obtain ⟨_, -, hr⟩ := Exec.bind_ok.1 hr
  -- after `i` rounds the new table holds the entries of the first `i` slots
  have main := forEach_range (P := fun i m' => m'.Valued h ∧ m'.default_value = m.default_value ∧
      ∀ k v, m'.At h k v ↔ ∃ j < i, m.Used h j ∧ h.eq k (m.key h j) = true ∧ m.values[j]? = some v) ?_ ?_ hr
  · refine ⟨main.1, main.2.1, fun k v => (main.2.2 k v).trans ⟨?_, ?_⟩⟩
    · rintro ⟨j, -, hu, he, hv⟩
      exact ⟨j, hu, he, hv⟩
    · rintro ⟨j, hu, he, hv⟩
      exact ⟨j, hu.1, hu, he, hv⟩
  · intro i s s' hi ⟨hs, hd, hat⟩ hre
    unfold reinsert at hre
    split at hre
    · rename_i hfree
      simp only [Exec.pure_eq, Except.ok.injEq] at hre
      subst hre
      refine ⟨hs, hd, fun k v => (hat k v).trans ⟨?_, ?_⟩⟩
      · rintro ⟨j, hj, hu⟩
        exact ⟨j, by omega, hu⟩
      · rintro ⟨j, hj, hu, hv⟩
        rcases Nat.lt_succ_iff_lt_or_eq.1 hj with hj | rfl
        · exact ⟨j, hj, hu, hv⟩
        · simp [Used, hfree] at hu
    · rename_i hfree
      obtain ⟨⟨m₁, idx⟩, h₁, hre⟩ := Exec.bind_ok.1 hre
      simp only [Exec.pure_eq, Except.ok.injEq] at hre
      subst hre
      have hi' : m.Used h i := ⟨hi, by simpa using hfree⟩
      have hlt : i < m.values.length := hm.length.symm ▸ hi
      have hvi : m.values[i]? = some (m.values.getD i m.zero_value) := by
        simp [List.getD, List.getElem?_eq_getElem hlt]
      have hin := hins _ _ _ hs h₁
      have hput := hin.valued.put idx (m.values.getD i m.zero_value)
      have hself := hin.valued.put_at hin.used hin.key (m.values.getD i m.zero_value)
      refine ⟨hput, hin.default_value.trans hd, fun k v => ?_⟩
      show (m₁.put idx _).At h k v ↔ _
      cases hk : h.eq k (m.key h i) with
      | true =>
        rw [at_congr hk]
        constructor
        · intro hv
          obtain rfl := hput.unique hv hself
          exact ⟨i, Nat.lt_succ_self i, hi', hk, hvi⟩
        · rintro ⟨j, -, hu, he, hv⟩
          obtain rfl := hm.slot_unique hi' hu (h.eq_trans (h.eq_symm hk) he)
          rw [hvi, Option.some.injEq] at hv
          exact hv ▸ hself
      | false =>
        rw [put_other hin.key hk, hin.other k v hk, hat]
        constructor
        · rintro ⟨j, hj, hu⟩
          exact ⟨j, by omega, hu⟩
        · rintro ⟨j, hj, hu, he, hv⟩
          rcases Nat.lt_succ_iff_lt_or_eq.1 hj with hj | rfl
          · exact ⟨j, hj, hu, he, hv⟩
          · rw [hk] at he
            cases he
  · refine ⟨cleared_valued m n, rfl, fun k v => ?_⟩
    constructor
    · rintro ⟨i, hu, -⟩
      exact absurd hu (cleared_unused n i)
    · rintro ⟨j, hj, -⟩
      exact absurd hj (Nat.not_lt_zero j)

theorem insert_at_values : ∀ (depth : Nat) (m : GuMap K V) (k : K) (r : GuMap K V × Nat), m.Valued h →
    m.gu_map_insert_at h depth k = .ok r → InsertedAt h m k r := by
  intro depth
  induction depth with
  | zero =>
    intro m k r _ hr
    simp [gu_map_insert_at] at hr
  | succ depth ih =>
    intro m k r hm hr
    unfold gu_map_insert_at at hr
    obtain ⟨⟨found, i⟩, hl, hr⟩ := Exec.bind_ok.1 hr
    cases found with
    | true =>
      simp only [if_true, Exec.pure_eq, Except.ok.injEq] at hr
      subst hr
      obtain ⟨hu, he⟩ := lookup_found hl
      exact ⟨hm, hu, he, rfl, fun _ hv => hv, fun hn => absurd ⟨i, hu, he⟩ hn, fun _ _ _ => .rfl⟩
    | false =>
      simp only [Bool.false_eq_true, if_false] at hr
      split at hr
      · obtain ⟨m₁, hz, hr⟩ := Exec.bind_ok.1 hr
        obtain ⟨⟨found, i⟩, hl', hr⟩ := Exec.bind_ok.1 hr
        obtain ⟨_, hreq, hr⟩ := Exec.bind_ok.1 hr
        obtain ⟨m₂, hs, he⟩ := Exec.bind_ok.1 hr
        simp only [Exec.require_ok, Exec.pure_eq, Except.ok.injEq] at hreq he
        subst hreq
        subst he
        obtain ⟨hm₁, hd₁, hat₁⟩ := resize_at hm ih hz
        obtain ⟨hv, hu, hk, hd, hold, hnew, hother⟩ := store_at hm₁ hl' hs
        refine ⟨hv, hu, hk, hd.trans hd₁, fun v h => hold v ((hat₁ k v).2 h), fun hn v hdv => ?_, fun k' v hne => ?_⟩
        · refine hnew (fun hh => hn ?_) v (hd₁.trans hdv)
          obtain ⟨v', hv'⟩ := hm₁.has_iff.1 hh
          exact hm.has_iff.2 ⟨v', (hat₁ k v').1 hv'⟩
        · rw [hother k' v hne, hat₁]
      · obtain ⟨m₂, hs, hr⟩ := Exec.bind_ok.1 hr
        simp only [Exec.pure_eq, Except.ok.injEq] at hr
        subst hr
        exact store_at hm hl hs

theorem insert_values {r : GuMap K V × Nat} (hm : m.Valued h) (hr : m.gu_map_insert h k = .ok r) : InsertedAt h m k r :=
  insert_at_values 3 m k r hm hr

/-- A new map is empty. -/
theorem make_values {ks vs : Nat} {dv : Option V} {zv : V} (hr : gu_make_map h ks vs dv zv = .ok m) :
    m.Valued h ∧ m.default_value = dv ∧ ∀ k v, ¬ m.At h k v := by
  have hnone : ∀ i, ¬ i < ([] : List K).length := fun i => Nat.not_lt_zero i
  have hm₀ : Valued h (⟨ks, vs, dv, zv, [], [], 0, none⟩ : GuMap K V) := by
    refine ⟨⟨fun i hz => ?_, fun i hu => absurd hu.1 (hnone i)⟩, rfl⟩
    cases hz
  obtain ⟨hm, hd, hat⟩ := resize_at hm₀ (insert_at_values 3) hr
  refine ⟨hm, hd, fun k v hv => ?_⟩
  obtain ⟨i, hi, -⟩ := (hat k v).1 hv
  exact hnone i hi.1

/-! ## Lookup -/

/-- `gu_map_find`: the value of a key, if it has one. -/
def gu_map_find (h : GuHasher K) (m : GuMap K V) (k : K) : Exec (Option V) := do
  let (found, i) ← m.gu_map_lookup h k
  return if found then m.values[i]? else none

theorem find_iff {o : Option V} (hm : m.Valued h) (hr : m.gu_map_find h k = .ok o) (v : V) : o = some v ↔ m.At h k v := by
  obtain ⟨⟨found, i⟩, hl, hr⟩ := Exec.bind_ok.1 hr
  simp only [Exec.pure_eq, Except.ok.injEq] at hr
  subst hr
  cases found with
  | true =>
    obtain ⟨hu, he⟩ := lookup_found hl
    exact (hm.at_slot hu he).symm
  | false =>
    constructor
    · intro h
      cases h
    · exact fun hv => absurd (hm.has_iff.2 ⟨v, hv⟩) (lookup_absent hm.toWf hl)

/-- From `d` slots before the key on, the probe loop comes to it. -/
theorem probe_found {t : Nat} (hu : m.Used h (m.slot h k t)) (he : h.eq k (m.key h (m.slot h k t)) = true)
    (hp : m.Passed h k t) : ∀ {d n s : Nat}, s + d = t → d < n →
    m.gu_map_probe h k (h.hash k % (m.n_entries - 2) + 1) n (m.slot h k s) = .ok (true, m.slot h k t) := by
  intro d
  induction d with
  | zero =>
    intro n s hs hn
    obtain ⟨n, rfl⟩ := Nat.exists_eq_succ_of_ne_zero (Nat.ne_of_gt hn)
    obtain rfl : s = t := hs
    simp [gu_map_probe, hu.2, he]
  | succ d ih =>
    intro n s hs hn
    obtain ⟨n, rfl⟩ := Nat.exists_eq_succ_of_ne_zero (Nat.ne_of_gt (Nat.lt_of_le_of_lt (Nat.zero_le _) hn))
    obtain ⟨hus, hes⟩ := hp s (by omega)
    simp only [gu_map_probe, hus.2, hes, Bool.false_eq_true, if_false]
    rw [slot_succ]
    exact ih (by omega) (by omega)

/-- The probe sequence comes back to its start after a round. -/
theorem slot_round (t : Nat) : m.slot h k (t + m.n_entries) = m.slot h k t := by
  simp only [slot, Nat.add_mul, ← Nat.add_assoc, Nat.add_mul_mod_self_left]

/-- A probe sequence passes no slot twice before it comes to its key. -/
theorem Wf.path_lt (hw : m.Wf h) (hi : m.Used h i) :
    ∃ t < m.n_entries, m.slot h (m.key h i) t = i ∧ m.Passed h (m.key h i) t := by
  obtain ⟨t, hs, hp⟩ := hw.path i hi
  refine ⟨t, ?_, hs, hp⟩
  by_contra hlt
  have hn : 0 < m.n_entries := Nat.lt_of_le_of_lt (Nat.zero_le _) hi.1
  have hround := slot_round (h := h) (m := m) (k := m.key h i) (t - m.n_entries)
  rw [Nat.sub_add_cancel (Nat.le_of_not_lt hlt), hs] at hround
  have := (hp (t - m.n_entries) (by omega)).2
  rw [← hround, h.eq_refl] at this
  cases this

/-- A key that the map has is found. -/
theorem Valued.find_at (hm : m.Valued h) (hv : m.At h k v) : m.gu_map_find h k = .ok (some v) := by
  obtain ⟨i, hi, he, hvi⟩ := hv
  obtain ⟨t, ht, hs, hp⟩ := hm.path_lt hi
  rw [← slot_congr he] at hs
  have hf := probe_found (hs ▸ hi) (hs ▸ he) (passed_congr (h.eq_symm he) hp) (Nat.zero_add t) ht
  rw [hs, slot_zero] at hf
  have hl : m.gu_map_lookup h k = .ok (true, i) := hf
  unfold gu_map_find
  rw [hl]
  exact congrArg Except.ok hvi

end GuMap

end Libpgf
