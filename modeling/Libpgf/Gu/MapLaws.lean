import Libpgf.Gu.Map
/-!
# What a hash map holds

`Wf` is the table's invariant: every key in use is on its own probe sequence,
behind slots in use by other keys. Lookups then decide membership, an insertion
adds its key and keeps all others, and a resize keeps the contents.

The results are about calls that return. `GuSet` packs a table without values
with its invariant.
-/

namespace Libpgf

namespace GuMap
variable {K V : Type} {h : GuHasher K} {m : GuMap K V} {k k' : K} {i j idx : Nat}

/-- The `t`-th slot that a lookup of `k` looks at. -/
def slot (h : GuHasher K) (m : GuMap K V) (k : K) (t : Nat) : Nat :=
  (h.hash k % m.n_entries + t * (h.hash k % (m.n_entries - 2) + 1)) % m.n_entries

/-- The slot holds a key. -/
def Used (h : GuHasher K) (m : GuMap K V) (i : Nat) : Prop := i < m.n_entries ∧ m.isFree h i = false

/-- The first `t` slots of the probe sequence of `k` hold other keys. -/
def Passed (h : GuHasher K) (m : GuMap K V) (k : K) (t : Nat) : Prop :=
  ∀ t' < t, m.Used h (m.slot h k t') ∧ h.eq k (m.key h (m.slot h k t')) = false

structure Wf (h : GuHasher K) (m : GuMap K V) : Prop where
  zero_lt : ∀ i, m.zero_idx = some i → i < m.n_entries
  path : ∀ i, m.Used h i → ∃ t, m.slot h (m.key h i) t = i ∧ m.Passed h (m.key h i) t

/-- The map has a key equal to `k`. -/
def Has (h : GuHasher K) (m : GuMap K V) (k : K) : Prop := ∃ i, m.Used h i ∧ h.eq k (m.key h i) = true

/-! ## Probe sequences -/

theorem slot_zero : m.slot h k 0 = h.hash k % m.n_entries := by simp [slot]

theorem slot_succ (t : Nat) :
    (m.slot h k t + (h.hash k % (m.n_entries - 2) + 1)) % m.n_entries = m.slot h k (t + 1) := by
  simp only [slot, Nat.mod_add_mod]
  congr 1
  rw [Nat.add_assoc, Nat.succ_mul]

theorem slot_lt (hn : 0 < m.n_entries) (t : Nat) : m.slot h k t < m.n_entries := Nat.mod_lt _ hn

theorem slot_congr (he : h.eq k k' = true) (t : Nat) : m.slot h k t = m.slot h k' t := by
  simp only [slot, h.hash_eq he]

theorem eq_left_congr {c : K} (he : h.eq k k' = true) : h.eq k c = h.eq k' c := by
  rw [Bool.eq_iff_iff]
  exact ⟨fun hc => h.eq_trans (h.eq_symm he) hc, fun hc => h.eq_trans he hc⟩

theorem passed_congr (he : h.eq k k' = true) {t : Nat} (hp : m.Passed h k t) : m.Passed h k' t := by
  intro t' ht
  rw [← slot_congr he, ← eq_left_congr he]
  exact hp t' ht

/-- What a probe loop that returns has seen. -/
theorem probe_spec {b : Bool} (hn : 0 < m.n_entries) :
    ∀ {n t : Nat}, m.Passed h k t →
      m.gu_map_probe h k (h.hash k % (m.n_entries - 2) + 1) n (m.slot h k t) = .ok (b, i) →
      ∃ t', m.slot h k t' = i ∧ m.Passed h k t' ∧ m.isFree h i = !b ∧ (b = true → h.eq k (m.key h i) = true) := by
  intro n
  induction n with
  | zero => intro t _ hr; simp [gu_map_probe] at hr
  | succ n ih =>
    intro t hp hr
    unfold gu_map_probe at hr
    split at hr
    · rename_i hfree
      simp only [Except.ok.injEq, Prod.mk.injEq] at hr
      obtain ⟨rfl, rfl⟩ := hr
      exact ⟨t, rfl, hp, by simpa using hfree, by simp⟩
    · rename_i hfree
      split at hr
      · rename_i heq
        simp only [Except.ok.injEq, Prod.mk.injEq] at hr
        obtain ⟨rfl, rfl⟩ := hr
        exact ⟨t, rfl, hp, by simpa using hfree, fun _ => heq⟩
      · rename_i heq
        rw [slot_succ] at hr
        refine ih (fun t' ht => ?_) hr
        rcases Nat.lt_succ_iff_lt_or_eq.1 ht with ht | rfl
        · exact hp t' ht
        · exact ⟨⟨slot_lt hn _, by simpa using hfree⟩, by simpa using heq⟩

theorem lookup_pos {r : Bool × Nat} (hr : m.gu_map_lookup h k = .ok r) : 0 < m.n_entries := by
  rcases Nat.eq_zero_or_pos m.n_entries with h0 | h0
  · simp [gu_map_lookup, h0, gu_map_probe] at hr
  · exact h0

theorem lookup_spec {b : Bool} (hr : m.gu_map_lookup h k = .ok (b, i)) :
    ∃ t, m.slot h k t = i ∧ m.Passed h k t ∧ i < m.n_entries ∧ m.isFree h i = !b ∧
      (b = true → h.eq k (m.key h i) = true) := by
  have hn := lookup_pos hr
  unfold gu_map_lookup at hr
  rw [← slot_zero] at hr
  obtain ⟨t, hs, hp, hf, he⟩ := probe_spec hn (fun t' ht => absurd ht (Nat.not_lt_zero _)) hr
  exact ⟨t, hs, hp, hs ▸ slot_lt hn t, hf, he⟩

theorem lookup_found (hr : m.gu_map_lookup h k = .ok (true, i)) : m.Used h i ∧ h.eq k (m.key h i) = true := by
  obtain ⟨-, -, -, hi, hf, he⟩ := lookup_spec hr
  exact ⟨⟨hi, hf⟩, he rfl⟩

/-- A lookup that ends at a free slot has passed every slot where the key could be. -/
theorem lookup_absent (hw : m.Wf h) (hr : m.gu_map_lookup h k = .ok (false, i)) : ¬ m.Has h k := by
  rintro ⟨j, hj, he⟩
  obtain ⟨t, hs, hp, -, hf, -⟩ := lookup_spec hr
  obtain ⟨tj, hsj, hpj⟩ := hw.path j hj
  rw [slot_congr (h.eq_symm he)] at hsj
  have hpj := passed_congr (h.eq_symm he) hpj
  rcases Nat.lt_trichotomy t tj with ht | ht | ht
  · have hu := (hpj t ht).1.2
    rw [hs, hf] at hu
    simp at hu
  · subst ht
    rw [← hsj, hs] at hj
    simp [Used, hf] at hj
  · have hne := (hp tj ht).2
    rw [hsj, he] at hne
    cases hne

theorem lookup_iff {b : Bool} (hw : m.Wf h) (hr : m.gu_map_lookup h k = .ok (b, i)) : b = true ↔ m.Has h k := by
  cases b with
  | false => simp [lookup_absent hw hr]
  | true => simpa using ⟨i, lookup_found hr⟩

/-! ## Insertion -/

theorem store_spec {m' : GuMap K V} (hi : idx < m.n_entries) (hf : m.isFree h idx = true)
    (hs : m.store h k idx = .ok m') :
    m'.n_entries = m.n_entries ∧ m'.key h idx = k ∧ m'.isFree h idx = false ∧
      (∀ j ≠ idx, m'.key h j = m.key h j ∧ m'.isFree h j = m.isFree h j) ∧
      (m'.zero_idx = m.zero_idx ∨ m'.zero_idx = some idx) := by
  have hz : m.zero_idx ≠ some idx := fun hz => by simp [isFree, hz] at hf
  have hlen : idx < m.keys.length := hi
  have hkey : (m.stored k idx).key h idx = k := by simp [stored, key, List.getD, hlen]
  have hother : ∀ j ≠ idx, (m.stored k idx).key h j = m.key h j := by
    intro j hj
    simp [stored, key, List.getD, List.getElem?_set_ne (Ne.symm hj)]
  unfold store at hs
  simp only at hs
  split at hs
  · rename_i hfree
    obtain ⟨_, hreq, hs⟩ := Exec.bind_ok.1 hs
    simp only [Exec.require_ok] at hreq
    simp only [Exec.pure_eq, Except.ok.injEq] at hs
    subst hs
    refine ⟨by simp [n_entries, stored], hkey, by simp [isFree], fun j hj => ⟨hother j hj, ?_⟩, .inr rfl⟩
    have hz0 : m.zero_idx = none := hreq
    have hk : ({ m.stored k idx with zero_idx := some idx } : GuMap K V).key h j = m.key h j := hother j hj
    simp [isFree, hk, hz0, Ne.symm hj]
  · rename_i hfree
    simp only [Exec.pure_eq, Except.ok.injEq] at hs
    subst hs
    refine ⟨by simp [n_entries, stored], hkey, by simpa using hfree, fun j hj => ⟨hother j hj, ?_⟩, .inl rfl⟩
    simp only [isFree, hother j hj]
    rfl

/-- Storing an absent key where its lookup ended. -/
theorem store_wf {m' : GuMap K V} {t : Nat} (hw : m.Wf h) (hi : idx < m.n_entries) (hf : m.isFree h idx = true)
    (ht : m.slot h k t = idx) (hp : m.Passed h k t) (hs : m.store h k idx = .ok m') :
    m'.Wf h ∧ m'.Used h idx ∧ m'.key h idx = k ∧ ∀ k', m'.Has h k' ↔ h.eq k' k = true ∨ m.Has h k' := by
  obtain ⟨hn, hk, hfi, ho, hz⟩ := store_spec hi hf hs
  have hslot : ∀ c t, m'.slot h c t = m.slot h c t := fun c t => by simp only [slot, hn]
  have hused : ∀ {j}, j ≠ idx → (m'.Used h j ↔ m.Used h j) := fun {j} hj => by
    simp only [Used, hn, (ho j hj).2]
  have hui : m'.Used h idx := ⟨by rw [hn]; exact hi, hfi⟩
  have hne : ∀ {j}, m.Used h j → j ≠ idx := by
    rintro j hj rfl
    simp [Used, hf] at hj
  have hpassed : ∀ {c : K} {t}, m.Passed h c t → m'.Passed h c t := by
    intro c t hp t' ht'
    obtain ⟨hu, he⟩ := hp t' ht'
    rw [hslot, (ho _ (hne hu)).1]
    exact ⟨(hused (hne hu)).2 hu, he⟩
  refine ⟨⟨fun i hzi => ?_, fun i hu => ?_⟩, hui, hk, fun k' => ⟨?_, ?_⟩⟩
  · rcases hz with hz | hz
    · rw [hn]; exact hw.zero_lt i (hz ▸ hzi)
    · rw [hz, Option.some.injEq] at hzi
      subst hzi; exact hui.1
  · by_cases hii : i = idx
    · subst hii
      rw [hk]
      exact ⟨t, by rw [hslot]; exact ht, hpassed hp⟩
    · obtain ⟨t, hs', hp'⟩ := hw.path i ((hused hii).1 hu)
      rw [(ho i hii).1]
      exact ⟨t, by rw [hslot]; exact hs', hpassed hp'⟩
  · rintro ⟨j, hj, he⟩
    by_cases hji : j = idx
    · subst hji
      rw [hk] at he
      exact .inl he
    · rw [(ho j hji).1] at he
      exact .inr ⟨j, (hused hji).1 hj, he⟩
  · rintro (he | ⟨j, hj, he⟩)
    · exact ⟨idx, hui, by rw [hk]; exact he⟩
    · exact ⟨j, (hused (hne hj)).2 hj, by rw [(ho j (hne hj)).1]; exact he⟩

/-- What an insertion that returns has done. -/
def Inserted (h : GuHasher K) (m : GuMap K V) (k : K) (r : GuMap K V × Nat) : Prop :=
  r.1.Wf h ∧ r.1.Used h r.2 ∧ h.eq k (r.1.key h r.2) = true ∧ ∀ k', r.1.Has h k' ↔ h.eq k' k = true ∨ m.Has h k'

theorem has_congr (he : h.eq k k' = true) : m.Has h k ↔ m.Has h k' :=
  ⟨fun ⟨i, hi, hk⟩ => ⟨i, hi, by rw [← eq_left_congr he]; exact hk⟩,
    fun ⟨i, hi, hk⟩ => ⟨i, hi, by rw [eq_left_congr he]; exact hk⟩⟩

theorem cleared_unused (n i : Nat) : ¬ (m.cleared h n).Used h i := by
  rintro ⟨-, hf⟩
  simp only [isFree, cleared, reduceCtorEq, if_false, key, List.getD, List.getElem?_replicate] at hf
  split at hf <;> simp [h.isZero_iff.2 rfl] at hf

theorem cleared_wf (n : Nat) : (m.cleared h n).Wf h where
  zero_lt i hz := by simp [cleared] at hz
  path i hu := absurd hu (cleared_unused n i)

theorem cleared_has (n : Nat) : ¬ (m.cleared h n).Has h k :=
  fun ⟨i, hu, _⟩ => cleared_unused n i hu

theorem resize_spec {insert : GuMap K V → K → Exec (GuMap K V × Nat)} {m' : GuMap K V}
    (hins : ∀ m k r, m.Wf h → insert m k = .ok r → Inserted h m k r)
    (hr : m.gu_map_resize h insert = .ok m') : m'.Wf h ∧ ∀ k, m'.Has h k ↔ m.Has h k := by
  unfold gu_map_resize at hr
  obtain ⟨n, -, hr⟩ := Exec.bind_ok.1 hr
  obtain ⟨_, -, hr⟩ := Exec.bind_ok.1 hr
  -- after `i` rounds the new table holds the keys of the first `i` slots
  have main := forEach_range (P := fun i m' => m'.Wf h ∧
      ∀ k, m'.Has h k ↔ ∃ j < i, m.Used h j ∧ h.eq k (m.key h j) = true) ?_ ?_ hr
  · refine ⟨main.1, fun k => (main.2 k).trans ⟨?_, ?_⟩⟩
    · rintro ⟨j, -, hu, he⟩; exact ⟨j, hu, he⟩
    · rintro ⟨j, hu, he⟩; exact ⟨j, hu.1, hu, he⟩
  · intro i s s' hi ⟨hw, hhas⟩ hs
    unfold reinsert at hs
    split at hs
    · rename_i hfree
      simp only [Exec.pure_eq, Except.ok.injEq] at hs
      subst hs
      refine ⟨hw, fun k => (hhas k).trans ⟨?_, ?_⟩⟩
      · rintro ⟨j, hj, hu, he⟩; exact ⟨j, by omega, hu, he⟩
      · rintro ⟨j, hj, hu, he⟩
        rcases Nat.lt_succ_iff_lt_or_eq.1 hj with hj | rfl
        · exact ⟨j, hj, hu, he⟩
        · simp [Used, hfree] at hu
    · rename_i hfree
      obtain ⟨⟨m₁, idx⟩, h₁, hs⟩ := Exec.bind_ok.1 hs
      simp only [Exec.pure_eq, Except.ok.injEq] at hs
      subst hs
      obtain ⟨hw₁, -, -, hh₁⟩ := hins _ _ _ hw h₁
      refine ⟨⟨hw₁.zero_lt, hw₁.path⟩, fun k => (hh₁ k).trans ?_⟩
      rw [hhas]
      constructor
      · rintro (he | ⟨j, hj, hu, he⟩)
        · exact ⟨i, by omega, ⟨hi, by simpa using hfree⟩, he⟩
        · exact ⟨j, by omega, hu, he⟩
      · rintro ⟨j, hj, hu, he⟩
        rcases Nat.lt_succ_iff_lt_or_eq.1 hj with hj | rfl
        · exact .inr ⟨j, hj, hu, he⟩
        · exact .inl he
  · exact ⟨cleared_wf n, fun k => by simp [cleared_has]⟩

theorem insert_at_spec : ∀ (depth : Nat) (m : GuMap K V) (k : K) (r : GuMap K V × Nat), m.Wf h →
    m.gu_map_insert_at h depth k = .ok r → Inserted h m k r := by
  intro depth
  induction depth with
  | zero => intro m k r _ hr; simp [gu_map_insert_at] at hr
  | succ depth ih =>
    intro m k r hw hr
    -- the end of both branches: an absent key goes where its lookup ended
    have finish : ∀ {m₁ : GuMap K V} {i : Nat}, m₁.Wf h → (∀ k, m₁.Has h k ↔ m.Has h k) →
        m₁.gu_map_lookup h k = .ok (false, i) →
        (do let m ← m₁.store h k i; return (m, i)) = Except.ok r → Inserted h m k r := by
      intro m₁ i hw₁ hh hl hr
      obtain ⟨m₂, hs, hr⟩ := Exec.bind_ok.1 hr
      simp only [Exec.pure_eq, Except.ok.injEq] at hr
      subst hr
      obtain ⟨t, ht, hp, hi, hf, -⟩ := lookup_spec hl
      obtain ⟨hw₂, hu, hk, hh₂⟩ := store_wf hw₁ hi hf ht hp hs
      exact ⟨hw₂, hu, by rw [hk]; exact h.eq_refl k, fun k' => by rw [hh₂, hh]⟩
    unfold gu_map_insert_at at hr
    obtain ⟨⟨found, i⟩, hl, hr⟩ := Exec.bind_ok.1 hr
    cases found with
    | true =>
      simp only [if_true, Exec.pure_eq, Except.ok.injEq] at hr
      subst hr
      obtain ⟨hu, he⟩ := lookup_found hl
      refine ⟨hw, hu, he, fun k' => ⟨.inr, ?_⟩⟩
      rintro (hk | hk)
      · exact (has_congr hk).2 ⟨i, hu, he⟩
      · exact hk
    | false =>
      simp only [Bool.false_eq_true, if_false] at hr
      split at hr
      · obtain ⟨m₁, hz, hr⟩ := Exec.bind_ok.1 hr
        obtain ⟨⟨found, i⟩, hl, hr⟩ := Exec.bind_ok.1 hr
        obtain ⟨_, hreq, hr⟩ := Exec.bind_ok.1 hr
        simp only [Exec.require_ok] at hreq
        subst hreq
        obtain ⟨hw₁, hh⟩ := resize_spec ih hz
        exact finish hw₁ hh hl hr
      · exact finish hw (fun _ => Iff.rfl) hl hr

theorem insert_spec {r : GuMap K V × Nat} (hw : m.Wf h) (hr : m.gu_map_insert h k = .ok r) : Inserted h m k r :=
  insert_at_spec 3 m k r hw hr

theorem make_spec {ks vs : Nat} {dv : Option V} {zv : V} (hr : gu_make_map h ks vs dv zv = .ok m) :
    m.Wf h ∧ ∀ k, ¬ m.Has h k := by
  obtain ⟨hw, hh⟩ := resize_spec (insert_at_spec 3) hr
  refine ⟨hw, fun k hk => ?_⟩
  obtain ⟨i, hi, -⟩ := (hh k).1 hk
  simp [Used, n_entries] at hi

/-! ## Enumeration -/

/-- The enumeration stops at the next slot in use. -/
theorem enum_next_some (hr : m.gu_map_enum_next h i = some (k, j)) :
    ∃ x, i ≤ x ∧ j = x + 1 ∧ m.Used h x ∧ m.key h x = k ∧ ∀ y, i ≤ y → y < x → ¬ m.Used h y := by
  unfold gu_map_enum_next at hr
  obtain ⟨x, hx, hr⟩ := Option.map_eq_some_iff.1 hr
  simp only [Prod.mk.injEq] at hr
  obtain ⟨hp, as, bs, hl, hbef⟩ := List.find?_eq_some_iff_append.1 hx
  have hmem : x ∈ List.range' i (m.n_entries - i) := by rw [hl]; simp
  rw [List.mem_range'_1] at hmem
  refine ⟨x, hmem.1, hr.2.symm, ⟨by omega, by simpa using hp⟩, hr.1, fun y hy hyx hu => ?_⟩
  have hym : y ∈ List.range' i (m.n_entries - i) := by rw [List.mem_range'_1]; omega
  rw [hl, List.mem_append, List.mem_cons] at hym
  rcases hym with hym | rfl | hym
  · simpa [hu.2] using hbef y hym
  · omega
  · have hsort : (List.range' i (m.n_entries - i)).Pairwise (· < ·) := List.pairwise_lt_range'
    rw [hl, List.pairwise_append] at hsort
    have := (List.pairwise_cons.1 hsort.2.1).1 y hym
    omega

/-- The enumeration ends when no slot from the cursor on is in use. -/
theorem enum_next_none (hr : m.gu_map_enum_next h i = none) (hi : i ≤ j) : ¬ m.Used h j := by
  intro hu
  unfold gu_map_enum_next at hr
  rw [Option.map_eq_none_iff, List.find?_eq_none] at hr
  have := hr j (by rw [List.mem_range'_1]; have := hu.1; omega)
  simp [hu.2] at this

end GuMap

/-! ## Sets -/

/-- A `GuSet`: a map without values, with its table in order. -/
structure GuSet {K : Type} (h : GuHasher K) where
  map : GuMap K Unit
  wf : map.Wf h

namespace GuSet
variable {K : Type} {h : GuHasher K}

instance : Membership K (GuSet h) := ⟨fun s k => s.map.Has h k⟩

/-- The set whose table a call returned. -/
def ofMap (r : Exec (GuMap K Unit)) (hr : ∀ m, r = .ok m → m.Wf h) : Exec (GuSet h) :=
  match r, hr with
  | .ok m, hr => .ok ⟨m, hr m rfl⟩
  | .error e, _ => .error e

theorem ofMap_ok {r : Exec (GuMap K Unit)} {hr : ∀ m, r = .ok m → m.Wf h} {s : GuSet h} (hs : ofMap r hr = .ok s) :
    r = .ok s.map := by
  cases r with
  | ok m => simp only [ofMap, Except.ok.injEq] at hs; rw [← hs]
  | error e => simp [ofMap] at hs

variable (h) in
/-- `gu_new_set`, for keys that fill a word. -/
def gu_new_set : Exec (GuSet h) :=
  ofMap (GuMap.gu_make_map h 8 0 none ()) fun _ hr => (GuMap.make_spec hr).1

def gu_set_has (s : GuSet h) (k : K) : Exec Bool := (s.map.gu_map_lookup h k).map Prod.fst

def gu_set_insert (s : GuSet h) (k : K) : Exec (GuSet h) :=
  ofMap ((s.map.gu_map_insert h k).map Prod.fst) fun m hr => by
    cases hi : s.map.gu_map_insert h k with
    | error e => simp [hi, Except.map] at hr
    | ok r =>
      simp only [hi, Except.map, Except.ok.injEq] at hr
      exact hr ▸ (GuMap.insert_spec s.wf hi).1

/-- `gu_enum_next` on the set's keys. -/
def next (s : GuSet h) (i : Nat) : Option (K × Nat) := s.map.gu_map_enum_next h i

/-- The key is in a slot that an enumeration at cursor `i` has still to visit. -/
def Ahead (s : GuSet h) (i : Nat) (k : K) : Prop := ∃ x, i ≤ x ∧ s.map.Used h x ∧ s.map.key h x = k

variable {s s' : GuSet h} {k k' : K} {i j : Nat}

theorem not_mem_new (hs : gu_new_set h = .ok s) : k ∉ s :=
  (GuMap.make_spec (ofMap_ok hs)).2 k

theorem has_iff {b : Bool} (hb : s.gu_set_has k = .ok b) : b = true ↔ k ∈ s := by
  unfold gu_set_has at hb
  cases hl : s.map.gu_map_lookup h k with
  | error e => simp [hl, Except.map] at hb
  | ok r =>
    simp only [hl, Except.map, Except.ok.injEq] at hb
    exact GuMap.lookup_iff s.wf (by rw [hl, ← hb])

theorem mem_insert (hs : s.gu_set_insert k = .ok s') : k' ∈ s' ↔ h.eq k' k = true ∨ k' ∈ s := by
  have hm := ofMap_ok hs
  cases hi : s.map.gu_map_insert h k with
  | error e => simp [hi, Except.map] at hm
  | ok r =>
    simp only [hi, Except.map, Except.ok.injEq] at hm
    obtain ⟨-, -, -, hh⟩ := GuMap.insert_spec s.wf hi
    show s'.map.Has h k' ↔ _
    rw [← hm]
    exact hh k'

theorem next_some (hn : s.next i = some (k, j)) :
    i < j ∧ k ∈ s ∧ s.Ahead i k ∧ ∀ k', s.Ahead i k' → k' = k ∨ s.Ahead j k' := by
  obtain ⟨x, hx, rfl, hu, rfl, hno⟩ := GuMap.enum_next_some hn
  refine ⟨by omega, ⟨x, hu, h.eq_refl _⟩, ⟨x, hx, hu, rfl⟩, ?_⟩
  rintro _ ⟨y, hy, huy, rfl⟩
  rcases Nat.lt_trichotomy y x with hyx | rfl | hyx
  · exact absurd huy (hno y hy hyx)
  · exact .inl rfl
  · exact .inr ⟨y, by omega, huy, rfl⟩

theorem next_none (hn : s.next i = none) : ¬ s.Ahead i k :=
  fun ⟨_, hy, hu, _⟩ => GuMap.enum_next_none hn hy hu

end GuSet

end Libpgf
