import Libpgf.Gu.MapTables
/-!
# Insertions return

A key goes into a table that is not full. A full table is extended first: its
entries are copied into a larger table, which is never full.
-/

namespace Libpgf

namespace GuMap

open scoped List

variable {K V : Type} {h : GuHasher K} {m m' : GuMap K V} {k k' : K} {v v' : V} {i j idx : Nat}

/-! ## Insertion -/

/-- The entries with the key among them. -/
def inserted (h : GuHasher K) (m : GuMap K V) (k : K) : List (K × V) := Assoc.insert h.eq (m.gu_map_iter h) k m.initial

/-- What an insertion has done, whether the key is new or not. -/
structure Inserts (h : GuHasher K) (m : GuMap K V) (k : K) (r : GuMap K V × Nat) : Prop where
  table : r.1.Table h
  same : SameConfig m r.1
  used : r.1.Used h r.2
  key : h.eq k (r.1.key h r.2) = true
  entries : (r.1.gu_map_iter h).Perm (m.inserted h k)

theorem Added.inserts {r : GuMap K V × Nat} (hr : Added h m k r) (habs : ¬ m.Has h k) : Inserts h m k r := by
  refine ⟨hr.table, hr.same, hr.used, hr.key, ?_⟩
  rw [inserted, Assoc.insert, entry_none_iff.2 habs]
  exact hr.entries

/-- A key that is there. -/
theorem Table.insert_found (hm : m.Table h) (hl : m.gu_map_lookup h k = .ok (true, idx)) (depth : Nat) :
    m.gu_map_insert_at h (depth + 1) k = .ok (m, idx) ∧ Inserts h m k (m, idx) := by
  obtain ⟨hu, he⟩ := lookup_found hl
  refine ⟨?_, hm, .refl m, hu, he, ?_⟩
  · rw [gu_map_insert_at, hl, Exec.ok_bind]
    rfl
  · rw [inserted, Assoc.insert, hm.entry_eq hu he]
    exact .refl _

/-- A new key, when the table is not full. -/
theorem Table.insert_fits (hm : m.Table h) (habs : ¬ m.Has h k) (hfull : ¬ m.isFull) (depth : Nat) :
    ∃ r, m.gu_map_insert_at h (depth + 1) k = .ok r ∧ r.1.n_entries = m.n_entries ∧ Added h m k r := by
  have hroom : m.n_occupied + 1 < m.n_entries := by
    have hleast := hm.least
    unfold isFull at hfull
    omega
  rcases hm.lookup k with ⟨i, -, hu, he⟩ | ⟨i, hl, -⟩
  · exact absurd ⟨i, hu, he⟩ habs
  · obtain ⟨m', hs, hn, ha⟩ := hm.store_returns hroom hl
    refine ⟨(m', i), ?_, hn, ha⟩
    rw [gu_map_insert_at, hl, Exec.ok_bind]
    dsimp only
    rw [if_neg Bool.false_ne_true, if_neg hfull, hs]
    rfl

/-- What a call has found or made that copies the entries of `m` into a table for one more. -/
structure Resized (h : GuHasher K) (m m' : GuMap K V) : Prop where
  table : m'.Table h
  same : SameConfig m m'
  entries : (m'.gu_map_iter h).Perm (m.gu_map_iter h)
  required : m.required ≤ m'.n_entries

theorem cleared_table {n : Nat} (htwin : TwinPrime n) (hn : m.required ≤ n) : (m.cleared h n).Table h := by
  have hlen : (m.cleared h n).n_entries = n := List.length_replicate
  have h11 : 11 ≤ n := Nat.le_trans (Nat.le_max_left _ _) hn
  have hnone : (m.cleared h n).gu_map_iter h = [] := by
    rw [List.eq_nil_iff_forall_not_mem]
    intro e he
    obtain ⟨i, hu, -⟩ := mem_iter.1 he
    exact cleared_unused n i hu
  refine { cleared_valued m n with twin := ?_, least := ?_, zero_key := ?_, unset := ?_, occupied := ?_, room := ?_ }
  · rw [Sized, hlen]
    exact htwin
  · rw [hlen]
    exact h11
  · intro i hz
    cases hz
  · intro _ i hi _
    rw [hlen] at hi
    exact List.getElem?_replicate_of_lt hi
  · rw [hnone]
    rfl
  · rw [hlen]
    exact Nat.lt_of_lt_of_le (by decide : 0 < 11) h11

/-- Fewer entries come before a slot in use than there are. -/
theorem entries_before_lt (hu : m.Used h i) : ((List.range i).filterMap (m.entryAt h)).length < (m.gu_map_iter h).length := by
  have hsome : m.entryAt h i = some (m.key h i, m.values.getD i m.zero_value) := entryAt_some.2 ⟨hu.2, rfl⟩
  have hle := ((List.range_sublist.2 hu.1 : List.range (i + 1) <+ List.range m.n_entries).filterMap (m.entryAt h)).length_le
  rw [List.range_succ, List.filterMap_append, List.filterMap_cons_some hsome, List.length_append] at hle
  exact hle

theorem before_absent {s : GuMap K V} (hm : m.Wf h) (hu : m.Used h i) (hp : (s.gu_map_iter h).Perm ((List.range i).filterMap (m.entryAt h))) :
    ¬ s.Has h (m.key h i) := by
  rintro ⟨j, hj, he⟩
  have hmem := hp.mem_iff.1 (mem_iter.2 ⟨j, hj, rfl⟩)
  obtain ⟨x, hx, hentry⟩ := List.mem_filterMap.1 hmem
  obtain ⟨hfree, heq⟩ := entryAt_some.1 hentry
  have hlt := List.mem_range.1 hx
  obtain ⟨hkey, -⟩ := Prod.mk.inj heq
  rw [hkey] at he
  exact Nat.ne_of_gt hlt (hm.slot_unique hu ⟨Nat.lt_trans hlt hu.1, hfree⟩ he)

theorem resize_returns {insert : GuMap K V → K → Exec (GuMap K V × Nat)} (hm : m.Valued h) (hocc : m.n_occupied = (m.gu_map_iter h).length)
    (hx : m.Extensible)
    (hins : ∀ s k, s.Table h → ¬ s.Has h k → ¬ s.isFull → ∃ r, insert s k = .ok r ∧ r.1.n_entries = s.n_entries ∧ Added h s k r) :
    ∃ m', m.gu_map_resize h insert = .ok m' ∧ Resized h m m' := by
  obtain ⟨n, hn, htwin, hreq⟩ := resizedEntries_returns hx
  have hmore : m.n_occupied < n := by
    unfold required at hreq
    omega
  have hlen : (m.cleared h n).n_entries = n := List.length_replicate
  -- after `i` rounds the new table holds the entries of the first `i` slots
  have hloop := forEach_range_returns (f := reinsert h insert m) (n := m.n_entries)
    (P := fun i s => s.Table h ∧ SameConfig m s ∧ s.n_entries = n ∧ (s.gu_map_iter h).Perm ((List.range i).filterMap (m.entryAt h)))
    (s := m.cleared h n) ?_ ?_
  · obtain ⟨m', hr, htable, hsame, hn', hentries⟩ := hloop
    refine ⟨m', ?_, htable, hsame, hentries, hn' ▸ hreq⟩
    rw [gu_map_resize, hn, Exec.ok_bind, (Exec.require_ok (u := ())).2 hmore, Exec.ok_bind, hr]
  · rintro i s hi ⟨hs, hsame, hsn, hentries⟩
    unfold reinsert
    cases hfree : m.isFree h i with
    | true =>
      refine ⟨s, rfl, hs, hsame, hsn, ?_⟩
      have hnone : m.entryAt h i = none := by rw [entryAt, if_pos hfree]
      rw [List.range_succ, List.filterMap_append, List.filterMap_cons_none hnone, List.filterMap_nil, List.append_nil]
      exact hentries
    | false =>
      have hu : m.Used h i := ⟨hi, hfree⟩
      have habs := before_absent hm.toWf hu hentries
      have hfull : ¬ s.isFull := by
        have hlt := entries_before_lt hu
        rw [← hentries.length_eq, ← hs.occupied, ← hocc] at hlt
        unfold isFull
        unfold required at hreq
        omega
      obtain ⟨⟨s', idx⟩, hr, hrn, ha⟩ := hins s (m.key h i) hs habs hfull
      obtain ⟨hput, hwrite⟩ := ha.table.put_table ha.used ha.key (m.values.getD i m.zero_value)
      refine ⟨s'.put idx (m.values.getD i m.zero_value), ?_, hput, hsame.trans (ha.same.put _ _), ?_, ?_⟩
      · rw [if_neg Bool.false_ne_true, hr]
        rfl
      · exact hrn.trans hsn
      · have hsome : m.entryAt h i = some (m.key h i, m.values.getD i m.zero_value) := entryAt_some.2 ⟨hfree, rfl⟩
        have hhead := Assoc.write_head (entry_none_iff.2 habs) (h.eq_refl (m.key h i)) s.initial (m.values.getD i m.zero_value)
        rw [hwrite, List.range_succ, List.filterMap_append, List.filterMap_cons_some hsome, List.filterMap_nil]
        calc Assoc.write h.eq (s'.gu_map_iter h) (m.key h i) (m.values.getD i m.zero_value)
            ~ Assoc.write h.eq ((m.key h i, s.initial) :: s.gu_map_iter h) (m.key h i) (m.values.getD i m.zero_value) :=
              Assoc.write_perm ha.entries _ _
          _ = (m.key h i, m.values.getD i m.zero_value) :: s.gu_map_iter h := hhead
          _ ~ (m.key h i, m.values.getD i m.zero_value) :: (List.range i).filterMap (m.entryAt h) := hentries.cons _
          _ ~ (List.range i).filterMap (m.entryAt h) ++ [(m.key h i, m.values.getD i m.zero_value)] := (List.perm_append_singleton _ _).symm
  · refine ⟨cleared_table htwin hreq, ⟨rfl, rfl, rfl, rfl⟩, hlen, ?_⟩
    rw [List.range_zero, List.filterMap_nil, List.perm_nil]
    exact List.length_eq_zero_iff.1 ((cleared_table htwin hreq).occupied.symm)

/-- The table is extended when it is full. -/
theorem Table.insert_returns (hm : m.Table h) (k : K) (hx : ¬ m.Has h k → m.isFull → m.Extensible) :
    ∃ r, m.gu_map_insert h k = .ok r ∧ Inserts h m k r := by
  rcases hm.lookup k with ⟨i, hl, -⟩ | ⟨i, hl, habs⟩
  · exact ⟨(m, i), hm.insert_found hl 2⟩
  · by_cases hfull : m.isFull
    · obtain ⟨m₁, hr, hres⟩ := resize_returns hm.toValued hm.occupied (hx habs hfull)
        (fun s k hs habs hfull => hs.insert_fits (k := k) habs hfull 1)
      have habs₁ : ¬ m₁.Has h k := by
        rw [← entry_none_iff, hres.table.distinct.entry_perm h.equiv hres.entries, entry_none_iff]
        exact habs
      have hroom : m₁.n_occupied + 1 < m₁.n_entries := by
        have hreq := hres.required
        rw [hres.table.occupied, hres.entries.length_eq, ← hm.occupied]
        unfold required at hreq
        omega
      rcases hres.table.lookup k with ⟨j, -, hu, he⟩ | ⟨j, hl₁, -⟩
      · exact absurd ⟨j, hu, he⟩ habs₁
      obtain ⟨m', hs, -, ha⟩ := hres.table.store_returns hroom hl₁
      refine ⟨(m', j), ?_, ha.table, hres.same.trans ha.same, ha.used, ha.key, ?_⟩
      · unfold gu_map_insert
        rw [gu_map_insert_at, hl, Exec.ok_bind]
        dsimp only
        rw [if_neg Bool.false_ne_true, if_pos hfull, hr, Exec.ok_bind, hl₁, Exec.ok_bind]
        dsimp only
        rw [(Exec.require_ok (u := ())).2 rfl, Exec.ok_bind, hs]
        rfl
      · rw [inserted, Assoc.insert, entry_none_iff.2 habs]
        refine ha.entries.trans ?_
        rw [hres.same.initial]
        exact hres.entries.cons _
    · obtain ⟨r, hr, -, ha⟩ := hm.insert_fits habs hfull 2
      exact ⟨r, hr, ha.inserts habs⟩

end GuMap

end Libpgf
