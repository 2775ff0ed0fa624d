import Libpgf.Pgf.History
/-!
# Continuations of completed categories

When a category is completed, `pgf_parsing_complete` moves every continuation
over it, and `pgf_parsing_predict` moves those that are added later. The
enumeration keeps an index into the table of the set. An insertion during a
round can resize the table and move an item that has not been visited to a slot
that the cursor has passed. Unless that happens, no continuation is lost.
-/

namespace Libpgf

variable {P : PgfParser}

/-- The items that are still to be visited when a round begins are still to be
visited when it ends. -/
def EnumRound.Stable (r : EnumRound P) : Prop := ∀ k, r.before.Ahead r.cursor k → r.after.Ahead r.cursor k

/-- No round moves an item that has not been visited behind the cursor. -/
def Enumeration.Stable (e : Enumeration P) : Prop := ∀ r ∈ e.rounds, r.Stable

/-- Every continuation of a category that this call has completed has been
moved over it, and a category that completes the input is in the list. -/
def PgfParsing.NoneLost (s : PgfParsing P) : Prop :=
  ∀ {conts cat}, s.generated_cats conts = some cat → ∀ {k}, s.heap.Held conts k →
    match k with
    | none => ∃ parse, s.heap.parses[s.parse]? = some parse ∧ cat ∈ parse.completed
    | some cont => ∃ item, combined cont cat = .ok item ∧ some item ∈ s.seen_items

/-- A stable enumeration visits all that is ahead of its cursor. -/
theorem PgfParsing.EnumRun.visits {rs : List (EnumRound P)} : ∀ {cursor : Nat} {set : PgfItemSet P}, EnumRun cursor set rs →
    (∀ r ∈ rs, r.Stable) → ∀ {k}, set.Ahead cursor k → ∃ r ∈ rs, r.cont = k := by
  induction rs with
  | nil => intro cursor set hrun _ k hk; exact absurd hk (GuSet.next_none hrun)
  | cons r rs ih =>
    intro cursor set hrun hst k hk
    obtain ⟨hb, hn, hrun⟩ := hrun
    obtain ⟨-, -, -, hahead⟩ := GuSet.next_some hn
    rcases hahead k hk with rfl | hk
    · exact ⟨r, List.mem_cons_self, rfl⟩
    · have hafter := hst r List.mem_cons_self k (hb ▸ hk)
      obtain ⟨r', hr', he⟩ := ih hrun (fun r' hr' => hst r' (List.mem_cons_of_mem _ hr')) hafter
      exact ⟨r', List.mem_cons_of_mem _ hr', he⟩

theorem GuSet.mem_ahead {hash : Option PgfItem → Nat} {set : GuSet (itemHasher hash)} {k : Option PgfItem} (hk : k ∈ set) :
    set.Ahead 0 k := by
  obtain ⟨i, hu, he⟩ := hk
  exact ⟨i, Nat.zero_le _, hu, (of_decide_eq_true he).symm⟩

/-- The enumeration visits every item that the set held when it began. -/
def Enumeration.Covers (e : Enumeration P) : Prop := ∀ k ∈ e.start, ∃ r ∈ e.rounds, r.cont = k

theorem Enumeration.Stable.covers {e : Enumeration P} (h : e.Stable) (hrun : PgfParsing.EnumRun 0 e.start e.rounds) :
    e.Covers := fun _ hk => hrun.visits h (GuSet.mem_ahead hk)

theorem PgfParsing.not_missed {s : PgfParsing P} (hcov : ∀ e ∈ s.enums, e.Covers) (k : Option PgfItem) : ¬ s.Missed k := by
  rintro ⟨e, he, hk, hno⟩
  obtain ⟨r, hr, hrk⟩ := hcov e he k hk
  exact hno r hr hrk

/-- The sets that have a completed category are continuation sets. -/
theorem Session.gen_isConts {l : List (Call P)} (hl : Session P l) {i : Nat} {c : Call P} (hc : l[i]? = some c)
    {K : PgfItemSetId} {g : PgfCCatId} (hg : c.state.chart.gen K = some g) : PgfParsing.IsConts c.state.chart K := by
  obtain ⟨j, o, Cj, cat, r, hj, hL, hK⟩ := (hl.traced i c hc).gens hg
  obtain ⟨d, hd, rfl, rfl⟩ := logOf_getElem?.1 hL
  rcases Nat.lt_or_eq_of_le hj with hlt | rfl
  · -- an older set is none of those that this call has made
    have hd' : (l.take i)[j]? = some d := by rw [List.getElem?_take_of_lt hlt]; exact hd
    have hown := (Heap.chart_own _).steps (hl.called hc).steps
    have hle := ((hl.at_call hc).init.heap_le hd').sets.length_le
    have hKlt := ((hl.wf hd).conts_lt hK).1
    intro t ht
    exact absurd (hown.toks ht) (Nat.not_le_of_lt (Nat.lt_of_lt_of_le hKlt hle))
  · rw [hc] at hd
    cases hd
    exact fun t => (hl.wf hc).conts_ne_toks hK

/-- In every session and for every hash of items: a call whose enumerations come
to every item that their sets held at first loses no continuation. -/
theorem no_lost_continuation {l : List (Call P)} (hl : Session P l) {c : Call P} (hc : c ∈ l)
    (hcov : ∀ e ∈ c.state.enums, e.Covers) : c.state.NoneLost := by
  obtain ⟨i, hi⟩ := List.getElem?_of_mem hc
  have hcl := (hl.finished hi).closed
  intro K g hg k hk
  rcases hcl.combined (hl.gen_isConts hi hg) hg hk with hcomb | hm | hd
  · cases k with
    | some cont => exact hcomb
    | none =>
      have hcomb : g ∈ c.state.chart.completed := hcomb
      simp only [PgfParsing.chart] at hcomb
      cases hp : c.state.heap.parses[c.state.parse]? with
      | none => simp [hp] at hcomb
      | some parse => exact ⟨parse, rfl, by simpa [hp] using hcomb⟩
  · exact absurd hm (PgfParsing.not_missed hcov k)
  · exact hd.elim

/-- A round that leaves the table as it is. -/
def EnumRound.unchanged (r : EnumRound P) : Bool :=
  decide (r.after.map.keys = r.before.map.keys) && decide (r.after.map.zero_idx = r.before.map.zero_idx)

theorem EnumRound.stable_of_unchanged {r : EnumRound P} (h : r.unchanged = true) : r.Stable := by
  simp only [unchanged, Bool.and_eq_true, decide_eq_true_eq] at h
  rintro k ⟨i, hi, hu, hk⟩
  have hkey : ∀ j, r.after.map.key (itemHasher P.item_hash) j = r.before.map.key (itemHasher P.item_hash) j := fun j => by
    simp only [GuMap.key, h.1]
  have hfree : ∀ j, r.after.map.isFree (itemHasher P.item_hash) j = r.before.map.isFree (itemHasher P.item_hash) j :=
    fun j => by simp only [GuMap.isFree, hkey, h.2]
  refine ⟨i, hi, ⟨?_, by rw [hfree]; exact hu.2⟩, by rw [hkey]; exact hk⟩
  have := hu.1
  simp only [GuMap.n_entries, h.1] at this ⊢
  exact this

theorem no_lost_continuation_tiny : ∃ c : Call Tiny.parser, c.state.enums ≠ [] ∧ c.state.NoneLost := by
  obtain ⟨l, hl, hcheck⟩ := Session.of_check 20 Tiny.calls (fun l : List (Call Tiny.parser) =>
    l.any fun c => !c.state.enums.isEmpty && c.state.enums.all fun e => e.rounds.all EnumRound.unchanged) (by decide +kernel)
  simp only [List.any_eq_true, Bool.and_eq_true, List.all_eq_true, Bool.not_eq_true', List.isEmpty_eq_false_iff] at hcheck
  obtain ⟨c, hc, hne, hun⟩ := hcheck
  obtain ⟨i, hi⟩ := List.getElem?_of_mem hc
  have hcov : ∀ e ∈ c.state.enums, e.Covers := fun e he =>
    Enumeration.Stable.covers (fun r hr => EnumRound.stable_of_unchanged (hun e he r hr)) ((hl.called hi).enums e he)
  exact ⟨c, hne, no_lost_continuation hl hc hcov⟩

/-! ## A grammar that loses a continuation

`S → s[A, A]` with `s` = `<0,0> <1,0>`, `A → h[B]` with `h` = `<0,0>`, and
`B → g₁[A] | ... | g₁₀[A] | e[]` with `gᵢ` = `<0,0> "i"` and `e` empty. Eleven
items wait for `A` when `e` makes `B` and then `A` complete. The enumeration
visits the item of `s` first; that predicts `A` again for the second argument,
and the twelfth item makes the table grow from 13 to 19 slots. The item of
`g₁₀`, whose hash is 38, moves from slot 12 to slot 0. -/

namespace Lossy

def s : PgfCncFun := { fun_ := [115], lins := [[.CAT 0 0, .CAT 1 0]], fid := 0 }

def g (i : Nat) : PgfCncFun := { fun_ := [103, i.toUInt8], lins := [[.CAT 0 0, .KS [[i.toUInt8]]]], fid := i }

def h : PgfCncFun := { fun_ := [104], lins := [[.CAT 0 0]], fid := 11 }

def e : PgfCncFun := { fun_ := [101], lins := [[]], fid := 12 }

def concr : PgfConcr where
  ccatMem := [⟨some 0, .seq [.APPLY s [⟨[], 1⟩, ⟨[], 1⟩]], 0⟩, ⟨some 1, .seq [.APPLY h [⟨[], 2⟩]], 1⟩,
    ⟨some 2, .seq [.APPLY (g 1) [⟨[], 1⟩], .APPLY (g 2) [⟨[], 1⟩], .APPLY (g 3) [⟨[], 1⟩], .APPLY (g 4) [⟨[], 1⟩],
      .APPLY (g 5) [⟨[], 1⟩], .APPLY (g 6) [⟨[], 1⟩], .APPLY (g 7) [⟨[], 1⟩], .APPLY (g 8) [⟨[], 1⟩],
      .APPLY (g 9) [⟨[], 1⟩], .APPLY (g 10) [⟨[], 1⟩], .APPLY e []], 2⟩]
  cnccatMem := [⟨[83], [some 0], 1, [[115]]⟩, ⟨[65], [some 1], 1, [[115]]⟩, ⟨[66], [some 2], 1, [[115]]⟩]
  cnccats := [([83], 0), ([65], 1), ([66], 2)]
  extra_ccats := []
  prods_fixed := by decide
  prods_valid := by decide
  cats_valid := by decide

/-- A hash that depends on the function of the item. -/
def hash : Option PgfItem → Nat
  | some { base := { prod := .APPLY f _, .. }, .. } => if f.fid = 10 then 38 else f.fid.toNat + 1
  | _ => 0

def parser : PgfParser := ⟨concr, hash⟩

/-- The item of `g₁₀` that waits for `A`; its own continuations wait for `B`. -/
def lost : PgfItem where
  base := { conts := 2, ccat := 2, prod := .APPLY (g 10) [⟨[], 1⟩], lin_idx := 0 }
  args := [⟨[], 1⟩]
  curr_sym := some (.CAT 0 0)
  seq_idx := 0
  tok_idx := 0
  alt := 0

/-- The item is in set 1, for which a category is completed, and it has not been moved over it. -/
def isLost (st : PgfParsing parser) : Bool :=
  match st.generated_cats 1, st.heap.sets[1]? with
  | some cat, some conts =>
    match conts.gu_set_has (some lost), combined lost cat with
    | .ok true, .ok item =>
      match st.seen_items.gu_set_has (some item) with
      | .ok false => true
      | _ => false
    | _, _ => false
  | _, _ => false

theorem isLost_spec {st : PgfParsing parser} (hl : isLost st = true) : ¬ st.NoneLost := by
  unfold isLost at hl
  split at hl
  · rename_i cat conts hg hs
    split at hl
    · rename_i item hhas hcomb
      split at hl
      · rename_i hseen
        intro hn
        obtain ⟨item', hi, hm⟩ := hn hg ⟨conts, hs, (GuSet.has_iff hhas).1 rfl⟩
        rw [hcomb] at hi
        cases hi
        exact Bool.false_ne_true ((GuSet.has_iff hseen).2 hm)
      · cases hl
    · cases hl
  · cases hl

end Lossy

/-- A reachable parse state that has lost a continuation. -/
theorem lost_continuation : ∃ c : Call Lossy.parser, Session Lossy.parser [c] ∧ ¬ c.state.NoneLost := by
  obtain ⟨l, hl, hcheck⟩ := Session.of_check 30 [.parse [83] 0] (fun l : List (Call Lossy.parser) =>
    decide (l.length = 1) && l.all fun c => Lossy.isLost c.state) (by decide +kernel)
  rw [Bool.and_eq_true, decide_eq_true_eq, List.all_eq_true] at hcheck
  obtain ⟨c, rfl⟩ := List.length_eq_one_iff.1 hcheck.1
  exact ⟨c, hl, Lossy.isLost_spec (hcheck.2 c List.mem_cons_self)⟩

end Libpgf
