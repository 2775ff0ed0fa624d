import Libpgf.Pgf.Session
/-!
# Closed charts

When a call returns, its chart is closed under the steps: every item seen has
been filed where it waits, every production of a predicted category has its
item, and every continuation has been moved over the category that was
completed for it.

While the recursion runs, each active call owes some of this. `Closed D` says
that the chart is closed but for the debts in `D`: a call takes a debt and pays
it, and leaves the others as they are.
-/

namespace Libpgf

variable {P : PgfParser}

/-! ## Debts -/

inductive Debt where
  /-- The item has been seen, but not filed yet. -/
  | process (x : PgfItem)
  /-- A production of a predicted category. -/
  | produce (base : PgfItemBase)
  /-- A continuation of a completed category. -/
  | combine (k : Option PgfItem) (g : PgfCCatId)

namespace Chart

/-- The item is where it waits. -/
structure Processed (C : Chart) (x : PgfItem) : Prop where
  awaits : ∀ {c r}, Awaits x c r → (∃ ccat : PgfCCat, C.ccats[c]? = some ccat ∧ ccat.prods.isNull = true) ∨
    ∃ K, C.conts c r = some K ∧ some x ∈ C.held K
  reads : ∀ {tok}, Reads x tok → ∃ T, C.toks tok = some T ∧ some x ∈ C.held T
  complete : Complete x → ∃ p g, completed_prod x = .ok p ∧ C.gen x.base.conts = some g ∧ C.Prod g p

def Produced (C : Chart) (base : PgfItemBase) : Prop := ∃ x, pgf_new_item base = .ok x ∧ x ∈ C.seen

def Combined (C : Chart) (k : Option PgfItem) (g : PgfCCatId) : Prop :=
  match k with
  | none => g ∈ C.completed
  | some y => ∃ x, combined y g = .ok x ∧ x ∈ C.seen

def Paid (C : Chart) : Debt → Prop
  | .process x => C.Processed x
  | .produce base => C.Produced base
  | .combine k g => C.Combined k g

theorem Grows.processed {C C' : Chart} (h : Grows C C') {x : PgfItem} (hx : C.Processed x) : C'.Processed x where
  awaits hw := by
    rcases hx.awaits hw with ⟨ccat, hc, hn⟩ | ⟨K, hK, hm⟩
    · obtain ⟨ccat', hc', -, hn', -⟩ := h.ccats hc
      exact .inl ⟨ccat', hc', hn'.trans hn⟩
    · exact .inr ⟨K, h.conts hK, h.held K hm⟩
  reads hr := by
    obtain ⟨T, hT, hm⟩ := hx.reads hr
    exact ⟨T, h.toks hT, h.held T hm⟩
  complete hc := by
    obtain ⟨p, g, hp, hg, hm⟩ := hx.complete hc
    exact ⟨p, g, hp, h.gen hg, h.prod hm⟩

theorem Grows.produced {C C' : Chart} (h : Grows C C') {base : PgfItemBase} (hb : C.Produced base) : C'.Produced base := by
  obtain ⟨x, hx, hs⟩ := hb
  exact ⟨x, hx, h.seen hs⟩

theorem Grows.combined {C C' : Chart} (h : Grows C C') {k : Option PgfItem} {g : PgfCCatId} (hk : C.Combined k g) :
    C'.Combined k g := by
  cases k with
  | none => exact h.completed.subset hk
  | some y =>
    obtain ⟨x, hx, hs⟩ := hk
    exact ⟨x, hx, h.seen hs⟩

end Chart

namespace PgfParsing
variable {s s' : PgfParsing P} {D E : Set Debt}

/-- An enumeration that did not visit an item of the set it began with. -/
def Missed (s : PgfParsing P) (k : Option PgfItem) : Prop := ∃ e ∈ s.enums, k ∈ e.start ∧ ∀ r ∈ e.rounds, r.cont ≠ k

/-- The set holds no items that wait for a token. -/
def IsConts (C : Chart) (K : PgfItemSetId) : Prop := ∀ t, C.toks t ≠ some K

structure Closed (D : Set Debt) (s : PgfParsing P) : Prop where
  processed : ∀ {x}, x ∈ s.chart.seen → s.chart.Processed x ∨ .process x ∈ D
  produced : ∀ {c r K p}, s.chart.conts c r = some K → s.chart.Prod c p →
    s.chart.Produced ⟨K, c, p, r⟩ ∨ .produce ⟨K, c, p, r⟩ ∈ D
  combined : ∀ {K g k}, IsConts s.chart K → s.chart.gen K = some g → k ∈ s.chart.held K →
    s.chart.Combined k g ∨ s.Missed k ∨ .combine k g ∈ D

theorem Closed.mono (h : Closed D s) (hDE : D ⊆ E) : Closed E s where
  processed hx := (h.processed hx).imp_right fun hd => hDE hd
  produced hc hp := (h.produced hc hp).imp_right fun hd => hDE hd
  combined hK hg hk := (h.combined hK hg hk).imp_right (Or.imp_right fun hd => hDE hd)

/-- Debts that are paid need not be remembered, and continuations that an
enumeration has missed are remembered elsewhere. -/
theorem Closed.settle (h : Closed (D ∪ E) s)
    (hE : ∀ d ∈ E, s.chart.Paid d ∨ ∃ k g, d = .combine k g ∧ s.Missed k) : Closed D s where
  processed hx := by
    rcases h.processed hx with hp | hd | hd
    · exact .inl hp
    · exact .inr hd
    · obtain hp | ⟨k, g, he, -⟩ := hE _ hd
      · exact .inl hp
      · cases he
  produced hc hp := by
    rcases h.produced hc hp with hp | hd | hd
    · exact .inl hp
    · exact .inr hd
    · obtain hp | ⟨k, g, he, -⟩ := hE _ hd
      · exact .inl hp
      · cases he
  combined hK hg hk := by
    rcases h.combined hK hg hk with hp | hm | hd | hd
    · exact .inl hp
    · exact .inr (.inl hm)
    · exact .inr (.inr hd)
    · obtain hp | ⟨k, g, he, hm⟩ := hE _ hd
      · exact .inl hp
      · cases he
        exact .inr (.inl hm)

theorem Closed.pay (h : Closed (D ∪ E) s) (hE : ∀ d ∈ E, s.chart.Paid d) : Closed D s :=
  h.settle fun d hd => .inl (hE d hd)

/-- How a state may change and stay closed: whatever is new is owed. -/
theorem Closed.change (h : Closed D s) (hg : Chart.Grows s.chart s'.chart) (he : s.enums ⊆ s'.enums)
    (hseen : ∀ x ∈ s'.chart.seen, x ∈ s.chart.seen ∨ s'.chart.Processed x ∨ .process x ∈ E)
    (hprod : ∀ c r K p, s'.chart.conts c r = some K → s'.chart.Prod c p →
      (s.chart.conts c r = some K ∧ s.chart.Prod c p) ∨ .produce ⟨K, c, p, r⟩ ∈ E)
    (hcomb : ∀ K g k, IsConts s'.chart K → s'.chart.gen K = some g → k ∈ s'.chart.held K →
      (s.chart.gen K = some g ∧ k ∈ s.chart.held K) ∨ .combine k g ∈ E) : Closed (D ∪ E) s' where
  processed {x} hx := by
    rcases hseen x hx with hx | hp | hd
    · exact (h.processed hx).imp (hg.processed) .inl
    · exact .inl hp
    · exact .inr (.inr hd)
  produced {c r K p} hc hp := by
    rcases hprod c r K p hc hp with ⟨hc, hp⟩ | hd
    · exact (h.produced hc hp).imp hg.produced .inl
    · exact .inr (.inr hd)
  combined {K g k} hK hgen hk := by
    rcases hcomb K g k hK hgen hk with ⟨hgen, hk⟩ | hd
    · rcases h.combined (fun t ht => hK t (hg.toks ht)) hgen hk with hp | ⟨e, hem, hm⟩ | hd
      · exact .inl (hg.combined hp)
      · exact .inr (.inl ⟨e, he hem, hm⟩)
      · exact .inr (.inr (.inl hd))
    · exact .inr (.inr (.inr hd))

/-! ## The small steps -/

variable {scans : PgfItem → Prop} {starts : PgfCCatId → Nat → Prop}

/-- A call that leaves all debts as they are. -/
structure Keeps (scans : PgfItem → Prop) (starts : PgfCCatId → Nat → Prop) (s s' : PgfParsing P) : Prop where
  reaches : Reaches scans starts s s'
  closed : ∀ {D}, Closed D s → Closed D s'

theorem Keeps.refl (s : PgfParsing P) : Keeps scans starts s s := ⟨.refl s, fun h => h⟩

theorem Keeps.trans {s'' : PgfParsing P} (h : Keeps scans starts s s') (h' : Keeps scans starts s' s'') :
    Keeps scans starts s s'' := ⟨h.reaches.trans h'.reaches, fun hc => h'.closed (h.closed hc)⟩

theorem Keeps.grows (h : Keeps scans starts s s') : Chart.Grows s.chart s'.chart := h.reaches.grows

theorem Keeps.wf (h : Keeps scans starts s s') (hw : s.chart.Wf starts) : s'.chart.Wf starts := hw.steps h.reaches.steps

theorem enums_subset (h : Reaches scans starts s s') : s.enums ⊆ s'.enums := by
  obtain ⟨es, he, -⟩ := h.enums
  exact he ▸ List.subset_append_left _ _

/-- A change to tables that nothing is owed for. -/
theorem Keeps.of_same (hr : Reaches scans starts s s') (hs : s'.chart.seen = s.chart.seen)
    (hc : ∀ c r K, s'.chart.conts c r = some K → s.chart.conts c r = some K) (hcc : s'.chart.ccats = s.chart.ccats)
    (hg : s'.chart.gen = s.chart.gen) (hh : ∀ K k, IsConts s'.chart K → k ∈ s'.chart.held K → k ∈ s.chart.held K) :
    Keeps scans starts s s' := by
  refine ⟨hr, fun {D} h => ?_⟩
  have := h.change (E := ∅) hr.grows (enums_subset hr) (fun x hx => .inl (hs ▸ hx))
    (fun c r K p hk hp => .inl ⟨hc c r K hk, by simpa only [Chart.Prod, hcc] using hp⟩)
    (fun K g k hK hk hm => .inl ⟨hg ▸ hk, hh K k hK hm⟩)
  exact this.mono (by simp)

theorem see_closed {t : PgfParsing P} {x : PgfItem} (h : Closed D t) (hs : s.chart = t.chart.see x)
    (he : s.enums = t.enums) : Closed (D ∪ {.process x}) s := by
  refine h.change (hs ▸ Chart.see_grows x) (he ▸ List.Subset.refl _) (fun y hy => ?_) (fun c r K p hc hp => ?_)
    (fun K g k _ hg hk => ?_)
  · rw [hs] at hy
    rcases hy with rfl | hy
    · exact .inr (.inr rfl)
    · exact .inl hy
  · rw [hs] at hc hp
    exact .inl ⟨hc, hp⟩
  · rw [hs] at hg hk
    exact .inl ⟨hg, hk⟩

/-- What putting an item into a continuation set owes. -/
def heldDebts (s : PgfParsing P) (K : PgfItemSetId) (k : Option PgfItem) : Set Debt :=
  {d | ∃ g, d = .combine k g ∧ s.chart.gen K = some g}

/-- What predicting a category owes: its productions. -/
def predictedDebts (K : PgfItemSetId) (c : PgfCCatId) (r : Nat) (ps : List PgfProduction) : Set Debt :=
  {d | ∃ p ∈ ps, d = .produce ⟨K, c, p, r⟩}

theorem addConts_closed {c : PgfCCatId} {r : Nat} {ccat : PgfCCat} (h : Closed D s) (hc : s'.chart = s.chart.addConts c r)
    (hn : s.chart.conts c r = none) (he : s.enums ⊆ s'.enums) (hcc : s.chart.ccats[c]? = some ccat) :
    Closed (D ∪ predictedDebts s.chart.nsets c r ccat.prods.elems) s' := by
  refine h.change (hc ▸ Chart.addConts_grows hn) he (fun x hx => ?_) (fun c' r' K' p hk hp => ?_) (fun K g k _ hg hk => ?_)
  · rw [hc] at hx
    exact .inl hx
  · rw [hc] at hk hp
    simp only [Chart.addConts] at hk
    split at hk
    · rename_i heq
      obtain ⟨rfl, rfl⟩ := heq
      rw [Option.some.injEq] at hk
      subst hk
      obtain ⟨ccat', hcc', hm⟩ := hp
      have : s.chart.ccats[c']? = some ccat' := hcc'
      rw [hcc] at this
      cases this
      exact .inr ⟨p, hm, rfl⟩
    · exact .inl ⟨hk, hp⟩
  · rw [hc] at hg hk
    exact .inl ⟨hg, hk⟩

theorem hold_closed {K : PgfItemSetId} {k : Option PgfItem} (h : Closed D s) (hi : set_insert s K k = .ok s') :
    Closed (D ∪ heldDebts s K k) s' := by
  obtain ⟨set', hs', hc⟩ := set_insert_ok hi
  have hg : Chart.Grows s.chart s'.chart := hc ▸ Chart.hold_grows K k
  refine h.change hg (by rw [hs']; exact List.Subset.refl _) (fun x hx => ?_) (fun c r K' p hc' hp => ?_)
    (fun K' g k' _ hgen hk => ?_)
  · rw [hc] at hx
    exact .inl hx
  · rw [hc] at hc' hp
    exact .inl ⟨hc', hp⟩
  · rw [hc] at hgen hk
    simp only [Chart.hold] at hgen hk
    split at hk
    · rename_i he
      subst he
      rcases hk with rfl | hk
      · exact .inr ⟨g, rfl, hgen⟩
      · exact .inl ⟨hgen, hk⟩
    · exact .inl ⟨hgen, hk⟩

theorem add_transition_keeps {x : PgfItem} {tok : Option PgfToken} (hx : x ∈ s.chart.seen) (hr : Reads x tok)
    (h : pgf_parsing_add_transition s tok x = .ok s') :
    Keeps scans starts s s' ∧ ∃ T, s'.chart.toks tok = some T ∧ some x ∈ s'.chart.held T := by
  obtain ⟨T, -, hc⟩ := add_transition_ok h
  have hhold : ∀ C : Chart, C.toks tok = some T → s'.chart = C.hold T (some x) →
      s'.chart.toks tok = some T ∧ some x ∈ s'.chart.held T ∧
        ∀ K k, IsConts s'.chart K → k ∈ s'.chart.held K → k ∈ C.held K := by
    intro C hC he
    rw [he]
    refine ⟨hC, by simp [Chart.hold], fun K k hK hk => ?_⟩
    simp only [Chart.hold] at hk
    split at hk
    · rename_i hKT
      exact absurd (hKT ▸ hC) (hK tok)
    · exact hk
  have hreach : Reaches scans starts s s' := add_transition_reaches hx hr h
  obtain ⟨hs, hc⟩ | ⟨hn, rfl, hc⟩ := hc
  · obtain ⟨h₁, h₂, h₃⟩ := hhold _ hs hc
    refine ⟨.of_same hreach (by rw [hc]; rfl) (fun c r K hk => ?_) (by rw [hc]; rfl) (by rw [hc]; rfl) h₃, T, h₁, h₂⟩
    rw [hc] at hk
    exact hk
  · obtain ⟨h₁, h₂, h₃⟩ := hhold (s.chart.addToks tok) (by simp [Chart.addToks]) hc
    refine ⟨.of_same hreach (by rw [hc]; rfl) (fun c r K hk => ?_) (by rw [hc]; rfl) (by rw [hc]; rfl) h₃, _, h₁, h₂⟩
    rw [hc] at hk
    exact hk

theorem forEach_toks {x : PgfItem} : ∀ {toks : List (Option PgfToken)} {s : PgfParsing P}, x ∈ s.chart.seen →
    (∀ tok ∈ toks, Reads x tok) → forEach (fun s tok => pgf_parsing_add_transition s tok x) toks s = .ok s' →
    Keeps scans starts s s' ∧ ∀ tok ∈ toks, ∃ T, s'.chart.toks tok = some T ∧ some x ∈ s'.chart.held T := by
  intro toks
  induction toks with
  | nil =>
    intro s _ _ h
    simp only [forEach_nil, Except.ok.injEq] at h
    exact ⟨h ▸ .refl s, by simp⟩
  | cons tok toks ih =>
    intro s hx hr h
    obtain ⟨s₁, h₁, h⟩ := Exec.bind_ok.1 h
    obtain ⟨(hk : Keeps scans starts s s₁), T, hT, hm⟩ := add_transition_keeps hx (hr tok List.mem_cons_self) h₁
    obtain ⟨hk', hts⟩ := ih (hk.grows.seen hx) (fun t ht => hr t (List.mem_cons_of_mem _ ht)) h
    refine ⟨hk.trans hk', fun t ht => ?_⟩
    rcases List.mem_cons.1 ht with rfl | ht
    · exact ⟨T, hk'.grows.toks hT, hk'.grows.held _ hm⟩
    · exact hts t ht

/-! ## The recursive functions pay what they take -/

section Rec
variable {f : PgfParsing P → PgfItem → Exec (PgfParsing P)}
  (hf : ∀ {s x s'}, s.chart.Wf starts → Chart.Justified scans s.chart x → f s x = .ok s' →
    Keeps scans starts s s' ∧ x ∈ s'.chart.seen)
include hf

theorem production_keeps {c : PgfCCatId} {r : Nat} {p : PgfProduction} {K : PgfItemSetId} (hw : s.chart.Wf starts)
    (hc : s.chart.conts c r = some K) (hp : s.chart.Prod c p) (h : pgf_parsing_production f s c r p K = .ok s') :
    Keeps scans starts s s' ∧ s'.chart.Produced ⟨K, c, p, r⟩ := by
  obtain ⟨x, hx, h⟩ := production_ok h
  obtain ⟨hk, hs⟩ := hf hw (.predicted hc hp hx) h
  exact ⟨hk, x, hx, hs⟩

theorem combine_keeps {K : PgfItemSetId} {k : Option PgfItem} {g : PgfCCatId} (hw : s.chart.Wf starts)
    (hg : s.chart.gen K = some g) (hk : k ∈ s.chart.held K) (h : pgf_parsing_combine f s k g = .ok s') :
    Keeps scans starts s s' ∧ s'.chart.Combined k g := by
  obtain ⟨rfl, h⟩ | ⟨y, x, rfl, hx, h⟩ := combine_ok h
  · obtain ⟨hc, -⟩ := push_completed_ok h
    refine ⟨.of_same (push_completed_reaches hg hk h) (by rw [hc]; rfl) (fun c r K hK => ?_) (by rw [hc]; rfl)
      (by rw [hc]; rfl) (fun K k _ hk => ?_), ?_⟩
    · rw [hc] at hK
      exact hK
    · rw [hc] at hk
      exact hk
    · show g ∈ s'.chart.completed
      rw [hc]
      exact List.mem_append_right _ List.mem_cons_self
  · obtain ⟨hk, hs⟩ := hf hw (.combined hg hk hx) h
    exact ⟨hk, x, hx, hs⟩

theorem produce_all {c : PgfCCatId} {r : Nat} {K : PgfItemSetId} : ∀ {ps : List PgfProduction} {s : PgfParsing P},
    s.chart.Wf starts → s.chart.conts c r = some K → (∀ p ∈ ps, s.chart.Prod c p) →
    forEach (fun s p => pgf_parsing_production f s c r p K) ps s = .ok s' →
    Keeps scans starts s s' ∧ ∀ p ∈ ps, s'.chart.Produced ⟨K, c, p, r⟩ := by
  intro ps
  induction ps with
  | nil =>
    intro s _ _ _ h
    simp only [forEach_nil, Except.ok.injEq] at h
    exact ⟨h ▸ .refl s, by simp⟩
  | cons p ps ih =>
    intro s hw hc hps h
    obtain ⟨s₁, h₁, h⟩ := Exec.bind_ok.1 h
    obtain ⟨hk, hp⟩ := production_keeps hf hw hc (hps p List.mem_cons_self) h₁
    obtain ⟨hk', hps'⟩ := ih (hk.wf hw) (hk.grows.conts hc)
      (fun q hq => hk.grows.prod (hps q (List.mem_cons_of_mem _ hq))) h
    refine ⟨hk.trans hk', fun q hq => ?_⟩
    rcases List.mem_cons.1 hq with rfl | hq
    · exact hk'.grows.produced hp
    · exact hps' q hq

theorem repredict_all {g : PgfCCatId} {p : PgfProduction} {n : Nat} (hw : s.chart.Wf starts) (hp : s.chart.Prod g p)
    (h : forEach (repredict f g p) (List.range n) s = .ok s') :
    Keeps scans starts s s' ∧ ∀ i < n, ∀ K, s.chart.conts g i = some K → s'.chart.Produced ⟨K, g, p, i⟩ := by
  refine forEach_range (P := fun j t => Keeps scans starts s t ∧
    ∀ i < j, ∀ K, s.chart.conts g i = some K → t.chart.Produced ⟨K, g, p, i⟩) (fun j t t' _ ⟨hk, hi⟩ ht => ?_)
    ⟨.refl s, by simp⟩ h
  obtain ⟨K, hK, ht⟩ | ⟨hn, rfl⟩ := repredict_ok ht
  · obtain ⟨hk', hpr⟩ := production_keeps hf (hk.wf hw) hK (hk.grows.prod hp) ht
    refine ⟨hk.trans hk', fun i hij K' hK' => ?_⟩
    rcases Nat.lt_succ_iff_lt_or_eq.1 hij with hij | rfl
    · exact hk'.grows.produced (hi i hij K' hK')
    · have := hk.grows.conts hK'
      rw [hK] at this
      cases this
      exact hpr
  · refine ⟨hk, fun i hij K' hK' => ?_⟩
    rcases Nat.lt_succ_iff_lt_or_eq.1 hij with hij | rfl
    · exact hi i hij K' hK'
    · rw [hk.grows.conts hK'] at hn
      cases hn

/-- The loop over the continuations combines all that it visits. -/
theorem complete_loop_keeps {K : PgfItemSetId} {g : PgfCCatId} {start : PgfItemSet P} :
    ∀ {n cursor : Nat} {rounds : List (EnumRound P)} {s : PgfParsing P}, s.chart.Wf starts → s.chart.gen K = some g →
      (∀ set rs, s.heap.sets[K]? = some set → EnumRun cursor set rs → EnumRun 0 start (rounds ++ rs)) →
      pgf_parsing_complete_loop f K g start n cursor rounds s = .ok s' →
      Keeps scans starts s s' ∧ ∃ rs, (⟨start, rounds ++ rs⟩ : Enumeration P) ∈ s'.enums ∧
        ∀ r ∈ rs, s'.chart.Combined r.cont g := by
  intro n
  induction n with
  | zero => intro cursor rounds s _ _ _ h; simp [pgf_parsing_complete_loop] at h
  | succ n ih =>
    intro cursor rounds s hw hg hrun h
    unfold pgf_parsing_complete_loop at h
    obtain ⟨before, hb, h⟩ := Exec.bind_ok.1 h
    rw [Exec.deref_ok] at hb
    cases hn : before.next cursor with
    | none =>
      simp only [hn, Exec.pure_eq, Except.ok.injEq] at h
      subst h
      refine ⟨.of_same (.of_chart rfl rfl rfl ⟨_, rfl, fun e he => ?_⟩) rfl (fun _ _ _ h => h) rfl rfl (fun _ _ _ h => h),
        [], ?_, by simp⟩
      · rw [List.mem_singleton] at he
        have := hrun before [] hb hn
        rw [List.append_nil] at this
        exact he ▸ this
      · rw [List.append_nil]
        exact List.mem_append_right _ List.mem_cons_self
    | some kc =>
      obtain ⟨k, cursor'⟩ := kc
      simp only [hn] at h
      obtain ⟨s₁, h₁, h⟩ := Exec.bind_ok.1 h
      obtain ⟨after, ha, h⟩ := Exec.bind_ok.1 h
      rw [Exec.deref_ok] at ha
      obtain ⟨hk, hc⟩ := combine_keeps hf hw hg ⟨before, hb, (GuSet.next_some hn).2.1⟩ h₁
      obtain ⟨hk', rs, hrs, hcs⟩ := ih (hk.wf hw) (hk.grows.gen hg) (fun set rs hset hrs => by
        rw [ha] at hset
        cases hset
        rw [List.append_assoc, List.singleton_append]
        exact hrun before _ hb ⟨rfl, hn, hrs⟩) h
      refine ⟨hk.trans hk', ⟨k, cursor', before, after⟩ :: rs, ?_, fun r hr => ?_⟩
      · rwa [List.append_assoc, List.singleton_append] at hrs
      · rcases List.mem_cons.1 hr with rfl | hr
        · exact hk'.grows.combined hc
        · exact hcs r hr

theorem predict_keeps {k : Option PgfItem} {c : PgfCCatId} {r : Nat} (hw : s.chart.Wf starts)
    (hk : Chart.Waits starts s.chart c r k) (h : pgf_parsing_predict f s k c r = .ok s') :
    Keeps scans starts s s' ∧ ((∃ ccat : PgfCCat, s'.chart.ccats[c]? = some ccat ∧ ccat.prods.isNull = true) ∨
      ∃ K, s'.chart.conts c r = some K ∧ k ∈ s'.chart.held K) := by
  obtain ⟨ccat, hccat, ⟨hnull, rfl⟩ | ⟨hnull, s₁, K, s₃, h₁, h₃, h⟩⟩ := predict_ok h
  · exact ⟨.refl s', .inl ⟨ccat, hccat, hnull⟩⟩
  obtain ⟨(hr₁ : Reaches scans starts s s₁), hK, -, hch⟩ := get_conts_ok hk hccat hnull h₁
  have hw₁ := hw.steps hr₁.steps
  -- all that is owed after the loop is the continuation, where the category is already complete
  have main : Reaches scans starts s s₃ ∧ Chart.Grows s₁.chart s₃.chart ∧ k ∈ s₃.chart.held K ∧
      ∀ {D}, Closed D s → Closed (D ∪ heldDebts s₁ K k) s₃ := by
    obtain ⟨hm, rfl⟩ | ⟨s₂, -, h₂, h₃⟩ := h₃
    · refine ⟨hr₁, .refl _, hm, fun {D} hD => ?_⟩
      obtain hc | ⟨hn, hc⟩ := hch
      · have hsame : Keeps scans starts s s₃ :=
          .of_same hr₁ (by rw [hc]) (fun c r K h => hc ▸ h) (by rw [hc]) (by rw [hc]) (fun K k _ h => hc ▸ h)
        exact (hsame.closed hD).mono Set.subset_union_left
      · -- a new set is empty
        rw [hc] at hK hm
        simp only [Chart.addConts, and_self, if_true, Option.some.injEq] at hK hm
        exact absurd (hw.held_lt hm) (hK ▸ Nat.lt_irrefl _)
    · have hr₂ : Reaches scans starts s₁ s₂ :=
        set_insert_reaches h₂ (.hold (hr₁.grows.waits hk) hK) fun m n ho => ho.conts hK
      have hprods : ∀ p ∈ ccat.prods.elems, s₂.chart.Prod c p := fun p hp =>
        (hr₁.trans hr₂).grows.prod ⟨ccat, hccat, hp⟩
      obtain ⟨hk₃, hpaid⟩ := produce_all hf (hw₁.steps hr₂.steps) (hr₂.grows.conts hK) hprods h₃
      have hheld : k ∈ s₂.chart.held K := by
        obtain ⟨_, -, hc⟩ := set_insert_ok h₂
        rw [hc]
        simp [Chart.hold]
      refine ⟨hr₁.trans (hr₂.trans hk₃.reaches), hr₂.grows.trans hk₃.grows, hk₃.grows.held _ hheld, fun {D} hD => ?_⟩
      have hD₁ : Closed (D ∪ predictedDebts K c r ccat.prods.elems) s₁ := by
        obtain hc | ⟨hn, hc⟩ := hch
        · have hsame : Keeps scans starts s s₁ :=
            .of_same hr₁ (by rw [hc]) (fun c r K h => hc ▸ h) (by rw [hc]) (by rw [hc]) (fun K k _ h => hc ▸ h)
          exact (hsame.closed hD).mono Set.subset_union_left
        · have hKn : K = s.chart.nsets := by
            rw [hc] at hK
            simpa [Chart.addConts] using hK.symm
          exact hKn ▸ addConts_closed hD hc hn (enums_subset hr₁) hccat
      have hD₂ := hk₃.closed (hold_closed hD₁ h₂)
      rw [Set.union_right_comm] at hD₂
      refine hD₂.pay fun d hd => ?_
      obtain ⟨p, hp, rfl⟩ := hd
      exact hpaid p hp
  obtain ⟨hr₃, hg₃, hheld, hD₃⟩ := main
  obtain ⟨g, hg, h⟩ | ⟨hg, rfl⟩ := h
  · obtain ⟨hk₄, hcomb⟩ := combine_keeps hf (hw.steps hr₃.steps) hg hheld h
    refine ⟨⟨hr₃.trans hk₄.reaches, fun {D} hD => (hk₄.closed (hD₃ hD)).pay fun d hd => ?_⟩,
      .inr ⟨K, hk₄.grows.conts (hg₃.conts hK), hk₄.grows.held _ hheld⟩⟩
    obtain ⟨g', rfl, hg'⟩ := hd
    rw [hg₃.gen hg'] at hg
    cases hg
    exact hcomb
  · refine ⟨⟨hr₃, fun {D} hD => (hD₃ hD).pay fun d hd => ?_⟩, .inr ⟨K, hg₃.conts hK, hheld⟩⟩
    obtain ⟨g', rfl, hg'⟩ := hd
    rw [hg₃.gen hg'] at hg
    cases hg

/-- What pushing a production of a category that exists owes. -/
def pushedDebts (s : PgfParsing P) (g : PgfCCatId) (p : PgfProduction) : Set Debt :=
  {d | ∃ i K, d = .produce ⟨K, g, p, i⟩ ∧ s.chart.conts g i = some K}

omit hf in
theorem push_closed {g : PgfCCatId} {p : PgfProduction} (h : Closed D s) (hi : push_prod s g p = .ok s') :
    Closed (D ∪ pushedDebts s g p) s' := by
  obtain ⟨ccat, ps, hcc, hps, hs', hc⟩ := push_prod_ok hi
  refine h.change (hc ▸ Chart.setCCat_grows hcc hps) (by rw [hs']; exact List.Subset.refl _) (fun x hx => ?_)
    (fun c r K q hk hq => ?_) (fun K g k _ hg hk => ?_)
  · rw [hc] at hx
    exact .inl hx
  · rw [hc] at hk hq
    obtain ⟨ccat', hcc', hm⟩ := hq
    simp only [Chart.setCCat, List.getElem?_set] at hcc'
    split at hcc'
    · rename_i he
      subst he
      have hlt : g < s.chart.ccats.length := (List.getElem?_eq_some_iff.1 hcc).1
      rw [if_pos hlt, Option.some.injEq] at hcc'
      subst hcc'
      simp only [PgfProductions.elems, List.mem_append, List.mem_singleton] at hm
      rcases hm with hm | rfl
      · exact .inl ⟨hk, ccat, hcc, by rw [hps]; exact hm⟩
      · exact .inr ⟨r, K, rfl, hk⟩
    · exact .inl ⟨hk, ccat', hcc', hm⟩
  · rw [hc] at hg hk
    exact .inl ⟨hg, hk⟩

omit hf in
/-- A new category owes its continuations. -/
theorem addGen_closed {K : PgfItemSetId} {ccat : PgfCCat} {start : PgfItemSet P} (h : Closed D s)
    (hw : s.chart.Wf starts) (hc : s'.chart = s.chart.addGen K ccat) (hn : s.chart.gen K = none)
    (he : s.enums ⊆ s'.enums) (hst : s'.heap.sets[K]? = some start) :
    Closed (D ∪ {d | ∃ k ∈ start, d = .combine k s.chart.ccats.length}) s' := by
  refine h.change (hc ▸ Chart.addGen_grows hn) he (fun x hx => ?_) (fun c r K' p hk hp => ?_) (fun K' g k _ hg hk => ?_)
  · rw [hc] at hx
    exact .inl hx
  · rw [hc] at hk hp
    obtain ⟨ccat', hcc', hm⟩ := hp
    simp only [Chart.addGen] at hcc'
    rw [List.getElem?_append_left (hw.conts_lt hk).2] at hcc'
    exact .inl ⟨hk, ccat', hcc', hm⟩
  · have hk' := hk
    rw [hc] at hg hk
    simp only [Chart.addGen, Function.update_apply] at hg
    split at hg
    · rename_i heq
      subst heq
      rw [Option.some.injEq] at hg
      subst hg
      obtain ⟨set, hset, hm⟩ := hk'
      rw [hst] at hset
      cases hset
      exact .inr ⟨k, hm, rfl⟩
    · exact .inl ⟨hg, hk⟩

theorem complete_closed {x : PgfItem} (hw : s.chart.Wf starts) (hcomp : Complete x)
    (h : pgf_parsing_complete f s x = .ok s') :
    Chart.Grows s.chart s'.chart ∧ s'.chart.Processed x ∧ ∀ {D}, Closed D s → Closed D s' := by
  have hproc : ∀ {C : Chart} {p g}, completed_prod x = .ok p → C.gen x.base.conts = some g → C.Prod g p →
      C.Processed x := fun hp hg hm =>
    ⟨fun hw => absurd hcomp hw.not_complete, fun hr => absurd hcomp hr.not_complete, fun _ => ⟨_, _, hp, hg, hm⟩⟩
  obtain ⟨p, hp, ⟨g, s₁, s₂, l, hg, h₁, h₂, h⟩ | ⟨hg, ccat, s₁, start, hccat, h₁, hst, h⟩⟩ := complete_ok h
  · obtain ⟨ccat, ps, hcc, hps, -, hc⟩ := push_prod_ok h₁
    obtain ⟨hc₂, hl, -, -, -⟩ := get_contss_ok h₂
    have hr₂ : Reaches scans starts s₁ s₂ := get_contss_reaches h₂
    have hk₂ : Keeps scans starts s₁ s₂ :=
      .of_same hr₂ (by rw [hc₂]) (fun c r K h => hc₂ ▸ h) (by rw [hc₂]) (by rw [hc₂]) (fun K k _ h => hc₂ ▸ h)
    have hg₁ : Chart.Grows s.chart s₁.chart := hc ▸ Chart.setCCat_grows hcc hps
    have hp₁ : s₁.chart.Prod g p := by
      have hlt : g < s.chart.ccats.length := (List.getElem?_eq_some_iff.1 hcc).1
      rw [hc]
      exact ⟨_, List.getElem?_set_self hlt, by simp [PgfProductions.elems]⟩
    have hw₁ : s₁.chart.Wf starts := hc ▸ hw.setCCat
    obtain ⟨hk₃, hprod⟩ := repredict_all hf (hk₂.wf hw₁) (hk₂.grows.prod hp₁) h
    have hgrow := hg₁.trans (hk₂.grows.trans hk₃.grows)
    refine ⟨hgrow, hproc hp (hgrow.gen hg) ((hk₂.grows.trans hk₃.grows).prod hp₁), fun {D} hD => ?_⟩
    refine (hk₃.closed (hk₂.closed (push_closed hD h₁))).pay fun d hd => ?_
    obtain ⟨i, K, rfl, hK⟩ := hd
    have hK₂ : s₂.chart.conts g i = some K := (hg₁.trans hk₂.grows).conts hK
    refine hprod i ?_ K hK₂
    have hli : s₂.chart.conts g i = (l[i]?).join := by simp [chart, hl]
    rw [hli] at hK₂
    by_contra hge
    rw [List.getElem?_eq_none (Nat.le_of_not_lt hge)] at hK₂
    cases hK₂
  · obtain ⟨ccat', ps, hcc', hps, hs₁, hc⟩ := push_prod_ok h₁
    have hnew : ccat' = ⟨ccat.cnccat, .buf [], s.heap.next_fid - 1⟩ := by
      simpa [pgf_parsing_create_completed] using hcc'.symm
    subst hnew
    cases hps
    have hc₁ : s₁.chart = s.chart.addGen x.base.conts ⟨ccat.cnccat, .buf [p], s.heap.next_fid - 1⟩ := by
      rw [hc]
      apply Chart.ext <;> try rfl
      simp only [chart, Chart.addGen, Chart.setCCat, pgf_parsing_create_completed]
      rw [List.set_append_right _ _ (Nat.le_refl _), Nat.sub_self]
      rfl
    have he₁ : s₁.enums = s.enums := by rw [hs₁]; rfl
    have hg₁ : Chart.Grows s.chart s₁.chart := hc₁ ▸ Chart.addGen_grows hg
    have hgen : s₁.chart.gen x.base.conts = some s.heap.ccats.length := by
      rw [hc₁]
      simp [Chart.addGen, chart]
    have hp₁ : s₁.chart.Prod s.heap.ccats.length p := by
      rw [hc₁]
      exact ⟨_, List.getElem?_concat_length, by simp [PgfProductions.elems]⟩
    obtain ⟨hk, rs, hrs, hcs⟩ := complete_loop_keeps hf (hc₁ ▸ hw.addGen) hgen (fun set rs hset hrs => by
      rw [hst] at hset
      cases hset
      exact hrs) h
    refine ⟨hg₁.trans hk.grows, hproc hp (hk.grows.gen hgen) (hk.grows.prod hp₁), fun {D} hD => ?_⟩
    refine (hk.closed (addGen_closed hD hw hc₁ hg (he₁ ▸ List.Subset.refl _) hst)).settle fun d hd => ?_
    obtain ⟨k, hks, rfl⟩ := hd
    by_cases hv : ∃ r ∈ rs, r.cont = k
    · obtain ⟨r, hr, rfl⟩ := hv
      exact .inl (hcs r hr)
    · exact .inr ⟨k, _, rfl, _, hrs, hks, fun r hr he => hv ⟨r, hr, he⟩⟩

end Rec

theorem item_keeps : ∀ {fuel : Nat} {s s' : PgfParsing P} {x : PgfItem}, s.chart.Wf starts →
    Chart.Justified scans s.chart x → pgf_parsing_item fuel s x = .ok s' →
    Keeps scans starts s s' ∧ x ∈ s'.chart.seen := by
  intro fuel
  induction fuel with
  | zero => intro s s' x _ _ h; simp [pgf_parsing_item] at h
  | succ fuel ih =>
    intro s s' x hw hj h
    have hreach : Reaches scans starts s s' := item_reaches hj h
    obtain ⟨hx, rfl⟩ | ⟨hx, t, h, hc, hh, hp, he⟩ := item_ok h
    · exact ⟨.refl s', hx⟩
    have hseen : x ∈ t.chart.seen := hc ▸ Set.mem_insert _ _
    have hw' : t.chart.Wf starts := hc ▸ hw.see
    -- the item is owed until it is processed
    have main : Chart.Grows t.chart s'.chart ∧ s'.chart.Processed x ∧ ∀ {D}, Closed D t → Closed D s' := by
      obtain ⟨hcomp, h⟩ | ⟨c, r, ha, h⟩ | ⟨hn, hna, toks, hreads, h⟩ := new_item_ok h
      · exact complete_closed ih hw' hcomp h
      · obtain ⟨hk, hp⟩ := predict_keeps (k := some x) ih hw' ⟨hseen, ha⟩ h
        refine ⟨hk.grows, ⟨fun ha' => ?_, fun hr => absurd hr ha.not_reads, fun hc => absurd hc ha.not_complete⟩, hk.closed⟩
        obtain ⟨rfl, rfl⟩ := ha.unique ha'
        exact hp
      · obtain ⟨(hk : Keeps scans starts t s'), hfiled⟩ := forEach_toks hseen (fun tok ht => (hreads tok).2 ht) h
        exact ⟨hk.grows, ⟨fun ha => absurd ha (hna _ _), fun hr => hfiled _ ((hreads _).1 hr), fun hc => absurd hc hn⟩,
          hk.closed⟩
    obtain ⟨hgr, hproc, hcl⟩ := main
    refine ⟨⟨hreach, fun {D} hD => ?_⟩, hgr.seen hseen⟩
    refine (hcl (see_closed hD hc he)).pay fun d hd => ?_
    rw [Set.mem_singleton_iff] at hd
    exact hd ▸ hproc

/-! ## Whole calls -/

theorem scan_keeps {x : PgfItem} {tok : PgfToken} {fuel : Nat} (hw : s.chart.Wf starts)
    (hj : ∀ forms alt toks y, scan_forms x = .ok forms → (alt, toks) ∈ forms →
      scanned x tok alt toks = .ok (some y) → scans y) (h : pgf_parsing_scan fuel s x tok = .ok s') :
    Keeps scans starts s s' ∧ ∀ forms alt toks y, scan_forms x = .ok forms → (alt, toks) ∈ forms →
      scanned x tok alt toks = .ok (some y) → y ∈ s'.chart.seen := by
  obtain ⟨forms, hf, h⟩ := scan_ok h
  have main : ∀ {fs : List (Nat × PgfTokens)} {a a' : PgfParsing P × Bool}, a.1.chart.Wf starts → fs ⊆ forms →
      forEach (scan_form fuel x tok) fs a = .ok a' → Keeps scans starts a.1 a'.1 ∧
        ∀ alt toks y, (alt, toks) ∈ fs → scanned x tok alt toks = .ok (some y) → y ∈ a'.1.chart.seen := by
    intro fs
    induction fs with
    | nil =>
      intro a a' _ _ h
      simp only [forEach_nil, Except.ok.injEq] at h
      exact ⟨h ▸ .refl a.1, by simp⟩
    | cons form fs ih =>
      intro a a' hwa hsub h
      obtain ⟨a₁, h₁, h⟩ := Exec.bind_ok.1 h
      obtain ⟨⟨t, b⟩, ht, h₁⟩ := Exec.bind_ok.1 h₁
      simp only [Exec.pure_eq, Except.ok.injEq] at h₁
      subst h₁
      have hmem : form ∈ forms := hsub List.mem_cons_self
      have hstep : Keeps scans starts a.1 t ∧ ∀ y, scanned x tok form.1 form.2 = .ok (some y) → y ∈ t.chart.seen := by
        obtain ⟨y, hy, hi, -⟩ | ⟨hn, rfl, -⟩ := scan_toks_ok ht
        · obtain ⟨hk, hs⟩ := item_keeps hwa (.scanned (hj forms _ _ y hf hmem hy)) hi
          refine ⟨hk, fun y' hy' => ?_⟩
          rw [hy] at hy'
          cases hy'
          exact hs
        · refine ⟨.refl _, fun y' hy' => ?_⟩
          rw [hn] at hy'
          cases hy'
      obtain ⟨hk, hs⟩ := ih (hstep.1.wf hwa) (fun _ hm => hsub (List.mem_cons_of_mem _ hm)) h
      refine ⟨hstep.1.trans hk, fun alt toks y hm hy => ?_⟩
      rcases List.mem_cons.1 hm with rfl | hm
      · exact hk.grows.seen (hstep.2 y hy)
      · exact hs alt toks y hm hy
  obtain ⟨hk, hs⟩ := main hw (List.Subset.refl _) h
  refine ⟨hk, fun forms' alt toks y hf' hm hy => ?_⟩
  rw [hf] at hf'
  cases hf'
  exact hs alt toks y hm hy

/-- What the loop over the agenda has scanned when it ends. -/
theorem token_loop_keeps {h : Heap P} {p : Nat} {tok : PgfToken} {T : PgfItemSetId} {items : PgfItemSet P} {fuel : Nat}
    (hT : Origin.Agenda h p (some tok) T) (hitems : h.sets[T]? = some items) :
    ∀ {n cursor : Nat} {s s' : PgfParsing P}, s.chart.Wf ((Origin.token p tok).Starts P) →
      s.chart.Own h.sets.length h.ccats.length → h.parses.length ≤ s.parse → h.Le s.heap →
      pgf_parse_token_loop fuel T tok n cursor s = .ok s' →
      Keeps ((Origin.token p tok).Scans h) ((Origin.token p tok).Starts P) s s' ∧
        ∀ x forms alt toks y, items.Ahead cursor (some x) → scan_forms x = .ok forms → (alt, toks) ∈ forms →
          scanned x tok alt toks = .ok (some y) → y ∈ s'.chart.seen := by
  intro n
  induction n with
  | zero => intro cursor s s' _ _ _ _ h; simp [pgf_parse_token_loop] at h
  | succ n ih =>
    intro cursor s s' hw ho hp hle hs
    unfold pgf_parse_token_loop at hs
    obtain ⟨items', hi, hs⟩ := Exec.bind_ok.1 hs
    rw [Exec.deref_ok] at hi
    have hlt := (List.getElem?_eq_some_iff.1 hitems).1
    rw [← prefix_getElem? hle.sets hlt, hitems] at hi
    cases hi
    cases hn : items.next cursor with
    | none =>
      simp only [hn, Exec.pure_eq, Except.ok.injEq] at hs
      exact ⟨hs ▸ .refl s, fun x _ _ _ _ ha => absurd ha (GuSet.next_none hn)⟩
    | some kc =>
      obtain ⟨k, cursor'⟩ := kc
      simp only [hn] at hs
      obtain ⟨x, hx, hs⟩ := Exec.bind_ok.1 hs
      obtain ⟨s₁, h₁, hs'⟩ := Exec.bind_ok.1 hs
      rw [Exec.deref_ok] at hx
      subst hx
      obtain ⟨-, hmem, -, hahead⟩ := GuSet.next_some hn
      have hj : ∀ forms alt toks z, scan_forms x = .ok forms → (alt, toks) ∈ forms →
          scanned x tok alt toks = .ok (some z) → (Origin.token p tok).Scans h z :=
        fun forms alt toks z hf hm hz => ⟨T, x, forms, alt, toks, hT, ⟨items, hitems, hmem⟩, hf, hm, hz⟩
      obtain ⟨hk, hscan⟩ := scan_keeps hw hj h₁
      obtain ⟨hk', hrest⟩ := ih (hk.wf hw) (ho.steps hk.reaches.steps) (hk.reaches.parse ▸ hp)
        (hk.reaches.frame h ho hp hle) hs'
      refine ⟨hk.trans hk', fun z forms alt toks y ha hf hm hy => ?_⟩
      rcases hahead _ ha with he | ha
      · rw [Option.some.injEq] at he
        subst he
        exact hk'.grows.seen (hscan forms alt toks y hf hm hy)
      · exact hrest z forms alt toks y ha hf hm hy

theorem new_parsing_closed {h : Heap P} (hs : pgf_new_parsing h = .ok s) : Closed ∅ s := by
  obtain ⟨hc, -⟩ := new_parsing_ok hs
  refine ⟨fun hx => ?_, fun hk _ => ?_, fun _ hg _ => ?_⟩
  · rw [hc] at hx
    cases hx
  · rw [hc] at hk
    cases hk
  · rw [hc] at hg
    cases hg

end PgfParsing

/-- What holds of the chart of a call that has returned. -/
structure Finished (h : Heap P) (o : Origin) (s : PgfParsing P) : Prop where
  closed : PgfParsing.Closed ∅ s
  scanned : ∀ x, o.Scans h x → x ∈ s.chart.seen
  started : ∀ c r, o.Starts P c r → (∃ ccat : PgfCCat, s.chart.ccats[c]? = some ccat ∧ ccat.prods.isNull = true) ∨
    ∃ K, s.chart.conts c r = some K ∧ none ∈ s.chart.held K

theorem token_finished {h : Heap P} {p : Nat} {tok : PgfToken} {fuel : Nat} {s : PgfParsing P}
    (hs : pgf_parse_token fuel h p tok = .ok (some s)) : Finished h (.token p tok) s := by
  obtain ⟨parse, hparse, hs⟩ := Exec.bind_ok.1 hs
  rw [Exec.deref_ok] at hparse
  cases hT : parse.transitions (some tok) with
  | none => simp [hT] at hs
  | some T =>
    simp only [hT] at hs
    obtain ⟨s₀, h₀, hs⟩ := Exec.bind_ok.1 hs
    obtain ⟨s₁, h₁, hs⟩ := Exec.bind_ok.1 hs
    simp only [Exec.pure_eq, Except.ok.injEq, Option.some.injEq] at hs
    subst hs
    obtain ⟨hc, hp, -, hle, -⟩ := new_parsing_ok h₀
    obtain ⟨items, hi, -⟩ := Exec.bind_ok.1 h₁
    rw [Exec.deref_ok] at hi
    have hn : s₀.heap.sets.length = h.sets.length := congrArg Chart.nsets hc
    have hlt : T < h.sets.length := hn ▸ (List.getElem?_eq_some_iff.1 hi).1
    have hitems : h.sets[T]? = some items := (prefix_getElem? hle.sets hlt).trans hi
    have hagenda : Origin.Agenda h p (some tok) T := ⟨parse, hparse, hT⟩
    obtain ⟨hk, hscan⟩ := PgfParsing.token_loop_keeps hagenda hitems (hc ▸ h.chart_wf _) (hc ▸ h.chart_own) hp.ge hle h₁
    refine ⟨hk.closed (PgfParsing.new_parsing_closed h₀), ?_, fun c r hst => hst.elim⟩
    rintro x ⟨T', y, forms, alt, toks, ⟨parse', hparse', hT'⟩, ⟨items', hitems', hm⟩, hf, hmem, hx⟩
    rw [hparse] at hparse'
    cases hparse'
    rw [hT] at hT'
    cases hT'
    rw [hitems] at hitems'
    cases hitems'
    obtain ⟨i, hu, hkey⟩ := hm
    exact hscan y forms alt toks x ⟨i, Nat.zero_le _, hu, (of_decide_eq_true hkey).symm⟩ hf hmem hx

theorem parse_finished {h : Heap P} {cat : PgfCId} {lin_idx fuel : Nat} {s : PgfParsing P}
    (hs : pgf_parser_parse fuel h cat lin_idx = .ok s) : Finished h (.parse cat lin_idx) s := by
  obtain ⟨s₀, h₀, hs⟩ := Exec.bind_ok.1 hs
  have hc₀ := PgfParsing.new_parsing_closed h₀
  obtain ⟨hc, -⟩ := new_parsing_ok h₀
  cases hl : P.concr.cnccats.lookup cat with
  | none =>
    simp only [hl, Exec.pure_eq, Except.ok.injEq] at hs
    refine ⟨hs ▸ hc₀, fun x hx => hx.elim, fun c r hst => ?_⟩
    obtain ⟨-, id, cnccat, hid, -⟩ := hst
    rw [hl] at hid
    cases hid
  | some id =>
    simp only [hl] at hs
    obtain ⟨cnccat, hcnc, hs⟩ := Exec.bind_ok.1 hs
    obtain ⟨_, -, hs⟩ := Exec.bind_ok.1 hs
    rw [Exec.deref_ok] at hcnc
    have main : ∀ {cats : List (Option PgfCCatId)} {t t' : PgfParsing P}, t.chart.Wf ((Origin.parse cat lin_idx).Starts P) →
        cats ⊆ cnccat.cats → forEach (predict_start fuel lin_idx) cats t = .ok t' →
        PgfParsing.Keeps ((Origin.parse cat lin_idx).Scans h) ((Origin.parse cat lin_idx).Starts P) t t' ∧
          ∀ c, some c ∈ cats → (∃ ccat : PgfCCat, t'.chart.ccats[c]? = some ccat ∧ ccat.prods.isNull = true) ∨
            ∃ K, t'.chart.conts c lin_idx = some K ∧ none ∈ t'.chart.held K := by
      intro cats
      induction cats with
      | nil =>
        intro t t' _ _ h
        simp only [forEach_nil, Except.ok.injEq] at h
        exact ⟨h ▸ .refl t, by simp⟩
      | cons c cats ih =>
        intro t t' hw hsub h
        obtain ⟨t₁, h₁, h'⟩ := Exec.bind_ok.1 h
        have hsub' : cats ⊆ cnccat.cats := fun _ hm => hsub (List.mem_cons_of_mem _ hm)
        cases c with
        | none =>
          simp only [predict_start, Except.ok.injEq] at h₁
          subst h₁
          obtain ⟨hk, hst⟩ := ih hw hsub' h'
          exact ⟨hk, fun c hm => hst c (by simpa using hm)⟩
        | some c =>
          have hwait : Chart.Waits ((Origin.parse cat lin_idx).Starts P) t.chart c lin_idx none :=
            ⟨rfl, id, cnccat, hl, hcnc, hsub List.mem_cons_self⟩
          obtain ⟨hk, hst⟩ := PgfParsing.predict_keeps PgfParsing.item_keeps hw hwait h₁
          obtain ⟨hk', hst'⟩ := ih (hk.wf hw) hsub' h'
          refine ⟨hk.trans hk', fun c' hm => ?_⟩
          rcases List.mem_cons.1 hm with he | hm
          · cases he
            rcases hst with ⟨ccat, hcc, hnull⟩ | ⟨K, hK, hm⟩
            · obtain ⟨ccat', hcc', -, hnull', -⟩ := hk'.grows.ccats hcc
              exact .inl ⟨ccat', hcc', hnull'.trans hnull⟩
            · exact .inr ⟨K, hk'.grows.conts hK, hk'.grows.held _ hm⟩
          · exact hst' c' hm
    obtain ⟨hk, hst⟩ := main (hc ▸ h.chart_wf _) (List.Subset.refl _) hs
    refine ⟨hk.closed hc₀, fun x hx => hx.elim, fun c r hstart => ?_⟩
    obtain ⟨rfl, id', cnccat', hid, hcnc', hm⟩ := hstart
    rw [hl] at hid
    cases hid
    rw [hcnc] at hcnc'
    cases hcnc'
    exact hst c hm

theorem Origin.run_finished {h : Heap P} {o : Origin} {fuel : Nat} {s : PgfParsing P} (hs : o.run fuel h = .ok (some s)) :
    Finished h o s := by
  cases o with
  | parse cat lin_idx =>
    cases hp : pgf_parser_parse fuel h cat lin_idx with
    | error e => simp [Origin.run, hp, Except.map] at hs
    | ok s' =>
      simp only [Origin.run, hp, Except.map, Except.ok.injEq, Option.some.injEq] at hs
      exact parse_finished (hs ▸ hp)
  | token p tok => exact token_finished hs

end Libpgf
