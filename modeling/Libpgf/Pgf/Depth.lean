import Libpgf.Gu.MapDepth
import Libpgf.Pgf.Session
/-!
# Where a call runs out of depth

A call that runs out of depth does so at an item that may be seen in a chart
that it has reached. Every item on the way there is a new one, so the chart has
seen as many items as the call was allowed to go deep.
-/

namespace Libpgf

variable {P : PgfParser}

open Exec

/-! ## Functions that do not process items -/

theorem new_item_deep (base : PgfItemBase) : Deep (pgf_new_item base) := by
  refine .bind ?_ fun _ _ => deep_ok _
  unfold pgf_item_base_symbol
  split
  · exact .bind (deep_deref _) fun _ _ => .bind (deep_require _) fun _ _ => deep_ok _
  · exact .bind (deep_require _) fun _ _ => deep_ok _

theorem item_advance_deep (x : PgfItem) : Deep (pgf_item_advance x) := by
  refine .bind ?_ fun _ _ => deep_ok _
  unfold pgf_item_base_symbol
  split
  · exact .bind (deep_deref _) fun _ _ => .bind (deep_require _) fun _ _ => deep_ok _
  · exact .bind (deep_require _) fun _ _ => deep_ok _

theorem combined_deep (k : PgfItem) (g : PgfCCatId) : Deep (combined k g) := by
  unfold combined
  split
  · exact .bind (deep_require _) fun _ _ => item_advance_deep _
  · exact deep_abort

theorem completed_prod_deep (x : PgfItem) : Deep (completed_prod x) := by
  unfold completed_prod
  split
  · exact deep_ok _
  · exact .bind (deep_deref _) fun _ _ => .bind (deep_require _) fun _ _ => deep_ok _

theorem token_at_deep (toks : PgfTokens) (idx : Nat) : Deep (token_at toks idx) := by
  unfold token_at
  split
  · exact deep_ok _
  split
  · exact deep_ok _
  · exact deep_abort

theorem next_tokens_deep (x : PgfItem) (sym : PgfSymbol) : Deep (next_tokens x sym) := by
  have hmap : ∀ as : List (Nat × PgfTokens), Deep (as.mapM fun a => token_at a.2 0) := by
    intro as
    induction as with
    | nil => exact deep_ok _
    | cons a as ih =>
      rw [List.mapM_cons]
      exact .bind (token_at_deep _ _) fun _ _ => .bind ih fun _ _ => deep_ok _
  unfold next_tokens
  split
  · exact .bind (token_at_deep _ _) fun _ _ => deep_ok _
  · split
    · exact .bind (token_at_deep _ _) fun _ _ => .bind (hmap _) fun _ _ => deep_ok _
    split
    · exact .bind (token_at_deep _ _) fun _ _ => deep_ok _
    · exact .bind (deep_deref _) fun _ _ => .bind (token_at_deep _ _) fun _ _ => deep_ok _
  · exact deep_ok _

theorem scan_forms_deep (x : PgfItem) : Deep (scan_forms x) := by
  unfold scan_forms
  split
  · exact deep_ok _
  · split
    · exact deep_ok _
    split
    · exact deep_ok _
    · exact .bind (deep_deref _) fun _ _ => deep_ok _
  · exact deep_abort

theorem scanned_deep (x : PgfItem) (tok : PgfToken) (alt : Nat) (toks : PgfTokens) : Deep (scanned x tok alt toks) := by
  refine .bind (token_at_deep _ _) fun t _ => ?_
  split
  · exact deep_ok _
  simp only
  split
  · exact .bind (item_advance_deep _) fun _ _ => deep_ok _
  · exact deep_ok _

/-! ## Items seen -/

/-- A chart that is reached from `C` has seen so many items that were not seen there. -/
def Chart.Sees (scans : PgfItem → Prop) (starts : PgfCCatId → Nat → Prop) (C : Chart) (n : Nat) : Prop :=
  ∃ (D : Chart) (ys : Finset PgfItem), Chart.Steps scans starts C D ∧ ys.card = n ∧ ∀ y ∈ ys, y ∈ D.seen ∧ y ∉ C.seen

theorem Chart.Sees.after {scans : PgfItem → Prop} {starts : PgfCCatId → Nat → Prop} {C C' : Chart} {n : Nat}
    (hs : Chart.Steps scans starts C C') (h : C'.Sees scans starts n) : C.Sees scans starts n := by
  obtain ⟨D, ys, hD, hcard, hys⟩ := h
  exact ⟨D, ys, hs.trans hD, hcard, fun y hy => ⟨(hys y hy).1, fun hy' => (hys y hy).2 (hs.grows.seen hy')⟩⟩

namespace PgfParsing
variable {scans : PgfItem → Prop} {starts : PgfCCatId → Nat → Prop}

theorem set_insert_deep (s : PgfParsing P) (K : PgfItemSetId) (k : Option PgfItem) : Deep (set_insert s K k) :=
  .bind (deep_deref _) fun set _ => .bind (GuSet.insert_deep set k) fun _ _ => deep_ok _

theorem new_set_deep (s : PgfParsing P) : Deep (new_set s) := .bind GuSet.new_set_deep fun _ _ => deep_ok _

theorem add_transition_deep (s : PgfParsing P) (tok : Option PgfToken) (x : PgfItem) : Deep (pgf_parsing_add_transition s tok x) := by
  refine .bind (deep_deref _) fun parse _ => ?_
  split
  · exact set_insert_deep _ _ _
  · exact .bind (new_set_deep s) fun r _ => set_insert_deep _ _ _

theorem ccat_n_ctnts_deep (ccat : PgfCCat) : Deep (ccat_n_ctnts P ccat) :=
  .bind (deep_deref _) fun _ _ => .bind (deep_deref _) fun _ _ => deep_ok _

theorem get_contss_deep (s : PgfParsing P) (c : PgfCCatId) : Deep (pgf_parsing_get_contss s c) := by
  unfold pgf_parsing_get_contss
  split
  · exact deep_ok _
  · exact .bind (deep_deref _) fun _ _ => .bind (ccat_n_ctnts_deep _) fun _ _ => deep_ok _

theorem get_conts_deep (s : PgfParsing P) (c : PgfCCatId) (r : Nat) : Deep (pgf_parsing_get_conts s c r) := by
  refine .bind (deep_deref _) fun _ _ => .bind (ccat_n_ctnts_deep _) fun _ _ => .bind (deep_require _) fun _ _ => ?_
  refine .bind (get_contss_deep s c) fun r _ => .bind (deep_deref _) fun o _ => ?_
  split
  · exact deep_ok _
  · exact .bind (new_set_deep _) fun _ _ => deep_ok _

theorem push_prod_deep (s : PgfParsing P) (g : PgfCCatId) (p : PgfProduction) : Deep (push_prod s g p) := by
  refine .bind (deep_deref _) fun ccat _ => ?_
  split
  · exact deep_ok _
  · exact deep_abort

theorem push_completed_deep (s : PgfParsing P) (g : PgfCCatId) : Deep (push_completed s g) :=
  .bind (deep_deref _) fun _ _ => deep_ok _

/-! ## Functions that process items -/

/-- From the chart `C`, a call of `f` on an item that may be seen runs out of depth. -/
def Stuck (scans : PgfItem → Prop) (starts : PgfCCatId → Nat → Prop) (f : PgfParsing P → PgfItem → Exec (PgfParsing P))
    (C : Chart) : Prop :=
  ∃ t y, Chart.Steps scans starts C t.chart ∧ Chart.Justified scans t.chart y ∧ f t y = .error .fuel

theorem Stuck.after {f : PgfParsing P → PgfItem → Exec (PgfParsing P)} {C C' : Chart} (hs : Chart.Steps scans starts C C')
    (h : Stuck scans starts f C') : Stuck scans starts f C := by
  obtain ⟨t, y, ht, hy⟩ := h
  exact ⟨t, y, hs.trans ht, hy⟩

/-- The state `s` is that after `x` is marked as seen in `t`. -/
structure Marked (t : PgfParsing P) (x : PgfItem) (s : PgfParsing P) : Prop where
  new : x ∉ t.chart.seen
  chart : s.chart = t.chart.see x
  heap : s.heap = t.heap
  parse : s.parse = t.parse
  enums : s.enums = t.enums

namespace Marked
variable {t s s₁ : PgfParsing P} {x : PgfItem} {p : PgfProduction}

/-- The production of a complete item goes to the category that its set has. -/
theorem push_old (hm : Marked t x s) (hj : Chart.Justified scans t.chart x) (hc : Complete x) (hprod : completed_prod x = .ok p)
    {g : PgfCCatId} (hg : t.chart.gen x.base.conts = some g) (h : push_prod s g p = .ok s₁) :
    Reaches scans starts t s₁ ∧ (∃ ccat, s₁.chart = (t.chart.see x).setCCat g ccat) ∧ s₁.chart.Prod g p := by
  obtain ⟨ccat, ps, hcc, hps, hs₁, hchart⟩ := push_prod_ok h
  rw [hm.chart] at hchart
  have hccats : s.heap.ccats = t.chart.ccats := congrArg Heap.ccats hm.heap
  refine ⟨⟨?_, fun base ho _ hb => ?_, ?_, ?_, same_enums ?_⟩, ⟨_, hchart⟩, ?_⟩
  · rw [hchart]
    exact .single (.complete_old hj hm.new hc hprod hg (hccats ▸ hcc) hps)
  · rw [← hm.heap] at hb
    rw [hs₁]
    exact ⟨prefix_set hb.ccats (ho.gen hg), hb.sets, hb.parses⟩
  · rw [hs₁]
    exact hm.parse
  · rw [hs₁, ← hm.heap]
  · rw [hs₁, ← hm.enums]
  · have hlt := (List.getElem?_eq_some_iff.1 hcc).1
    refine ⟨{ ccat with prods := .buf (ps ++ [p]) }, ?_, by simp [PgfProductions.elems]⟩
    rw [hs₁]
    exact List.getElem?_set_self hlt

/-- A set that has no category gets a new one. -/
theorem push_new (hm : Marked t x s) (hj : Chart.Justified scans t.chart x) (hc : Complete x) (hprod : completed_prod x = .ok p)
    (hg : t.chart.gen x.base.conts = none) {ccat : PgfCCat} (hccat : s.heap.ccats[x.base.ccat]? = some ccat)
    (h : push_prod (pgf_parsing_create_completed s x.base.conts ccat.cnccat).1 s.heap.ccats.length p = .ok s₁) :
    Reaches scans starts t s₁ ∧ (∃ ccat, s₁.chart = (t.chart.see x).addGen x.base.conts ccat) ∧
      s₁.chart.gen x.base.conts = some s.heap.ccats.length := by
  obtain ⟨ccat', ps, hcc', hps, hs₁, hchart⟩ := push_prod_ok h
  have hccats : s.heap.ccats = t.chart.ccats := congrArg Heap.ccats hm.heap
  -- the category pushed to is the new one
  have hnew : ccat' = ⟨ccat.cnccat, .buf [], s.heap.next_fid - 1⟩ := by
    simpa [pgf_parsing_create_completed] using hcc'.symm
  subst hnew
  cases hps
  have hchart' : s₁.chart = (t.chart.see x).addGen x.base.conts ⟨ccat.cnccat, .buf [p], s.heap.next_fid - 1⟩ := by
    rw [hchart, ← hm.chart]
    apply Chart.ext <;> try rfl
    simp only [PgfParsing.chart, Chart.addGen, Chart.setCCat, pgf_parsing_create_completed]
    rw [List.set_append_right _ _ (Nat.le_refl _), Nat.sub_self]
    rfl
  refine ⟨⟨?_, fun base _ _ hb => ?_, ?_, ?_, same_enums ?_⟩, ⟨_, hchart'⟩, ?_⟩
  · rw [hchart']
    exact .single (.complete_new hj hm.new hc hprod hg (hccats ▸ hccat))
  · rw [← hm.heap] at hb
    rw [hs₁]
    have hle : base.ccats <+: s.heap.ccats ++ [⟨ccat.cnccat, .buf [], s.heap.next_fid - 1⟩] :=
      hb.ccats.trans (List.prefix_append _ _)
    exact ⟨prefix_set hle hb.ccats.length_le, hb.sets, hb.parses⟩
  · rw [hs₁]
    exact hm.parse
  · rw [hs₁, ← hm.heap]
    rfl
  · rw [hs₁, ← hm.enums]
    rfl
  · rw [hchart']
    simp [Chart.addGen, Chart.see, hccats]

end Marked

section Rec
variable {f : PgfParsing P → PgfItem → Exec (PgfParsing P)} {s : PgfParsing P}

theorem production_stuck {c : PgfCCatId} {r : Nat} {p : PgfProduction} {K : PgfItemSetId} (hc : s.chart.conts c r = some K)
    (hp : s.chart.Prod c p) (h : pgf_parsing_production f s c r p K = .error .fuel) : Stuck scans starts f s.chart := by
  obtain ⟨x, hx, h⟩ := (new_item_deep _).bind_fuel h
  exact ⟨s, x, .refl, .predicted hc hp hx, h⟩

theorem combine_stuck {K : PgfItemSetId} {k : Option PgfItem} {g : PgfCCatId} (hg : s.chart.gen K = some g)
    (hk : k ∈ s.chart.held K) (h : pgf_parsing_combine f s k g = .error .fuel) : Stuck scans starts f s.chart := by
  cases k with
  | none => exact absurd h (push_completed_deep s g)
  | some k =>
    obtain ⟨x, hx, h⟩ := (combined_deep k g).bind_fuel h
    exact ⟨s, x, .refl, .combined hg hk hx, h⟩

section
variable (hf : ∀ {s x s'}, Chart.Justified scans s.chart x → f s x = .ok s' → Reaches scans starts s s')
include hf

theorem complete_loop_stuck {K : PgfItemSetId} {g : PgfCCatId} {start : PgfItemSet P} : ∀ {n cursor : Nat} {rounds : List (EnumRound P)}
    {s : PgfParsing P}, s.chart.gen K = some g → pgf_parsing_complete_loop f K g start n cursor rounds s = .error .fuel →
      Stuck scans starts f s.chart := by
  intro n
  induction n with
  | zero => intro cursor rounds s _ h; exact absurd h deep_hang
  | succ n ih =>
    intro cursor rounds s hg h
    obtain ⟨before, hb, h⟩ := (deep_deref _).bind_fuel h
    rw [deref_ok] at hb
    cases hn : before.next cursor with
    | none => simp [hn] at h
    | some kc =>
      obtain ⟨k, cursor'⟩ := kc
      simp only [hn] at h
      have hk : k ∈ s.chart.held K := ⟨before, hb, (GuSet.next_some hn).2.1⟩
      rcases bind_fuel.1 h with h | ⟨s₁, h₁, h⟩
      · exact combine_stuck hg hk h
      · obtain ⟨after, -, h⟩ := (deep_deref _).bind_fuel h
        have hr := combine_reaches hf hg hk h₁
        exact .after hr.steps (ih (hr.grows.gen hg) h)

theorem predict_stuck {k : Option PgfItem} {c : PgfCCatId} {r : Nat} (hw : Chart.Waits starts s.chart c r k)
    (h : pgf_parsing_predict f s k c r = .error .fuel) : Stuck scans starts f s.chart := by
  obtain ⟨ccat, hc, h⟩ := (deep_deref _).bind_fuel h
  rw [deref_ok] at hc
  split at h
  · cases h
  rename_i hnull
  obtain ⟨⟨s₁, K⟩, h₁, h⟩ := (get_conts_deep s c r).bind_fuel h
  obtain ⟨set, hset, h⟩ := (deep_deref _).bind_fuel h
  obtain ⟨has, hhas, h⟩ := (GuSet.has_deep set k).bind_fuel h
  rw [deref_ok] at hset
  obtain ⟨(hr₁ : Reaches scans starts s s₁), hK, -, -⟩ := get_conts_ok hw hc (by simpa using hnull) h₁
  -- the end of both branches
  have finish : ∀ {s₃ : PgfParsing P} {e : Exec (PgfParsing P)}, Chart.Steps scans starts s.chart s₃.chart → k ∈ s₃.chart.held K →
      e = .error .fuel → (∀ g, pgf_parsing_get_completed s₃ K = some g → e = pgf_parsing_combine f s₃ k g) →
      (pgf_parsing_get_completed s₃ K = none → e = .ok s₃) → Stuck scans starts f s.chart := by
    intro s₃ e hr hk he hsome hnone
    cases hg : pgf_parsing_get_completed s₃ K with
    | some g => exact .after hr (combine_stuck hg hk ((hsome g hg).symm.trans he))
    | none =>
      rw [hnone hg] at he
      cases he
  cases has with
  | true =>
    have hk : k ∈ s₁.chart.held K := ⟨set, hset, (GuSet.has_iff hhas).1 rfl⟩
    refine finish hr₁.steps hk h (fun g hg => ?_) fun hg => ?_
    · simp [hg]
    · simp [hg]
  | false =>
    obtain ⟨s₂, h₂, h⟩ := (set_insert_deep s₁ K k).bind_fuel h
    have hr₂ : Reaches scans starts s₁ s₂ :=
      set_insert_reaches h₂ (.hold (hr₁.grows.waits hw) hK) fun m n ho => ho.conts hK
    have hk : k ∈ s₂.chart.held K := by
      obtain ⟨_, -, hchart⟩ := set_insert_ok h₂
      rw [hchart]
      simp [Chart.hold]
    have hround : ∀ p ∈ ccat.prods.elems, ∀ t, Reaches scans starts s₂ t → t.chart.conts c r = some K ∧ t.chart.Prod c p := by
      intro p hp t ht
      exact ⟨ht.grows.conts (hr₂.grows.conts hK), (hr₁.trans (hr₂.trans ht)).grows.prod ⟨ccat, hc, hp⟩⟩
    have hkeep : ∀ p ∈ ccat.prods.elems, ∀ t t', Reaches scans starts s₂ t → pgf_parsing_production f t c r p K = .ok t' →
        Reaches scans starts s₂ t' := by
      intro p hp t t' ht h
      obtain ⟨hKt, hpt⟩ := hround p hp t ht
      exact ht.trans (production_reaches hf hKt hpt h)
    rcases bind_fuel.1 h with h | ⟨s₃, h₃, h⟩
    · obtain ⟨p, hp, t, ht, h⟩ := forEach_fuel hkeep (.refl s₂) h
      obtain ⟨hKt, hpt⟩ := hround p hp t ht
      exact .after ((hr₁.trans hr₂).trans ht).steps (production_stuck hKt hpt h)
    · have hr₃ := forEach_inv (P := Reaches scans starts s₂) hkeep (.refl s₂) h₃
      refine finish ((hr₁.trans hr₂).trans hr₃).steps (hr₃.grows.held _ hk) h (fun g hg => ?_) fun hg => ?_
      · simp [hg]
      · simp only [hg]
        rfl

/-- From the state in which a complete item is new, the call goes on in a chart that has seen it. -/
theorem complete_stuck {t : PgfParsing P} {x : PgfItem} (hm : Marked t x s) (hj : Chart.Justified scans t.chart x)
    (hc : Complete x) (h : pgf_parsing_complete f s x = .error .fuel) :
    ∃ C, Chart.Steps scans starts t.chart C ∧ x ∈ C.seen ∧ Stuck scans starts f C := by
  have hgen : pgf_parsing_get_completed s x.base.conts = t.chart.gen x.base.conts := by
    show s.chart.gen x.base.conts = _
    rw [hm.chart]
    rfl
  obtain ⟨p, hprod, h⟩ := (completed_prod_deep x).bind_fuel h
  cases hg : pgf_parsing_get_completed s x.base.conts with
  | some g =>
    simp only [hg] at h
    obtain ⟨s₁, h₁, h⟩ := (push_prod_deep s g p).bind_fuel h
    obtain ⟨⟨s₂, l⟩, h₂, h⟩ := (get_contss_deep s₁ g).bind_fuel h
    obtain ⟨(hr₁ : Reaches scans starts t s₁), ⟨ccat, hchart⟩, hp₁⟩ := hm.push_old hj hc hprod (hgen ▸ hg) h₁
    refine ⟨s₁.chart, hr₁.steps, hchart ▸ Set.mem_insert _ _, ?_⟩
    have hr₂ : Reaches scans starts s₁ s₂ := get_contss_reaches h₂
    have hkeep : ∀ i ∈ List.range l.length, ∀ u u', Reaches scans starts s₁ u → repredict f g p u i = .ok u' →
        Reaches scans starts s₁ u' := by
      intro i _ u u' hu h
      obtain ⟨K, hK, h⟩ | ⟨-, rfl⟩ := repredict_ok h
      · exact hu.trans (production_reaches hf hK (hu.grows.prod hp₁) h)
      · exact hu
    obtain ⟨i, -, u, hu, h⟩ := forEach_fuel hkeep hr₂ h
    refine .after hu.steps ?_
    unfold repredict at h
    split at h
    · rename_i K hK
      have hK : u.chart.conts g i = some K := by simp [chart, hK]
      exact production_stuck hK (hu.grows.prod hp₁) h
    · cases h
  | none =>
    simp only [hg] at h
    obtain ⟨ccat, hccat, h⟩ := (deep_deref _).bind_fuel h
    obtain ⟨s₁, h₁, h⟩ := (push_prod_deep _ _ p).bind_fuel h
    obtain ⟨start, -, h⟩ := (deep_deref _).bind_fuel h
    rw [deref_ok] at hccat
    obtain ⟨(hr₁ : Reaches scans starts t s₁), ⟨c, hchart⟩, hg₁⟩ := hm.push_new hj hc hprod (hgen ▸ hg) hccat h₁
    exact ⟨s₁.chart, hr₁.steps, hchart ▸ Set.mem_insert _ _, complete_loop_stuck hf hg₁ h⟩

end

end Rec

/-- An item that runs out of depth is new, and leads to another one that does at less depth. -/
theorem item_stuck {fuel : Nat} {s : PgfParsing P} {x : PgfItem} (hj : Chart.Justified scans s.chart x)
    (h : pgf_parsing_item (fuel + 1) s x = .error .fuel) : x ∉ s.chart.seen ∧
      ∃ C, Chart.Steps scans starts s.chart C ∧ x ∈ C.seen ∧ Stuck scans starts (pgf_parsing_item (P := P) fuel) C := by
  have hf : ∀ {s : PgfParsing P} {x s'}, Chart.Justified scans s.chart x → pgf_parsing_item fuel s x = .ok s' →
      Reaches scans starts s s' := item_reaches
  unfold pgf_parsing_item at h
  obtain ⟨has, hhas, h⟩ := (GuSet.has_deep s.seen_items (some x)).bind_fuel h
  cases has with
  | true => cases h
  | false =>
    have hx : x ∉ s.chart.seen := fun hx => Bool.false_ne_true ((GuSet.has_iff hhas).2 hx)
    obtain ⟨seen, hi, h⟩ := (GuSet.insert_deep s.seen_items (some x)).bind_fuel h
    have hm : Marked s x { s with seen_items := seen } := ⟨hx, see_chart hi, rfl, rfl, rfl⟩
    refine ⟨hx, ?_⟩
    generalize ({ s with seen_items := seen } : PgfParsing P) = t at h hm
    have hseen : x ∈ t.chart.seen := hm.chart ▸ Set.mem_insert _ _
    have hstep : ¬ Complete x → Chart.Steps scans starts s.chart t.chart := fun hn => hm.chart ▸ .single (.see hj hx hn)
    unfold pgf_parsing_new_item at h
    cases hp : x.base.prod with
    | COERCE coerce =>
      simp only [hp] at h
      split at h
      · rename_i h0
        have hw : Awaits x coerce x.base.lin_idx := by simp [Awaits, hp, h0]
        exact ⟨_, hstep hw.not_complete, hseen, predict_stuck (k := some x) hf ⟨hseen, hw⟩ h⟩
      · rename_i h1
        exact complete_stuck hf hm hj (by simp [Complete, hp, h1]) h
      · exact absurd h deep_abort
    | APPLY g args =>
      simp only [hp] at h
      obtain ⟨seq, hseq, h⟩ := (deep_deref _).bind_fuel h
      rw [deref_ok] at hseq
      split at h
      · rename_i hlen
        exact complete_stuck hf hm hj (by simp only [Complete, hp]; exact ⟨seq, hseq, hlen⟩) h
      · obtain ⟨sym, hsym, h⟩ := (deep_deref _).bind_fuel h
        rw [deref_ok] at hsym
        have hfile : ∀ {sym : PgfSymbol}, Deep (next_tokens x sym >>= fun toks =>
            forEach (fun s tok => pgf_parsing_add_transition s tok x) toks t) := by
          intro sym
          exact .bind (next_tokens_deep x sym) fun toks _ => forEach_deep (fun tok s => add_transition_deep s tok x) toks t
        cases sym with
        | CAT d r =>
          obtain ⟨parg, ha, h⟩ := (deep_deref _).bind_fuel h
          obtain ⟨_, hh, h⟩ := (deep_require _).bind_fuel h
          rw [deref_ok] at ha
          rw [require_ok] at hh
          have hw : Awaits x parg.ccat r := by
            simp only [Awaits, hp]
            exact ⟨seq, d, parg, hseq, hsym, ha, hh, rfl⟩
          exact ⟨_, hstep hw.not_complete, hseen, predict_stuck (k := some x) hf ⟨hseen, hw⟩ h⟩
        | LIT d r => exact absurd h hfile
        | VAR d r => exact absurd h hfile
        | KS tokens => exact absurd h hfile
        | KP dflt alts => exact absurd h hfile

/-- As many items are seen as the call was allowed to go deep, and none of them before. -/
theorem item_depth : ∀ {fuel : Nat} {s : PgfParsing P} {x : PgfItem}, Chart.Justified scans s.chart x →
    pgf_parsing_item fuel s x = .error .fuel → s.chart.Sees scans starts fuel := by
  intro fuel
  induction fuel with
  | zero => intro s x _ _; exact ⟨s.chart, ∅, .refl, rfl, by simp⟩
  | succ fuel ih =>
    intro s x hj h
    obtain ⟨hx, C, hC, hxC, t, y, ht, hy, h⟩ := item_stuck hj h
    obtain ⟨D, ys, hD, hcard, hys⟩ := ih hy h
    have hst : Chart.Steps scans starts s.chart t.chart := hC.trans ht
    have hxt : x ∈ t.chart.seen := ht.grows.seen hxC
    refine ⟨D, insert x ys, hst.trans hD, ?_, ?_⟩
    · rw [Finset.card_insert_of_notMem fun hmem => (hys x hmem).2 hxt, hcard]
    · intro z hz
      rcases Finset.mem_insert.1 hz with rfl | hz
      · exact ⟨hD.grows.seen hxt, hx⟩
      · exact ⟨(hys z hz).1, fun hzs => (hys z hz).2 (hst.grows.seen hzs)⟩

end PgfParsing

/-! ## Calls -/

section Scan
variable {scans : PgfItem → Prop} {starts : PgfCCatId → Nat → Prop} {s : PgfParsing P} {x : PgfItem} {tok : PgfToken} {fuel : Nat}

theorem scan_depth (hj : ∀ forms alt toks y, scan_forms x = .ok forms → (alt, toks) ∈ forms → scanned x tok alt toks = .ok (some y) → scans y)
    (h : pgf_parsing_scan fuel s x tok = .error .fuel) : s.chart.Sees scans starts fuel := by
  obtain ⟨forms, hf, h⟩ := (scan_forms_deep x).bind_fuel h
  rcases bind_fuel.1 h with h | ⟨r, -, h⟩
  · -- the scan of one form makes steps
    have hform : ∀ form ∈ forms, ∀ a a' : PgfParsing P × Bool, PgfParsing.Reaches scans starts s a.1 → scan_form fuel x tok a form = .ok a' →
        PgfParsing.Reaches scans starts s a'.1 := by
      intro form hform a a' ha h
      obtain ⟨⟨t, b⟩, ht, h⟩ := Exec.bind_ok.1 h
      simp only [Exec.pure_eq, Except.ok.injEq] at h
      subst h
      obtain ⟨y, hy, h, -⟩ | ⟨-, rfl, -⟩ := scan_toks_ok ht
      · exact ha.trans (PgfParsing.item_reaches (.scanned (hj forms _ _ y hf hform hy)) h)
      · exact ha
    obtain ⟨⟨alt, toks⟩, hmem, a, ha, h⟩ := forEach_fuel hform (.refl s) h
    refine .after ha.steps ?_
    rcases bind_fuel.1 h with h | ⟨_, -, h⟩
    · obtain ⟨o, ho, h⟩ := (scanned_deep x tok alt toks).bind_fuel h
      cases o with
      | none => cases h
      | some y =>
        rcases bind_fuel.1 h with h | ⟨_, -, h⟩
        · exact PgfParsing.item_depth (.scanned (hj forms alt toks y hf hmem ho)) h
        · cases h
    · cases h
  · obtain ⟨_, -, h⟩ := (deep_require _).bind_fuel h
    cases h

end Scan

theorem token_loop_depth {h : Heap P} {p : Nat} {tok : PgfToken} {T : PgfItemSetId} (hT : Origin.Agenda h p (some tok) T) {fuel : Nat} :
    ∀ {n cursor : Nat} {s : PgfParsing P}, s.chart.Own h.sets.length h.ccats.length → h.parses.length ≤ s.parse → h.Le s.heap →
      T < h.sets.length → pgf_parse_token_loop fuel T tok n cursor s = .error .fuel →
      s.chart.Sees ((Origin.token p tok).Scans h) ((Origin.token p tok).Starts P) fuel := by
  intro n
  induction n with
  | zero => intro cursor s _ _ _ _ h; exact absurd h deep_hang
  | succ n ih =>
    intro cursor s ho hp hle hlt hs
    unfold pgf_parse_token_loop at hs
    obtain ⟨items, hi, hs⟩ := (deep_deref _).bind_fuel hs
    rw [deref_ok] at hi
    cases hn : items.next cursor with
    | none => simp [hn] at hs
    | some kc =>
      obtain ⟨k, cursor'⟩ := kc
      simp only [hn] at hs
      obtain ⟨y, hy, hscan⟩ := (deep_deref _).bind_fuel hs
      rw [deref_ok] at hy
      subst hy
      have hold : h.Held T (some y) := by
        refine ⟨items, ?_, (GuSet.next_some hn).2.1⟩
        rw [← hi]
        exact prefix_getElem? hle.sets hlt
      have hj : ∀ forms alt toks z, scan_forms y = .ok forms → (alt, toks) ∈ forms → scanned y tok alt toks = .ok (some z) →
          (Origin.token p tok).Scans h z := fun forms alt toks z hf hm hz => ⟨T, y, forms, alt, toks, hT, hold, hf, hm, hz⟩
      rcases bind_fuel.1 hscan with hscan | ⟨s₁, h₁, hrest⟩
      · exact scan_depth hj hscan
      · have hr : PgfParsing.Reaches ((Origin.token p tok).Scans h) ((Origin.token p tok).Starts P) s s₁ := scan_reaches hj h₁
        exact .after hr.steps (ih (ho.steps hr.steps) (hr.parse ▸ hp) (hr.frame h ho hp hle) hlt hrest)

theorem new_parsing_deep (h : Heap P) : Deep (pgf_new_parsing h) := .bind GuSet.new_set_deep fun _ _ => deep_ok _

/-- A call that runs out of depth has seen as many items as it was allowed to go deep. -/
theorem Origin.run_depth {h : Heap P} {o : Origin} {fuel : Nat} (hs : o.run fuel h = .error .fuel) :
    h.chart.Sees (o.Scans h) (o.Starts P) fuel := by
  cases o with
  | token p tok =>
    obtain ⟨parse, hparse, hs⟩ := (deep_deref _).bind_fuel hs
    rw [deref_ok] at hparse
    cases hT : parse.transitions (some tok) with
    | none => simp [hT] at hs
    | some T =>
      simp only [hT] at hs
      obtain ⟨s₀, h₀, hs⟩ := (new_parsing_deep h).bind_fuel hs
      obtain ⟨hc, hp, -, hle, -⟩ := new_parsing_ok h₀
      rcases bind_fuel.1 hs with hs | ⟨_, -, hs⟩
      · have hlt : T < h.sets.length := by
          have hn : s₀.heap.sets.length = h.sets.length := congrArg Chart.nsets hc
          obtain ⟨items, hi, -⟩ := (deep_deref _).bind_fuel hs
          rw [deref_ok] at hi
          exact hn ▸ (List.getElem?_eq_some_iff.1 hi).1
        exact hc ▸ token_loop_depth ⟨parse, hparse, hT⟩ (hc ▸ h.chart_own) hp.ge hle hlt hs
      · cases hs
  | parse cat lin_idx =>
    have hs : pgf_parser_parse fuel h cat lin_idx = .error .fuel := by
      cases hp : pgf_parser_parse fuel h cat lin_idx with
      | ok s => simp [Origin.run, hp, Except.map] at hs
      | error e => simpa [Origin.run, hp, Except.map] using hs
    obtain ⟨s₀, h₀, hs⟩ := (new_parsing_deep h).bind_fuel hs
    obtain ⟨hc, -⟩ := new_parsing_ok h₀
    cases hl : P.concr.cnccats.lookup cat with
    | none => simp [hl] at hs
    | some id =>
      simp only [hl] at hs
      obtain ⟨cnccat, hcnc, hs⟩ := (deep_deref _).bind_fuel hs
      obtain ⟨_, -, hs⟩ := (deep_require _).bind_fuel hs
      rw [deref_ok] at hcnc
      have hw : ∀ c, some c ∈ cnccat.cats → ∀ t : PgfParsing P,
          Chart.Waits ((Origin.parse cat lin_idx).Starts P) t.chart c lin_idx none := fun c hc t => ⟨rfl, id, cnccat, hl, hcnc, hc⟩
      have hround : ∀ c ∈ cnccat.cats, ∀ t t', PgfParsing.Reaches ((Origin.parse cat lin_idx).Scans h) ((Origin.parse cat lin_idx).Starts P) s₀ t →
          predict_start fuel lin_idx t c = .ok t' →
          PgfParsing.Reaches ((Origin.parse cat lin_idx).Scans h) ((Origin.parse cat lin_idx).Starts P) s₀ t' := by
        intro c hc t t' ht h
        cases c with
        | none =>
          simp only [predict_start, Except.ok.injEq] at h
          exact h ▸ ht
        | some c => exact ht.trans (PgfParsing.predict_reaches PgfParsing.item_reaches (hw c hc t) h)
      obtain ⟨c, hmem, t, ht, hs⟩ := forEach_fuel hround (.refl s₀) hs
      cases c with
      | none => simp [predict_start] at hs
      | some c =>
        obtain ⟨u, y, hu, hy, hs⟩ := PgfParsing.predict_stuck PgfParsing.item_reaches (hw c hmem t) hs
        rw [← hc]
        exact .after (ht.steps.trans hu) (PgfParsing.item_depth hy hs)

end Libpgf
