import Libpgf.Pgf.Paths
/-!
# Categories of the grammar behind synthetic ones

A category that a call completes for a continuation set refines the category
for which the set was made. Followed back, that leads to a category of the
grammar, its root. Replacing categories by their roots turns every production
in memory into one of the grammar, and every item into one of such a production.
-/

namespace Libpgf

variable {P : PgfParser} {l : List (Call P)} {o : Origin} {C : Chart} {ρ : PgfCCatId → PgfCCatId}

namespace Chart
variable {scans : PgfItem → Prop} {starts : PgfCCatId → Nat → Prop} {D : Chart} {m n : Nat}

/-- Older categories keep their productions. -/
theorem Own.ccats_old (h : Own m n C) (hs : Step scans starts C D) {c : PgfCCatId} (hc : c < n) : D.ccats[c]? = C.ccats[c]? := by
  cases hs with
  | complete_new _ _ _ _ _ _ => exact List.getElem?_append_left (Nat.lt_of_lt_of_le hc h.ncats_le)
  | complete_old _ _ _ _ hg _ _ => exact List.getElem?_set_ne (Nat.ne_of_gt (Nat.lt_of_lt_of_le hc (h.gen hg)))
  | see _ _ _ => rfl
  | conts _ _ _ _ => rfl
  | hold _ _ => rfl
  | toks _ _ _ => rfl
  | file _ _ _ => rfl
  | accept _ _ => rfl

theorem Steps.ccats_old (hs : Steps scans starts C D) (h : Own m n C) {c : PgfCCatId} (hc : c < n) : D.ccats[c]? = C.ccats[c]? := by
  induction hs with
  | refl => rfl
  | tail hD hs ih => exact ((h.steps hD).ccats_old hs hc).trans ih

end Chart

/-! ## A call in progress -/

/-- After the calls `l`, a call made for `o` has reached the chart `C`. -/
structure Running (l : List (Call P)) (o : Origin) (C : Chart) : Prop where
  session : Session P l
  steps : Chart.Steps (o.Scans (heapAfter l)) (o.Starts P) (heapAfter l).chart C

/-- The calls made, and the one in progress. -/
def runLog (l : List (Call P)) (o : Origin) (C : Chart) : Log := logOf l ++ [(o, C)]

namespace Running
variable {i j : Nat} {oi oj : Origin} {Ci Cj : Chart} {c c' r r' K K' g : Nat} {x : PgfItem}

theorem log_iff : (runLog l o C)[i]? = some (oi, Ci) ↔
    (∃ a, l[i]? = some a ∧ a.origin = oi ∧ a.state.chart = Ci) ∨ (i = l.length ∧ oi = o ∧ Ci = C) := by
  have hlen : (logOf l).length = l.length := List.length_map _
  rw [runLog, List.getElem?_append, hlen]
  split
  · rename_i hlt
    rw [logOf_getElem?, or_iff_left fun h => absurd h.1 (Nat.ne_of_lt hlt)]
  · rename_i hge
    rw [or_iff_right fun h => hge (List.getElem?_eq_some_iff.1 h.choose_spec.1).1, List.getElem?_singleton]
    split
    · rename_i h0
      rw [Option.some.injEq, Prod.mk.injEq]
      constructor
      · rintro ⟨rfl, rfl⟩
        exact ⟨by omega, rfl, rfl⟩
      · rintro ⟨-, rfl, rfl⟩
        exact ⟨rfl, rfl⟩
    · rename_i h0
      constructor
      · intro h
        cases h
      · rintro ⟨rfl, -⟩
        exact absurd (Nat.sub_self _) h0

theorem log_last (l : List (Call P)) (o : Origin) (C : Chart) : (runLog l o C)[l.length]? = some (o, C) := log_iff.2 (.inr ⟨rfl, rfl, rfl⟩)

theorem wf (h : Running l o C) : C.Wf (o.Starts P) := (Heap.chart_wf _ _).steps h.steps

theorem own (h : Running l o C) : C.Own (heapAfter l).sets.length (heapAfter l).ccats.length := (Heap.chart_own _).steps h.steps

theorem traced (h : Running l o C) : Traced (runLog l o C) l.length C := h.session.traced_steps h.session.traced h.steps

/-- The calls made know no more sets and categories than the one in progress. -/
theorem conts_lt (h : Running l o C) (hi : (runLog l o C)[i]? = some (oi, Ci)) (hc : Ci.conts c r = some K) :
    K < C.nsets ∧ c < C.ccats.length ∧ (K < (heapAfter l).sets.length → i < l.length) ∧
      (i < l.length → K < (heapAfter l).sets.length ∧ c < (heapAfter l).ccats.length) := by
  rcases log_iff.1 hi with ⟨a, ha, rfl, rfl⟩ | ⟨rfl, rfl, rfl⟩
  · obtain ⟨hK, hcl⟩ := (h.session.wf ha).conts_lt hc
    have hle := h.session.heap_le ha
    have hK' := Nat.lt_of_lt_of_le hK hle.sets.length_le
    have hc' := Nat.lt_of_lt_of_le hcl hle.ccats.length_le
    have hlt := (List.getElem?_eq_some_iff.1 ha).1
    exact ⟨Nat.lt_of_lt_of_le hK' h.own.nsets_le, Nat.lt_of_lt_of_le hc' h.own.ncats_le, fun _ => hlt, fun _ => ⟨hK', hc'⟩⟩
  · obtain ⟨hK, hcl⟩ := h.wf.conts_lt hc
    exact ⟨hK, hcl, fun hlt => absurd (h.own.conts hc) (Nat.not_le_of_lt hlt), fun hlt => absurd hlt (Nat.lt_irrefl _)⟩

theorem gen_lt (h : Running l o C) (hi : (runLog l o C)[i]? = some (oi, Ci)) (hg : Ci.gen K = some g) :
    g < C.ccats.length ∧ (i < l.length → g < (heapAfter l).ccats.length) := by
  rcases log_iff.1 hi with ⟨a, ha, rfl, rfl⟩ | ⟨rfl, rfl, rfl⟩
  · have hg' := Nat.lt_of_lt_of_le ((h.session.wf ha).gen_lt hg) (h.session.heap_le ha).ccats.length_le
    exact ⟨Nat.lt_of_lt_of_le hg' h.own.ncats_le, fun _ => hg'⟩
  · exact ⟨h.wf.gen_lt hg, fun hlt => absurd hlt (Nat.lt_irrefl _)⟩

/-- Categories are completed for continuation sets only. -/
theorem gen_conts (h : Running l o C) (hi : (runLog l o C)[i]? = some (oi, Ci)) (hg : Ci.gen K = some g) :
    ∃ j oj Cj c r, j ≤ i ∧ (runLog l o C)[j]? = some (oj, Cj) ∧ Cj.conts c r = some K := by
  rcases log_iff.1 hi with ⟨a, ha, rfl, rfl⟩ | ⟨rfl, rfl, rfl⟩
  · obtain ⟨j, oj, Cj, c, r, hj, hL, hc⟩ := (h.session.traced i a ha).gens hg
    obtain ⟨C', hL', hgr⟩ := Log.Le.append (logOf l) [(o, C)] hL
    exact ⟨j, oj, C', c, r, hj, hL', hgr.conts hc⟩
  · exact h.traced.gens hg

theorem conts_unique (h : Running l o C) (hi : (runLog l o C)[i]? = some (oi, Ci)) (hj : (runLog l o C)[j]? = some (oj, Cj))
    (hc : Ci.conts c r = some K) (hc' : Cj.conts c' r' = some K) : i = j ∧ c = c' ∧ r = r' := by
  have hik := h.conts_lt hi hc
  have hjk := h.conts_lt hj hc'
  rcases log_iff.1 hi with ⟨a, ha, rfl, rfl⟩ | ⟨rfl, rfl, rfl⟩
  · have hlt := (List.getElem?_eq_some_iff.1 ha).1
    have hjl := hjk.2.2.1 (hik.2.2.2 hlt).1
    rcases log_iff.1 hj with ⟨b, hb, rfl, rfl⟩ | ⟨rfl, -⟩
    · exact h.session.conts_unique ha hb hc hc'
    · exact absurd hjl (Nat.lt_irrefl _)
  · rcases log_iff.1 hj with ⟨b, hb, rfl, rfl⟩ | ⟨rfl, rfl, rfl⟩
    · have hlt := (List.getElem?_eq_some_iff.1 hb).1
      exact absurd (hik.2.2.1 (hjk.2.2.2 hlt).1) (Nat.lt_irrefl _)
    · exact ⟨rfl, h.wf.conts_inj hc hc'⟩

/-- Productions of a call made are in memory; those of older categories in progress too. -/
theorem prod_old (h : Running l o C) (hi : (runLog l o C)[i]? = some (oi, Ci)) {p : PgfProduction} (hp : Ci.Prod c p)
    (hc : i < l.length ∨ c < (heapAfter l).ccats.length) : (heapAfter l).Prod c p := by
  rcases log_iff.1 hi with ⟨a, ha, rfl, rfl⟩ | ⟨rfl, rfl, rfl⟩
  · exact h.session.prod_of ha hp
  · have hlt := hc.resolve_left (Nat.lt_irrefl _)
    obtain ⟨ccat, hcc, hm⟩ := hp
    exact ⟨ccat, h.steps.ccats_old (Heap.chart_own _) hlt ▸ hcc, hm⟩

/-- An item that may be seen has a history. -/
theorem justified_hist (h : Running l o C) (hx : Chart.Justified (o.Scans (heapAfter l)) C x) : Hist (runLog l o C) x l.length := by
  have hseen : ∀ {i : Nat} {a : Call P} {y : PgfItem}, l[i]? = some a → y ∈ a.state.chart.seen → Hist (runLog l o C) y i :=
    fun ha hy => ((h.session.traced _ _ ha).seen _ hy).mono (Log.Le.append _ _)
  cases hx with
  | scanned hx =>
    cases o with
    | parse cat lin_idx => exact hx.elim
    | token p tok =>
      obtain ⟨T, y, forms, alt, toks, hT, hy, hf, hm, hx⟩ := hx
      obtain ⟨a, ha, -, hheld⟩ := h.session.agenda hT
      obtain ⟨y', he, hy', hr⟩ := hheld _ hy
      cases he
      exact .scan (hseen ha hy') hr (List.getElem?_eq_some_iff.1 ha).1 (log_last _ _ _) hf hm hx
  | predicted hc hp hx => exact .new (log_last _ _ _) hc hp hx
  | @combined K g k x hg hk hx =>
    -- the set was made for a constituent, and the item waits for that
    obtain ⟨i, oi, Ci, c, r, hi, hL, hc⟩ := h.traced.gens hg
    rcases log_iff.1 hL with ⟨a, ha, rfl, rfl⟩ | ⟨rfl, rfl, rfl⟩
    · have hlt := (List.getElem?_eq_some_iff.1 ha).1
      have hold : (heapAfter l).Held K (some k) := by
        have hK := ((h.conts_lt hL hc).2.2.2 hlt).1
        rw [h.steps.held_old (Heap.chart_own _) hK] at hk
        exact hk
      obtain ⟨hk', hw⟩ := h.session.held_conts ha hc hold
      exact .combine (hseen ha hk') hw hi hL hc (log_last _ _ _) hg hx
    · obtain ⟨hk', hw⟩ := h.wf.conts_held hc hk
      exact .combine (h.traced.seen k hk') hw hi hL hc (log_last _ _ _) hg hx

end Running

/-! ## Roots -/

/-- The root of each category of the grammar is that category, and the root of
a completed category is that of the category that its set was made for. -/
structure Log.Roots (concr : PgfConcr) (L : Log) (ρ : PgfCCatId → PgfCCatId) : Prop where
  grammar : ∀ {c : PgfCCatId}, c < concr.ccatMem.length → ρ c = c
  gen : ∀ {i j : Nat} {oi oj : Origin} {Ci Cj : Chart} {c g : PgfCCatId} {r : Nat} {K : PgfItemSetId}, L[i]? = some (oi, Ci) →
    Ci.conts c r = some K → L[j]? = some (oj, Cj) → Cj.gen K = some g → ρ g = ρ c

theorem Log.Roots.mono {concr : PgfConcr} {L L' : Log} (h : L'.Roots concr ρ) (hle : L.Le L') : L.Roots concr ρ where
  grammar := h.grammar
  gen hi hc hj hg := by
    obtain ⟨Ci', hi', hgi⟩ := hle hi
    obtain ⟨Cj', hj', hgj⟩ := hle hj
    exact h.gen hi' (hgi.conts hc) hj' (hgj.gen hg)

/-- A step that makes no set and completes no category. -/
theorem Log.Roots.same {D : Chart} (h : (runLog l o C).Roots P.concr ρ) (hc : D.conts = C.conts) (hg : D.gen = C.gen) :
    (runLog l o D).Roots P.concr ρ where
  grammar := h.grammar
  gen {i j oi oj Ci Cj c g r K} hi hK hj hG := by
    have hmove : ∀ {i : Nat} {oi : Origin} {Ci : Chart}, (runLog l o D)[i]? = some (oi, Ci) →
        ∃ Ci', (runLog l o C)[i]? = some (oi, Ci') ∧ Ci.conts = Ci'.conts ∧ Ci.gen = Ci'.gen := by
      intro i oi Ci hi
      rcases Running.log_iff.1 hi with ha | ⟨rfl, rfl, rfl⟩
      · exact ⟨Ci, Running.log_iff.2 (.inl ha), rfl, rfl⟩
      · exact ⟨C, Running.log_last _ _ _, hc, hg⟩
    obtain ⟨Ci', hi', hci, -⟩ := hmove hi
    obtain ⟨Cj', hj', -, hgj⟩ := hmove hj
    exact h.gen hi' (hci ▸ hK) hj' (hgj ▸ hG)

namespace Running

/-- A new set has completed no category yet. -/
theorem roots_addConts {c r : Nat} (hC : Running l o C) (hρ : (runLog l o C).Roots P.concr ρ) :
    (runLog l o (C.addConts c r)).Roots P.concr ρ where
  grammar := hρ.grammar
  gen {i j oi oj Ci Cj c' g r' K} hi hK hj hG := by
    have hgen : ∃ Cj', (runLog l o C)[j]? = some (oj, Cj') ∧ Cj'.gen K = some g := by
      rcases log_iff.1 hj with ha | ⟨rfl, rfl, rfl⟩
      · exact ⟨Cj, log_iff.2 (.inl ha), hG⟩
      · exact ⟨C, log_last _ _ _, hG⟩
    obtain ⟨Cj', hj', hG'⟩ := hgen
    obtain ⟨i', oi', Ci', c₀, r₀, -, hi', hK'⟩ := hC.gen_conts hj' hG'
    rcases log_iff.1 hi with ha | ⟨rfl, rfl, rfl⟩
    · exact hρ.gen (log_iff.2 (.inl ha)) hK hj' hG'
    · simp only [Chart.addConts] at hK
      split at hK
      · rw [Option.some.injEq] at hK
        exact absurd (hC.conts_lt hi' hK').1 (hK ▸ Nat.lt_irrefl _)
      · exact hρ.gen (log_last _ _ _) hK hj' hG'

/-- A new category gets the root of the one that its set was made for. -/
theorem roots_addGen {x : PgfItem} {ccat : PgfCCat} (hC : Running l o C)
    (hx : Chart.Justified (o.Scans (heapAfter l)) C x) (hρ : (runLog l o C).Roots P.concr ρ) :
    (runLog l o ((C.see x).addGen x.base.conts ccat)).Roots P.concr (Function.update ρ C.ccats.length (ρ x.base.ccat)) where
  grammar {c} hc := by
    have hlt : c < C.ccats.length := Nat.lt_of_lt_of_le hc (hC.session.ccats_le.length_le.trans hC.own.ncats_le)
    rw [Function.update_of_ne (Nat.ne_of_lt hlt)]
    exact hρ.grammar hc
  gen {i j oi oj Ci Cj c g r K} hi hK hj hG := by
    have hi' : ∃ Ci', (runLog l o C)[i]? = some (oi, Ci') ∧ Ci'.conts c r = some K := by
      rcases log_iff.1 hi with ha | ⟨rfl, rfl, rfl⟩
      · exact ⟨Ci, log_iff.2 (.inl ha), hK⟩
      · exact ⟨C, log_last _ _ _, hK⟩
    obtain ⟨Ci', hi', hK'⟩ := hi'
    have hc := (hC.conts_lt hi' hK').2.1
    have hold : (∃ Cj', (runLog l o C)[j]? = some (oj, Cj') ∧ Cj'.gen K = some g) ∨ (K = x.base.conts ∧ g = C.ccats.length) := by
      rcases log_iff.1 hj with ha | ⟨rfl, rfl, rfl⟩
      · exact .inl ⟨Cj, log_iff.2 (.inl ha), hG⟩
      · simp only [Chart.addGen, Chart.see, Function.update_apply] at hG
        split at hG
        · rename_i he
          rw [Option.some.injEq] at hG
          exact .inr ⟨he, hG.symm⟩
        · exact .inl ⟨C, log_last _ _ _, hG⟩
    rw [Function.update_of_ne (Nat.ne_of_lt hc)]
    rcases hold with ⟨Cj', hj', hG'⟩ | ⟨rfl, rfl⟩
    · rw [Function.update_of_ne (Nat.ne_of_lt (hC.gen_lt hj' hG').1)]
      exact hρ.gen hi' hK' hj' hG'
    · obtain ⟨k, ok, Ck, -, hk, hck, -⟩ := (hC.justified_hist hx).base
      obtain ⟨-, rfl, -⟩ := hC.conts_unique hi' hk hK' hck
      rw [Function.update_self]

end Running

theorem Session.roots_run {o : Origin} (hl : Session P l) (hρ : (logOf l).Roots P.concr ρ) (hC : Running l o C) :
    ∃ ρ', (runLog l o C).Roots P.concr ρ' := by
  obtain ⟨-, hs⟩ := hC
  induction hs with
  | refl =>
    refine ⟨ρ, hρ.grammar, fun {i j oi oj Ci Cj c g r K} hi hK hj hG => ?_⟩
    rcases Running.log_iff.1 hi with ha | ⟨-, -, rfl⟩
    · rcases Running.log_iff.1 hj with hb | ⟨-, -, rfl⟩
      · exact hρ.gen (logOf_getElem?.2 ha) hK (logOf_getElem?.2 hb) hG
      · cases hG
    · cases hK
  | @tail D D' hD hstep ih =>
    obtain ⟨ρ', hρ'⟩ := ih
    have hrD : Running l o D := ⟨hl, hD⟩
    cases hstep with
    | see _ _ _ => exact ⟨ρ', hρ'.same rfl rfl⟩
    | complete_new hx _ _ _ _ _ => exact ⟨_, hrD.roots_addGen hx hρ'⟩
    | complete_old _ _ _ _ _ _ _ => exact ⟨ρ', hρ'.same rfl rfl⟩
    | conts _ _ _ _ => exact ⟨ρ', hrD.roots_addConts hρ'⟩
    | hold _ _ => exact ⟨ρ', hρ'.same rfl rfl⟩
    | toks _ _ _ => exact ⟨ρ', hρ'.same rfl rfl⟩
    | file _ _ _ => exact ⟨ρ', hρ'.same rfl rfl⟩
    | accept _ _ => exact ⟨ρ', hρ'.same rfl rfl⟩

theorem runLog_append (l : List (Call P)) (o : Origin) (s : PgfParsing P) : runLog l o s.chart = logOf (l ++ [⟨o, s⟩]) := by
  simp [runLog, logOf]

theorem Session.roots (hl : Session P l) : ∃ ρ, (logOf l).Roots P.concr ρ := by
  induction hl with
  | nil => exact ⟨id, fun _ => rfl, fun hi => by simp [logOf] at hi⟩
  | @call l o s fuel hl hr ih =>
    obtain ⟨ρ, hρ⟩ := ih
    rw [← runLog_append]
    exact hl.roots_run hρ ⟨hl, (Origin.run_called hr).steps⟩

theorem Running.roots (h : Running l o C) : ∃ ρ, (runLog l o C).Roots P.concr ρ := by
  obtain ⟨ρ, hρ⟩ := h.session.roots
  exact h.session.roots_run hρ h

/-! ## Productions over productions of the grammar -/

def PgfPArg.root (ρ : PgfCCatId → PgfCCatId) (parg : PgfPArg) : PgfPArg := ⟨parg.hypos.map ρ, ρ parg.ccat⟩

/-- The production with the roots of its categories. -/
def PgfProduction.root (ρ : PgfCCatId → PgfCCatId) : PgfProduction → PgfProduction
  | APPLY f args => APPLY f (args.map (.root ρ))
  | COERCE c => COERCE (ρ c)

@[simp] theorem PgfProduction.root_row (p : PgfProduction) (r : Nat) : (p.root ρ).row r = p.row r := by cases p <;> rfl

theorem prod_args_root (p : PgfProduction) : prod_args (p.root ρ) = (prod_args p).map (.root ρ) := by cases p <;> rfl

theorem PgfProduction.root_id {p : PgfProduction} (h : ∀ c ∈ p.ccats, ρ c = c) : p.root ρ = p := by
  cases p with
  | APPLY f args =>
    have harg : ∀ a ∈ args, PgfPArg.root ρ a = a := by
      intro a ha
      have hcat : ∀ c ∈ PgfPArg.ccats a, ρ c = c := fun c hc => h c (List.mem_flatMap.2 ⟨a, ha, hc⟩)
      have hhypos : a.hypos.map ρ = a.hypos :=
        (List.map_congr_left fun c hc => hcat c (List.mem_cons_of_mem _ hc)).trans (List.map_id' a.hypos)
      rw [PgfPArg.root, hhypos, hcat a.ccat (List.mem_cons_self ..)]
    rw [root, List.map_congr_left harg, List.map_id']
  | COERCE c => rw [root, h c (List.mem_singleton_self c)]

/-- An item of a production over one of the grammar, with arguments over the arguments of that. -/
structure PgfItem.Over (concr : PgfConcr) (ρ : PgfCCatId → PgfCCatId) (x : PgfItem) : Prop where
  prod : concr.Prod (ρ x.base.ccat) (x.base.prod.root ρ)
  args : x.args.map (.root ρ) = prod_args (x.base.prod.root ρ)

/-- All productions that the calls knew are over productions of the grammar. -/
def Log.Over (concr : PgfConcr) (ρ : PgfCCatId → PgfCCatId) (L : Log) : Prop :=
  ∀ (i : Nat) (o : Origin) (C : Chart), L[i]? = some (o, C) → ∀ c p, C.Prod c p → concr.Prod (ρ c) (p.root ρ) ∧ p.Fits

theorem Hist.fits_over {concr : PgfConcr} {L : Log} (hL : L.Over concr ρ) {x : PgfItem} {j : Nat} (h : Hist L x j) : x.Fits := by
  induction h with
  | new hi _ hp hx => exact .new (hL _ _ _ hi _ _ hp).2 hx
  | combine _ _ _ _ _ _ _ hx ih => exact (ih.combined hx).1
  | scan _ _ _ _ hf hm hx ih => exact (ih.scanned hf hm hx).1

theorem Hist.over {concr : PgfConcr} {L : Log} (hL : L.Over concr ρ) (hρ : L.Roots concr ρ) {x : PgfItem} {j : Nat}
    (h : Hist L x j) : x.Over concr ρ := by
  induction h with
  | new hi _ hp hx =>
    obtain ⟨-, hb, ha, -⟩ := pgf_new_item_ok hx
    refine ⟨by rw [hb]; exact (hL _ _ _ hi _ _ hp).1, by rw [ha, hb, prod_args_root]⟩
  | @combine k i oi Ci j oj Cj c r K g x hk haw _ hi hc hj hg hx ih =>
    have hkf := hk.fits_over hL
    obtain ⟨-, hb, -, -, -, d, r', hsym, hd, hxa⟩ := combined_ok hx
    obtain ⟨d', parg, hsym', hparg, rfl⟩ := hkf.awaits haw
    rw [hsym, Option.some.injEq, PgfSymbol.CAT.injEq] at hsym'
    obtain ⟨rfl, rfl⟩ := hsym'
    refine ⟨by rw [hb]; exact ih.prod, ?_⟩
    -- the new argument has the root of the one it replaces
    have hroot : PgfPArg.root ρ ⟨[], g⟩ = PgfPArg.root ρ parg := by
      rw [PgfPArg.root, PgfPArg.root, hkf.hypos parg (List.mem_of_getElem? hparg), hρ.gen hi hc hj hg]
    rw [hxa, hb, ← ih.args, List.map_set, hroot]
    refine List.ext_getElem? fun e => ?_
    rw [List.getElem?_set]
    split
    · rename_i hde
      subst hde
      rw [List.length_map, if_pos hd, List.getElem?_map, hparg]
      rfl
    · rfl
  | scan _ _ _ _ hf hm hx ih =>
    obtain ⟨hb, ha⟩ := scanned_base hx
    exact ⟨by rw [hb]; exact ih.prod, by rw [ha, hb]; exact ih.args⟩

theorem completed_over {concr : PgfConcr} {x : PgfItem} {p : PgfProduction} (hx : x.Over concr ρ) (hp : completed_prod x = .ok p)
    {g : PgfCCatId} (hg : ρ g = ρ x.base.ccat) : concr.Prod (ρ g) (p.root ρ) := by
  have hprod := hx.prod
  have hargs := hx.args
  rw [hg]
  unfold completed_prod at hp
  split at hp
  · rename_i f args hb
    rw [Except.ok.injEq] at hp
    subst hp
    rw [hb] at hprod hargs
    rw [PgfProduction.root, hargs]
    exact hprod
  · rename_i c hb
    obtain ⟨a, ha, hp⟩ := Exec.bind_ok.1 hp
    obtain ⟨_, -, hp⟩ := Exec.bind_ok.1 hp
    simp only [Exec.deref_ok, Exec.pure_eq, Except.ok.injEq] at ha hp
    subst hp
    rw [hb] at hprod hargs
    have hfirst := congrArg (·[0]?) hargs
    simp only [List.getElem?_map, ha, Option.map_some, PgfProduction.root, prod_args, List.getElem?_cons_zero, Option.some.injEq,
      PgfPArg.root, PgfPArg.mk.injEq] at hfirst
    rw [PgfProduction.root, hfirst.2]
    exact hprod

/-- In memory the productions are over those of the grammar. -/
def Heap.Over (h : Heap P) (ρ : PgfCCatId → PgfCCatId) : Prop := ∀ c p, h.Prod c p → P.concr.Prod (ρ c) (p.root ρ)

theorem Running.fits (hP : P.concr.Fits) (h : Running l o C) : C.All PgfItem.Fits PgfProduction.Fits := by
  have hf := h.session.heap_fits hP
  have h0 : (heapAfter l).chart.All PgfItem.Fits PgfProduction.Fits := ⟨fun _ hx => hx.elim, hf.held, hf.prods⟩
  exact h0.steps (inherited_fits hf.held o) h.steps

theorem Running.log_over (hP : P.concr.Fits) (h : Running l o C) (hh : (heapAfter l).Over ρ)
    (hC : ∀ c p, C.Prod c p → P.concr.Prod (ρ c) (p.root ρ)) : (runLog l o C).Over P.concr ρ := by
  intro i oi Ci hi c p hp
  rcases log_iff.1 hi with ⟨a, ha, rfl, rfl⟩ | ⟨rfl, rfl, rfl⟩
  · have hp' := h.session.prod_of ha hp
    exact ⟨hh c p hp', (h.session.heap_fits hP).prods c p hp'⟩
  · exact ⟨hC c p hp, (h.fits hP).prods c p hp⟩

theorem Running.prods_over (hP : P.concr.Fits) (h : Running l o C) (hh : (heapAfter l).Over ρ)
    (hρ : (runLog l o C).Roots P.concr ρ) : ∀ c p, C.Prod c p → P.concr.Prod (ρ c) (p.root ρ) := by
  obtain ⟨hl, hs⟩ := h
  induction hs with
  | refl => exact hh
  | @tail D D' hD hstep ih =>
    have hrD : Running l o D := ⟨hl, hD⟩
    have hρD : (runLog l o D).Roots P.concr ρ := hρ.mono (Log.Le.last hstep.grows)
    have hprods := ih hρD
    -- the production of a complete item
    have hnew : ∀ {x : PgfItem} {p : PgfProduction} {g : PgfCCatId}, Chart.Justified (o.Scans (heapAfter l)) D x →
        completed_prod x = .ok p → D'.gen x.base.conts = some g → P.concr.Prod (ρ g) (p.root ρ) := by
      intro x p g hx hp hg
      have hh := hrD.justified_hist hx
      obtain ⟨k, ok, Ck, -, hk, hck, -⟩ := hh.base
      obtain ⟨Ck', hk', hgr⟩ := Log.Le.last hstep.grows hk
      exact completed_over (hh.over (hrD.log_over hP ‹_› hprods) hρD) hp (hρ.gen hk' (hgr.conts hck) (Running.log_last _ _ _) hg)
    cases hstep with
    | @complete_new x p ccat fid hx _ _ hp hg _ =>
      rintro c q ⟨cc, hcc, hq⟩
      simp only [Chart.addGen, Chart.see, List.getElem?_append] at hcc
      split at hcc
      · exact hprods c q ⟨cc, hcc, hq⟩
      · rw [List.getElem?_singleton] at hcc
        split at hcc
        · rename_i hge heq
          have hle : D.ccats.length ≤ c := Nat.le_of_not_lt hge
          obtain rfl : c = D.ccats.length := Nat.le_antisymm (Nat.le_of_sub_eq_zero heq) hle
          rw [Option.some.injEq] at hcc
          subst hcc
          simp only [PgfProductions.elems, List.mem_singleton] at hq
          subst hq
          exact hnew hx hp (by simp [Chart.addGen, Chart.see])
        · cases hcc
    | @complete_old x p g ccat ps hx _ _ hp hg hcc hps =>
      rintro c q ⟨cc, hcc', hq⟩
      simp only [Chart.setCCat, Chart.see, List.getElem?_set] at hcc'
      split at hcc'
      · rename_i hgc
        subst hgc
        split at hcc'
        · rw [Option.some.injEq] at hcc'
          subst hcc'
          simp only [PgfProductions.elems, List.mem_append, List.mem_singleton] at hq
          rcases hq with hq | rfl
          · exact hprods g q ⟨ccat, hcc, by rw [hps]; exact hq⟩
          · exact hnew hx hp hg
        · cases hcc'
      · exact hprods c q ⟨cc, hcc', hq⟩
    | see _ _ _ => exact hprods
    | conts _ _ _ _ => exact hprods
    | hold _ _ => exact hprods
    | toks _ _ _ => exact hprods
    | file _ _ _ => exact hprods
    | accept _ _ => exact hprods

theorem Session.over (hP : P.concr.Fits) (hl : Session P l) (hρ : (logOf l).Roots P.concr ρ) : (heapAfter l).Over ρ := by
  induction hl with
  | nil =>
    rintro c p ⟨ccat, hc, hp⟩
    have hmem := List.mem_of_getElem? hc
    rw [hρ.grammar (List.getElem?_eq_some_iff.1 hc).1,
      PgfProduction.root_id fun c hc => hρ.grammar (P.concr.prods_valid ccat hmem p hp c hc)]
    exact ⟨ccat, hc, hp⟩
  | @call l o s fuel hl hr ih =>
    rw [← runLog_append] at hρ
    have hrun : Running l o s.chart := ⟨hl, (Origin.run_called hr).steps⟩
    rw [heapAfter_append]
    exact hrun.prods_over hP (ih (hρ.mono (Log.Le.append _ _))) hρ

/-- While a call is in progress all productions are over those of the grammar. -/
theorem Running.over (hP : P.concr.Fits) (h : Running l o C) (hρ : (runLog l o C).Roots P.concr ρ) :
    (runLog l o C).Over P.concr ρ := by
  have hh := h.session.over hP (hρ.mono (Log.Le.append _ _))
  exact h.log_over hP hh (h.prods_over hP hh hρ)

end Libpgf
