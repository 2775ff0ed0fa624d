import Libpgf.Pgf.Parser
/-!
# Charts

What a call knows while it parses, with sets for hash tables: the items seen,
the continuation set of each constituent of each category, the category
completed for each of them, and the items filed under each token.

The steps are the deductions of a chart parser. An item is seen once, when it
is justified; its production is recorded in the same step when it is complete.
-/

namespace Libpgf

/-! ## Where an item stands -/

/-- The next symbol of the item is constituent `r` of category `c`. -/
def Awaits (x : PgfItem) (c : PgfCCatId) (r : Nat) : Prop :=
  match x.base.prod with
  | .APPLY f _ => ∃ seq d parg, f.lins[x.base.lin_idx]? = some seq ∧ seq[x.seq_idx]? = some (.CAT d r) ∧
      x.args[d]? = some parg ∧ parg.hypos = [] ∧ parg.ccat = c
  | .COERCE coerce => x.seq_idx = 0 ∧ coerce = c ∧ x.base.lin_idx = r

/-- The next symbol of the item can begin with the token; one with an empty form, with the null string. -/
def Reads (x : PgfItem) (tok : Option PgfToken) : Prop :=
  ∃ f args seq sym toks, x.base.prod = .APPLY f args ∧ f.lins[x.base.lin_idx]? = some seq ∧
    seq[x.seq_idx]? = some sym ∧ next_tokens x sym = .ok toks ∧ tok ∈ toks

/-- The item is at the end of its row. -/
def Complete (x : PgfItem) : Prop :=
  match x.base.prod with
  | .APPLY f _ => ∃ seq, f.lins[x.base.lin_idx]? = some seq ∧ x.seq_idx = seq.length
  | .COERCE _ => x.seq_idx = 1

/-- The places exclude each other, and an item waits for one constituent only. -/
theorem Awaits.unique {x : PgfItem} {c c' : PgfCCatId} {r r' : Nat} (h : Awaits x c r) (h' : Awaits x c' r') :
    c = c' ∧ r = r' := by
  cases hp : x.base.prod with
  | APPLY f args =>
    simp only [Awaits, hp] at h h'
    obtain ⟨seq, d, parg, hl, hs, ha, -, rfl⟩ := h
    obtain ⟨seq', d', parg', hl', hs', ha', -, rfl⟩ := h'
    rw [hl] at hl'
    cases hl'
    rw [hs] at hs'
    cases hs'
    rw [ha] at ha'
    cases ha'
    exact ⟨rfl, rfl⟩
  | COERCE coerce =>
    simp only [Awaits, hp] at h h'
    exact ⟨h.2.1.symm.trans h'.2.1, h.2.2.symm.trans h'.2.2⟩

theorem Awaits.not_complete {x : PgfItem} {c : PgfCCatId} {r : Nat} (h : Awaits x c r) : ¬ Complete x := by
  cases hp : x.base.prod with
  | APPLY f args =>
    simp only [Awaits, Complete, hp] at h ⊢
    obtain ⟨seq, d, parg, hl, hs, -⟩ := h
    rintro ⟨seq', hl', he⟩
    rw [hl] at hl'
    cases hl'
    rw [he, List.getElem?_eq_none (Nat.le_refl _)] at hs
    cases hs
  | COERCE coerce =>
    simp only [Awaits, Complete, hp] at h ⊢
    rw [h.1]
    exact Nat.zero_ne_one

theorem Awaits.not_reads {x : PgfItem} {c : PgfCCatId} {r : Nat} {tok : Option PgfToken} (h : Awaits x c r) : ¬ Reads x tok := by
  rintro ⟨f, args, seq, sym, toks, hp, hl, hs, hn, ht⟩
  simp only [Awaits, hp] at h
  obtain ⟨seq', d, parg, hl', hs', -⟩ := h
  rw [hl] at hl'
  cases hl'
  rw [hs] at hs'
  cases hs'
  simp only [next_tokens, Except.ok.injEq] at hn
  simp [← hn] at ht

theorem Reads.not_complete {x : PgfItem} {tok : Option PgfToken} (h : Reads x tok) : ¬ Complete x := by
  obtain ⟨f, args, seq, sym, toks, hp, hl, hs, -, -⟩ := h
  simp only [Complete, hp]
  rintro ⟨seq', hl', he⟩
  rw [hl] at hl'
  cases hl'
  rw [he, List.getElem?_eq_none (Nat.le_refl _)] at hs
  cases hs

/-! ## Charts and their steps -/

@[ext] structure Chart where
  seen : Set PgfItem
  conts : PgfCCatId → Nat → Option PgfItemSetId
  toks : Option PgfToken → Option PgfItemSetId
  gen : PgfItemSetId → Option PgfCCatId
  nsets : Nat
  held : PgfItemSetId → Set (Option PgfItem)
  ccats : List PgfCCat
  completed : List PgfCCatId

namespace Chart

def Prod (C : Chart) (c : PgfCCatId) (p : PgfProduction) : Prop := ∃ ccat, C.ccats[c]? = some ccat ∧ p ∈ ccat.prods.elems

def see (C : Chart) (x : PgfItem) : Chart := { C with seen := insert x C.seen }

def hold (C : Chart) (K : PgfItemSetId) (k : Option PgfItem) : Chart :=
  { C with held := fun K' => if K' = K then insert k (C.held K) else C.held K' }

def addConts (C : Chart) (c : PgfCCatId) (r : Nat) : Chart :=
  { C with conts := fun c' r' => if c' = c ∧ r' = r then some C.nsets else C.conts c' r', nsets := C.nsets + 1 }

def addToks (C : Chart) (tok : Option PgfToken) : Chart :=
  { C with toks := Function.update C.toks tok (some C.nsets), nsets := C.nsets + 1 }

/-- A new category with its first production. -/
def addGen (C : Chart) (K : PgfItemSetId) (ccat : PgfCCat) : Chart :=
  { C with gen := Function.update C.gen K (some C.ccats.length), ccats := C.ccats ++ [ccat] }

def setCCat (C : Chart) (c : PgfCCatId) (ccat : PgfCCat) : Chart := { C with ccats := C.ccats.set c ccat }

def accept (C : Chart) (c : PgfCCatId) : Chart := { C with completed := C.completed ++ [c] }

/-- Why an item may be seen. The items that scanning makes are given. -/
inductive Justified (scans : PgfItem → Prop) (C : Chart) : PgfItem → Prop
  | scanned {x} : scans x → Justified scans C x
  | predicted {c r K p x} : C.conts c r = some K → C.Prod c p → pgf_new_item ⟨K, c, p, r⟩ = .ok x →
      Justified scans C x
  | combined {K g k x} : C.gen K = some g → some k ∈ C.held K → combined k g = .ok x → Justified scans C x

/-- Who may wait for constituent `r` of category `c`; null waits for the start categories. -/
def Waits (starts : PgfCCatId → Nat → Prop) (C : Chart) (c : PgfCCatId) (r : Nat) : Option PgfItem → Prop
  | none => starts c r
  | some x => x ∈ C.seen ∧ Awaits x c r

inductive Step (scans : PgfItem → Prop) (starts : PgfCCatId → Nat → Prop) : Chart → Chart → Prop
  | see {C x} : Justified scans C x → x ∉ C.seen → ¬ Complete x → Step scans starts C (C.see x)
  | complete_new {C x p ccat fid} : Justified scans C x → x ∉ C.seen → Complete x → completed_prod x = .ok p →
      C.gen x.base.conts = none → C.ccats[x.base.ccat]? = some ccat →
      Step scans starts C ((C.see x).addGen x.base.conts ⟨ccat.cnccat, .buf [p], fid⟩)
  | complete_old {C x p g ccat ps} : Justified scans C x → x ∉ C.seen → Complete x → completed_prod x = .ok p →
      C.gen x.base.conts = some g → C.ccats[g]? = some ccat → ccat.prods = .buf ps →
      Step scans starts C ((C.see x).setCCat g { ccat with prods := .buf (ps ++ [p]) })
  | conts {C c r k ccat} : Waits starts C c r k → C.ccats[c]? = some ccat → ccat.prods.isNull = false →
      C.conts c r = none → Step scans starts C (C.addConts c r)
  | hold {C c r k K} : Waits starts C c r k → C.conts c r = some K → Step scans starts C (C.hold K k)
  | toks {C x tok} : x ∈ C.seen → Reads x tok → C.toks tok = none → Step scans starts C (C.addToks tok)
  | file {C x tok T} : x ∈ C.seen → Reads x tok → C.toks tok = some T → Step scans starts C (C.hold T (some x))
  | accept {C K g} : C.gen K = some g → none ∈ C.held K → Step scans starts C (C.accept g)

abbrev Steps (scans : PgfItem → Prop) (starts : PgfCCatId → Nat → Prop) : Chart → Chart → Prop :=
  Relation.ReflTransGen (Step scans starts)

/-! ## Charts only grow -/

structure Grows (C C' : Chart) : Prop where
  seen : C.seen ⊆ C'.seen
  conts : ∀ {c r K}, C.conts c r = some K → C'.conts c r = some K
  toks : ∀ {t T}, C.toks t = some T → C'.toks t = some T
  gen : ∀ {K g}, C.gen K = some g → C'.gen K = some g
  nsets : C.nsets ≤ C'.nsets
  held : ∀ K, C.held K ⊆ C'.held K
  ncats : C.ccats.length ≤ C'.ccats.length
  ccats : ∀ {c : PgfCCatId} {ccat : PgfCCat}, C.ccats[c]? = some ccat → ∃ ccat' : PgfCCat, C'.ccats[c]? = some ccat' ∧
    ccat'.cnccat = ccat.cnccat ∧ ccat'.prods.isNull = ccat.prods.isNull ∧ ccat.prods.elems <+: ccat'.prods.elems
  completed : C.completed <+: C'.completed

variable {scans : PgfItem → Prop} {starts : PgfCCatId → Nat → Prop} {C C' C'' : Chart}

theorem Grows.refl (C : Chart) : Grows C C where
  seen := Set.Subset.refl _
  conts h := h
  toks h := h
  gen h := h
  nsets := Nat.le_refl _
  held _ := Set.Subset.refl _
  ncats := Nat.le_refl _
  ccats h := ⟨_, h, rfl, rfl, List.prefix_rfl⟩
  completed := List.prefix_rfl

theorem Grows.trans (h : Grows C C') (h' : Grows C' C'') : Grows C C'' where
  seen := h.seen.trans h'.seen
  conts hc := h'.conts (h.conts hc)
  toks ht := h'.toks (h.toks ht)
  gen hg := h'.gen (h.gen hg)
  nsets := h.nsets.trans h'.nsets
  held K := (h.held K).trans (h'.held K)
  ncats := h.ncats.trans h'.ncats
  ccats hc := by
    obtain ⟨cc', h₁, hn, hz, hp⟩ := h.ccats hc
    obtain ⟨cc'', h₂, hn', hz', hp'⟩ := h'.ccats h₁
    exact ⟨cc'', h₂, hn'.trans hn, hz'.trans hz, hp.trans hp'⟩
  completed := h.completed.trans h'.completed

theorem Grows.prod (h : Grows C C') {c : PgfCCatId} {p : PgfProduction} (hp : C.Prod c p) : C'.Prod c p := by
  obtain ⟨cc, hc, hm⟩ := hp
  obtain ⟨cc', hc', -, -, hpre⟩ := h.ccats hc
  exact ⟨cc', hc', hpre.subset hm⟩

theorem Grows.waits (h : Grows C C') {c : PgfCCatId} {r : Nat} {k : Option PgfItem} (hw : Waits starts C c r k) :
    Waits starts C' c r k := by
  cases k with
  | none => exact hw
  | some x => exact ⟨h.seen hw.1, hw.2⟩

theorem see_grows (x : PgfItem) : Grows C (C.see x) :=
  { Grows.refl C with seen := Set.subset_insert _ _ }

theorem hold_grows (K : PgfItemSetId) (k : Option PgfItem) : Grows C (C.hold K k) :=
  { Grows.refl C with
    held := fun K' => by
      simp only [hold]
      split
      · rename_i h
        subst h
        exact Set.subset_insert _ _
      · exact Set.Subset.refl _ }

theorem addConts_grows {c : PgfCCatId} {r : Nat} (hn : C.conts c r = none) : Grows C (C.addConts c r) :=
  { Grows.refl C with
    conts := fun {c' r' K} h => by
      simp only [addConts]
      split
      · rename_i he
        rw [he.1, he.2, hn] at h
        cases h
      · exact h
    nsets := Nat.le_succ _ }

theorem addToks_grows {tok : Option PgfToken} (hn : C.toks tok = none) : Grows C (C.addToks tok) :=
  { Grows.refl C with
    toks := fun {t T} h => by
      simp only [addToks]
      rw [Function.update_of_ne (fun he => by rw [he, hn] at h; cases h)]
      exact h
    nsets := Nat.le_succ _ }

theorem addGen_grows {K : PgfItemSetId} {ccat : PgfCCat} (hn : C.gen K = none) : Grows C (C.addGen K ccat) :=
  { Grows.refl C with
    gen := fun {K' g} h => by
      simp only [addGen]
      rw [Function.update_of_ne (fun he => by rw [he, hn] at h; cases h)]
      exact h
    ncats := by simp [addGen]
    ccats := fun {c cc} h => by
      refine ⟨cc, ?_, rfl, rfl, List.prefix_rfl⟩
      simp only [addGen]
      rw [List.getElem?_append_left (List.getElem?_eq_some_iff.1 h).1]
      exact h }

theorem setCCat_grows {g : PgfCCatId} {ccat : PgfCCat} {ps : List PgfProduction} {p : PgfProduction}
    (hg : C.ccats[g]? = some ccat) (hp : ccat.prods = .buf ps) :
    Grows C (C.setCCat g { ccat with prods := .buf (ps ++ [p]) }) :=
  { Grows.refl C with
    ncats := by simp [setCCat]
    ccats := fun {c cc} h => by
      simp only [setCCat, List.getElem?_set]
      split
      · rename_i he
        subst he
        rw [hg] at h
        cases h
        have hlt := (List.getElem?_eq_some_iff.1 hg).1
        simp only [hlt, if_true]
        exact ⟨_, rfl, rfl, by simp [hp, PgfProductions.isNull],
          by simp only [hp, PgfProductions.elems]; exact List.prefix_append _ _⟩
      · exact ⟨cc, h, rfl, rfl, List.prefix_rfl⟩ }

theorem accept_grows (g : PgfCCatId) : Grows C (C.accept g) :=
  { Grows.refl C with completed := List.prefix_append _ _ }

theorem Step.grows (h : Step scans starts C C') : Grows C C' := by
  cases h with
  | see _ _ _ => exact see_grows _
  | complete_new _ _ _ _ hg _ => exact (see_grows _).trans (addGen_grows hg)
  | complete_old _ _ _ _ _ hc hp => exact (see_grows _).trans (setCCat_grows hc hp)
  | conts _ _ _ hn => exact addConts_grows hn
  | hold _ _ => exact hold_grows _ _
  | toks _ _ hn => exact addToks_grows hn
  | file _ _ _ => exact hold_grows _ _
  | accept _ _ => exact accept_grows _

theorem Steps.grows (h : Steps scans starts C C') : Grows C C' := by
  induction h with
  | refl => exact Grows.refl C
  | tail _ hs ih => exact ih.trans hs.grows

/-- What every step keeps, a sequence of steps keeps. -/
theorem Steps.inv {I : Chart → Prop} (hI : ∀ {C C'}, I C → Step scans starts C C' → I C')
    (h : Steps scans starts C C') (h0 : I C) : I C' := by
  induction h with
  | refl => exact h0
  | tail _ hs ih => exact hI ih hs

/-! ## Whose objects they are -/

/-- The tables only name sets and categories beyond the first `nsets` and `ncats`. -/
structure Own (nsets ncats : Nat) (C : Chart) : Prop where
  conts : ∀ {c r K}, C.conts c r = some K → nsets ≤ K
  toks : ∀ {t T}, C.toks t = some T → nsets ≤ T
  gen : ∀ {K g}, C.gen K = some g → ncats ≤ g
  nsets_le : nsets ≤ C.nsets
  ncats_le : ncats ≤ C.ccats.length

theorem Own.step {m n : Nat} (h : Own m n C) (hs : Step scans starts C C') : Own m n C' := by
  cases hs with
  | see _ _ _ => exact ⟨h.conts, h.toks, h.gen, h.nsets_le, h.ncats_le⟩
  | complete_new _ _ _ _ _ _ =>
    refine ⟨h.conts, h.toks, fun {K g} hg => ?_, h.nsets_le, ?_⟩
    · simp only [addGen, see, Function.update_apply] at hg
      split at hg
      · simp only [Option.some.injEq] at hg
        exact hg ▸ h.ncats_le
      · exact h.gen hg
    · have := h.ncats_le
      simp only [addGen, see, List.length_append]
      omega
  | complete_old _ _ _ _ _ _ _ =>
    exact ⟨h.conts, h.toks, h.gen, h.nsets_le, by simpa [setCCat, see] using h.ncats_le⟩
  | conts _ _ _ _ =>
    refine ⟨fun {c r K} hc => ?_, h.toks, h.gen, h.nsets_le.trans (Nat.le_succ _), h.ncats_le⟩
    simp only [addConts] at hc
    split at hc
    · simp only [Option.some.injEq] at hc
      exact hc ▸ h.nsets_le
    · exact h.conts hc
  | hold _ _ => exact ⟨h.conts, h.toks, h.gen, h.nsets_le, h.ncats_le⟩
  | toks _ _ _ =>
    refine ⟨h.conts, fun {t T} ht => ?_, h.gen, h.nsets_le.trans (Nat.le_succ _), h.ncats_le⟩
    simp only [addToks, Function.update_apply] at ht
    split at ht
    · simp only [Option.some.injEq] at ht
      exact ht ▸ h.nsets_le
    · exact h.toks ht
  | file _ _ _ => exact ⟨h.conts, h.toks, h.gen, h.nsets_le, h.ncats_le⟩
  | accept _ _ => exact ⟨h.conts, h.toks, h.gen, h.nsets_le, h.ncats_le⟩

theorem Own.steps {m n : Nat} (h : Own m n C) (hs : Steps scans starts C C') : Own m n C' :=
  hs.inv (I := Own m n) (fun h hs => h.step hs) h

/-- Older sets keep what they hold. -/
theorem Own.held_old {m n : Nat} (h : Own m n C) (hs : Step scans starts C C') {K : PgfItemSetId} (hK : K < m) :
    C'.held K = C.held K := by
  have hhold : ∀ {T k}, m ≤ T → (C.hold T k).held K = C.held K := fun {T k} hT => by
    have hne : K ≠ T := Nat.ne_of_lt (Nat.lt_of_lt_of_le hK hT)
    simp only [hold, if_neg hne]
  cases hs with
  | hold _ hc => exact hhold (h.conts hc)
  | file _ _ ht => exact hhold (h.toks ht)
  | see _ _ _ => rfl
  | complete_new _ _ _ _ _ _ => rfl
  | complete_old _ _ _ _ _ _ _ => rfl
  | conts _ _ _ _ => rfl
  | toks _ _ _ => rfl
  | accept _ _ => rfl

theorem Steps.held_old {m n : Nat} (hs : Steps scans starts C C') (h : Own m n C) {K : PgfItemSetId} (hK : K < m) :
    C'.held K = C.held K := by
  induction hs with
  | refl => rfl
  | tail hD hs ih => exact ((h.steps hD).held_old hs hK).trans ih

/-- The tables are in order: different entries name different objects, which
exist, and a set holds only items that belong there. -/
structure Wf (starts : PgfCCatId → Nat → Prop) (C : Chart) : Prop where
  conts_lt : ∀ {c r K}, C.conts c r = some K → K < C.nsets ∧ c < C.ccats.length
  toks_lt : ∀ {t T}, C.toks t = some T → T < C.nsets
  gen_lt : ∀ {K g}, C.gen K = some g → g < C.ccats.length
  held_lt : ∀ {K k}, k ∈ C.held K → K < C.nsets
  conts_inj : ∀ {c r c' r' K}, C.conts c r = some K → C.conts c' r' = some K → c = c' ∧ r = r'
  toks_inj : ∀ {t t' T}, C.toks t = some T → C.toks t' = some T → t = t'
  gen_inj : ∀ {K K' g}, C.gen K = some g → C.gen K' = some g → K = K'
  conts_ne_toks : ∀ {c r t K}, C.conts c r = some K → C.toks t ≠ some K
  conts_held : ∀ {c r K k}, C.conts c r = some K → k ∈ C.held K → Waits starts C c r k
  toks_held : ∀ {t T k}, C.toks t = some T → k ∈ C.held T → ∃ x, k = some x ∧ x ∈ C.seen ∧ Reads x t

theorem Wf.see {x : PgfItem} (h : Wf starts C) : Wf starts (C.see x) :=
  { h with
    conts_held := fun hc hk => (see_grows x).waits (h.conts_held hc hk)
    toks_held := fun ht hk => by
      obtain ⟨y, hy, hs, hr⟩ := h.toks_held ht hk
      exact ⟨y, hy, Set.mem_insert_of_mem _ hs, hr⟩ }

theorem Wf.setCCat {g : PgfCCatId} {ccat : PgfCCat} (h : Wf starts C) : Wf starts (C.setCCat g ccat) :=
  { h with
    conts_lt := fun hc => by simpa [Chart.setCCat] using h.conts_lt hc
    gen_lt := fun hg => by simpa [Chart.setCCat] using h.gen_lt hg }

theorem Wf.addGen {K : PgfItemSetId} {ccat : PgfCCat} (h : Wf starts C) : Wf starts (C.addGen K ccat) := by
  have hnew : ∀ {K' g}, (C.addGen K ccat).gen K' = some g → (K' = K ∧ g = C.ccats.length) ∨ C.gen K' = some g := by
    intro K' g hg
    simp only [Chart.addGen, Function.update_apply] at hg
    split at hg
    · simp only [Option.some.injEq] at hg
      exact .inl ⟨by assumption, hg.symm⟩
    · exact .inr hg
  have hlen : (C.addGen K ccat).ccats.length = C.ccats.length + 1 := by simp [Chart.addGen]
  refine { h with conts_lt := fun hc => ?_, gen_lt := fun hg => ?_, gen_inj := fun hg hg' => ?_ }
  · exact ⟨(h.conts_lt hc).1, hlen ▸ Nat.lt_succ_of_lt (h.conts_lt hc).2⟩
  · rcases hnew hg with ⟨-, rfl⟩ | hg
    · exact hlen ▸ Nat.lt_succ_self _
    · exact hlen ▸ Nat.lt_succ_of_lt (h.gen_lt hg)
  · rcases hnew hg with ⟨rfl, hl⟩ | ho <;> rcases hnew hg' with ⟨rfl, hl'⟩ | ho'
    · rfl
    · exact absurd (h.gen_lt ho') (hl ▸ Nat.lt_irrefl _)
    · exact absurd (h.gen_lt ho) (hl' ▸ Nat.lt_irrefl _)
    · exact h.gen_inj ho ho'

theorem Wf.addConts {c : PgfCCatId} {r : Nat} (h : Wf starts C) (hc : c < C.ccats.length) : Wf starts (C.addConts c r) := by
  have hnew : ∀ {c' r' K}, (C.addConts c r).conts c' r' = some K →
      (c' = c ∧ r' = r ∧ K = C.nsets) ∨ C.conts c' r' = some K := by
    intro c' r' K hk
    simp only [Chart.addConts] at hk
    split at hk
    · rename_i he
      simp only [Option.some.injEq] at hk
      exact .inl ⟨he.1, he.2, hk.symm⟩
    · exact .inr hk
  refine { h with conts_lt := fun hk => ?_, toks_lt := fun ht => ?_, held_lt := fun hk => ?_, conts_inj := fun hk hk' => ?_,
                  conts_ne_toks := fun hk ht => ?_, conts_held := fun hk hm => ?_ }
  · rcases hnew hk with ⟨rfl, rfl, rfl⟩ | hk
    · exact ⟨Nat.lt_succ_self _, hc⟩
    · exact ⟨Nat.lt_succ_of_lt (h.conts_lt hk).1, (h.conts_lt hk).2⟩
  · exact Nat.lt_succ_of_lt (h.toks_lt ht)
  · exact Nat.lt_succ_of_lt (h.held_lt hk)
  · rcases hnew hk with ⟨rfl, rfl, hl⟩ | ho <;> rcases hnew hk' with ⟨rfl, rfl, hl'⟩ | ho'
    · exact ⟨rfl, rfl⟩
    · exact absurd (h.conts_lt ho').1 (hl ▸ Nat.lt_irrefl _)
    · exact absurd (h.conts_lt ho).1 (hl' ▸ Nat.lt_irrefl _)
    · exact h.conts_inj ho ho'
  · rcases hnew hk with ⟨rfl, rfl, rfl⟩ | hk
    · exact absurd (h.toks_lt ht) (Nat.lt_irrefl _)
    · exact h.conts_ne_toks hk ht
  · rcases hnew hk with ⟨rfl, rfl, rfl⟩ | hk
    · exact absurd (h.held_lt hm) (Nat.lt_irrefl _)
    · exact h.conts_held hk hm

theorem Wf.addToks {tok : Option PgfToken} (h : Wf starts C) : Wf starts (C.addToks tok) := by
  have hnew : ∀ {t T}, (C.addToks tok).toks t = some T → (t = tok ∧ T = C.nsets) ∨ C.toks t = some T := by
    intro t T ht
    simp only [Chart.addToks, Function.update_apply] at ht
    split at ht
    · simp only [Option.some.injEq] at ht
      exact .inl ⟨by assumption, ht.symm⟩
    · exact .inr ht
  refine { h with conts_lt := fun hk => ?_, toks_lt := fun ht => ?_, held_lt := fun hk => ?_, toks_inj := fun ht ht' => ?_,
                  conts_ne_toks := fun hk ht => ?_, toks_held := fun ht hm => ?_ }
  · exact ⟨Nat.lt_succ_of_lt (h.conts_lt hk).1, (h.conts_lt hk).2⟩
  · rcases hnew ht with ⟨rfl, rfl⟩ | ht
    · exact Nat.lt_succ_self _
    · exact Nat.lt_succ_of_lt (h.toks_lt ht)
  · exact Nat.lt_succ_of_lt (h.held_lt hk)
  · rcases hnew ht with ⟨rfl, hl⟩ | ho <;> rcases hnew ht' with ⟨rfl, hl'⟩ | ho'
    · rfl
    · exact absurd (h.toks_lt ho') (hl ▸ Nat.lt_irrefl _)
    · exact absurd (h.toks_lt ho) (hl' ▸ Nat.lt_irrefl _)
    · exact h.toks_inj ho ho'
  · rcases hnew ht with ⟨rfl, rfl⟩ | ht
    · exact absurd (h.conts_lt hk).1 (Nat.lt_irrefl _)
    · exact h.conts_ne_toks hk ht
  · rcases hnew ht with ⟨rfl, rfl⟩ | ht
    · exact absurd (h.held_lt hm) (Nat.lt_irrefl _)
    · exact h.toks_held ht hm

/-- An item that waits goes into the set of what it waits for. -/
theorem Wf.hold {K : PgfItemSetId} {k : Option PgfItem} (h : Wf starts C) (hK : K < C.nsets)
    (hc : ∀ c r, C.conts c r = some K → Waits starts C c r k)
    (ht : ∀ t, C.toks t = some K → ∃ x, k = some x ∧ x ∈ C.seen ∧ Reads x t) : Wf starts (C.hold K k) := by
  have hnew : ∀ {K' k'}, k' ∈ (C.hold K k).held K' → (K' = K ∧ k' = k) ∨ k' ∈ C.held K' := by
    intro K' k' hm
    simp only [Chart.hold] at hm
    split at hm
    · rename_i he
      subst he
      rcases hm with rfl | hm
      · exact .inl ⟨rfl, rfl⟩
      · exact .inr hm
    · exact .inr hm
  refine { h with held_lt := fun hm => ?_, conts_held := fun hk hm => ?_, toks_held := fun hk hm => ?_ }
  · rcases hnew hm with ⟨rfl, rfl⟩ | hm
    · exact hK
    · exact h.held_lt hm
  · rcases hnew hm with ⟨rfl, rfl⟩ | hm
    · exact hc _ _ hk
    · exact h.conts_held hk hm
  · rcases hnew hm with ⟨rfl, rfl⟩ | hm
    · exact ht _ hk
    · exact h.toks_held hk hm

theorem Wf.step (h : Wf starts C) (hs : Step scans starts C C') : Wf starts C' := by
  cases hs with
  | see _ _ _ => exact h.see
  | complete_new _ _ _ _ _ _ => exact h.see.addGen
  | complete_old _ _ _ _ _ _ _ => exact h.see.setCCat
  | conts _ hc _ _ => exact h.addConts (List.getElem?_eq_some_iff.1 hc).1
  | hold hw hc =>
    refine h.hold (h.conts_lt hc).1 (fun c r hc' => ?_) (fun t ht => absurd ht (h.conts_ne_toks hc))
    obtain ⟨rfl, rfl⟩ := h.conts_inj hc hc'
    exact hw
  | toks _ _ _ => exact h.addToks
  | file hx hr ht =>
    refine h.hold (h.toks_lt ht) (fun c r hc => absurd ht (h.conts_ne_toks hc)) (fun t ht' => ?_)
    exact h.toks_inj ht ht' ▸ ⟨_, rfl, hx, hr⟩
  | accept _ _ => exact { h with }

theorem Wf.steps (h : Wf starts C) (hs : Steps scans starts C C') : Wf starts C' :=
  hs.inv (I := Wf starts) (fun h hs => h.step hs) h

/-! ## Where productions come from -/

/-- The productions are those of the items `xs`, which are complete and made `K` complete. -/
structure ProdsOf (C : Chart) (K : PgfItemSetId) (g : PgfCCatId) (xs : List PgfItem) : Prop where
  prods : ∃ ccat ps, C.ccats[g]? = some ccat ∧ ccat.prods = .buf ps ∧
    List.Forall₂ (fun x p => completed_prod x = .ok p) xs ps
  nodup : xs.Nodup
  items : ∀ x ∈ xs, x ∈ C.seen ∧ Complete x ∧ x.base.conts = K

/-- The categories from `n` on are those that were generated, each of them once,
and their productions are those of complete items, one each. -/
structure Generated (n : Nat) (C : Chart) : Prop where
  prods : ∀ {K g}, C.gen K = some g → ∃ xs, C.ProdsOf K g xs
  gen : ∀ {c}, n ≤ c → c < C.ccats.length → ∃ K, C.gen K = some c

theorem ProdsOf.congr {K : PgfItemSetId} {g : PgfCCatId} {xs : List PgfItem} (h : C.ProdsOf K g xs)
    (hc : C'.ccats[g]? = C.ccats[g]?) (hs : C.seen ⊆ C'.seen) : C'.ProdsOf K g xs where
  prods := by rw [hc]; exact h.prods
  nodup := h.nodup
  items x hx := ⟨hs (h.items x hx).1, (h.items x hx).2⟩

theorem Generated.step {n : Nat} (h : Generated n C) (hw : Wf starts C) (hs : Step scans starts C C') :
    Generated n C' := by
  have hsame : ∀ {D : Chart}, D.gen = C.gen → D.ccats = C.ccats → C.seen ⊆ D.seen → Generated n D := by
    intro D hg hc hsub
    refine ⟨fun {K g} hK => ?_, fun {c} hn hlt => ?_⟩
    · obtain ⟨xs, hxs⟩ := h.prods (hg ▸ hK)
      exact ⟨xs, hxs.congr (by rw [hc]) hsub⟩
    · rw [hg]
      exact h.gen hn (hc ▸ hlt)
  cases hs with
  | see _ _ _ => exact hsame rfl rfl (Set.subset_insert _ _)
  | @complete_new x p ccat fid _ _ hc hp hg hcc =>
    refine ⟨fun {K g} hK => ?_, fun {c} hn hlt => ?_⟩
    · simp only [addGen, Function.update_apply] at hK
      split at hK
      · rename_i he
        rw [Option.some.injEq] at hK
        subst he hK
        refine ⟨[x], ⟨_, [p], List.getElem?_concat_length, rfl, .cons hp .nil⟩, List.nodup_singleton x, fun y hy => ?_⟩
        rw [List.mem_singleton] at hy
        subst hy
        exact ⟨Set.mem_insert _ _, hc, rfl⟩
      · obtain ⟨xs, hxs⟩ := h.prods hK
        refine ⟨xs, hxs.congr ?_ (Set.subset_insert _ _)⟩
        simp only [addGen, see]
        rw [List.getElem?_append_left (hw.gen_lt hK)]
    · simp only [addGen, see, List.length_append, List.length_singleton] at hlt
      rcases Nat.lt_succ_iff_lt_or_eq.1 hlt with hlt | rfl
      · obtain ⟨K, hK⟩ := h.gen hn hlt
        refine ⟨K, ?_⟩
        simp only [addGen, see]
        rw [Function.update_of_ne (fun he => by rw [he, hg] at hK; cases hK)]
        exact hK
      · exact ⟨x.base.conts, by simp [addGen, see]⟩
  | @complete_old x p g ccat ps _ hx hc hp hg hcc hps =>
    have hlt := (List.getElem?_eq_some_iff.1 hcc).1
    refine ⟨fun {K g'} hK => ?_, fun {c} hn hlt' => ?_⟩
    · obtain ⟨xs, hxs⟩ := h.prods hK
      by_cases hgg : g' = g
      · subst hgg
        obtain rfl := hw.gen_inj hg hK
        obtain ⟨ccat', ps', hcc', hps', hall⟩ := hxs.prods
        rw [hcc] at hcc'
        cases hcc'
        rw [hps] at hps'
        cases hps'
        refine ⟨xs ++ [x], ⟨_, ps ++ [p], List.getElem?_set_self hlt, rfl, ?_⟩, ?_, fun y hy => ?_⟩
        · exact List.rel_append hall (.cons hp .nil)
        · refine List.nodup_append.2 ⟨hxs.nodup, List.nodup_singleton x, fun y hy z hz he => ?_⟩
          rw [List.mem_singleton] at hz
          exact hx (hz ▸ he ▸ (hxs.items y hy).1)
        · rcases List.mem_append.1 hy with hy | hy
          · exact ⟨Set.mem_insert_of_mem _ (hxs.items y hy).1, (hxs.items y hy).2⟩
          · rw [List.mem_singleton] at hy
            subst hy
            exact ⟨Set.mem_insert _ _, hc, rfl⟩
      · exact ⟨xs, hxs.congr (List.getElem?_set_ne (Ne.symm hgg)) (Set.subset_insert _ _)⟩
    · simp only [setCCat, see, List.length_set] at hlt'
      exact h.gen hn hlt'
  | conts _ _ _ _ => exact hsame rfl rfl (Set.Subset.refl _)
  | hold _ _ => exact hsame rfl rfl (Set.Subset.refl _)
  | toks _ _ _ => exact hsame rfl rfl (Set.Subset.refl _)
  | file _ _ _ => exact hsame rfl rfl (Set.Subset.refl _)
  | accept _ _ => exact hsame rfl rfl (Set.Subset.refl _)

theorem Generated.steps {n : Nat} (h : Generated n C) (hw : Wf starts C) (hs : Steps scans starts C C') : Generated n C' :=
  (hs.inv (I := fun D => Generated n D ∧ Wf starts D) (fun ⟨hg, hw⟩ hs => ⟨hg.step hw hs, hw.step hs⟩) ⟨h, hw⟩).1

/-! ## What items and productions inherit -/

/-- A property `I` of items and `Q` of productions that each item has from the
productions and items it is made of. -/
structure Inherited (scans : PgfItem → Prop) (I : PgfItem → Prop) (Q : PgfProduction → Prop) : Prop where
  new : ∀ {K c p r x}, Q p → pgf_new_item ⟨K, c, p, r⟩ = .ok x → I x
  combined : ∀ {k g x}, I k → combined k g = .ok x → I x
  scanned : ∀ {x}, scans x → I x
  completed : ∀ {x p}, I x → Complete x → completed_prod x = .ok p → Q p

structure All (I : PgfItem → Prop) (Q : PgfProduction → Prop) (C : Chart) : Prop where
  seen : ∀ x ∈ C.seen, I x
  held : ∀ K x, some x ∈ C.held K → I x
  prods : ∀ c p, C.Prod c p → Q p

theorem All.hold {I : PgfItem → Prop} {Q : PgfProduction → Prop} {K : PgfItemSetId} {k : Option PgfItem} (h : All I Q C)
    (hk : ∀ x, k = some x → x ∈ C.seen) : All I Q (C.hold K k) :=
  { h with
    held := fun K' x hx => by
      simp only [Chart.hold] at hx
      split at hx
      · rcases hx with hx | hx
        · exact h.seen x (hk x hx.symm)
        · exact h.held _ x hx
      · exact h.held _ x hx }

theorem All.step {I : PgfItem → Prop} {Q : PgfProduction → Prop} (hi : Inherited scans I Q) (h : All I Q C)
    (hs : Step scans starts C C') : All I Q C' := by
  have hj : ∀ {x}, Justified scans C x → I x := by
    intro x hj
    cases hj with
    | scanned hx => exact hi.scanned hx
    | predicted _ hp hx => exact hi.new (h.prods _ _ hp) hx
    | combined _ hk hx => exact hi.combined (h.held _ _ hk) hx
  have hsee : ∀ {x}, Justified scans C x → ∀ y ∈ insert x C.seen, I y := by
    rintro x hx y (rfl | hy)
    · exact hj hx
    · exact h.seen y hy
  cases hs with
  | see hx _ _ => exact ⟨hsee hx, h.held, h.prods⟩
  | @complete_new x p ccat fid hx _ hc hp _ _ =>
    refine ⟨hsee hx, h.held, ?_⟩
    rintro c q ⟨cc, hcc, hq⟩
    simp only [addGen, see, List.getElem?_append] at hcc
    split at hcc
    · exact h.prods c q ⟨cc, hcc, hq⟩
    · rw [List.getElem?_singleton] at hcc
      split at hcc
      · simp only [Option.some.injEq] at hcc
        subst hcc
        simp only [PgfProductions.elems, List.mem_singleton] at hq
        exact hq ▸ hi.completed (hj hx) hc hp
      · cases hcc
  | @complete_old x p g ccat ps hx _ hc hp _ hcc hps =>
    refine ⟨hsee hx, h.held, ?_⟩
    rintro c q ⟨cc, hcc', hq⟩
    simp only [setCCat, see, List.getElem?_set] at hcc'
    split at hcc'
    · split at hcc'
      · simp only [Option.some.injEq] at hcc'
        subst hcc'
        simp only [PgfProductions.elems, List.mem_append, List.mem_singleton] at hq
        rcases hq with hq | rfl
        · exact h.prods g q ⟨ccat, hcc, by rw [hps]; exact hq⟩
        · exact hi.completed (hj hx) hc hp
      · cases hcc'
    · exact h.prods c q ⟨cc, hcc', hq⟩
  | conts _ _ _ _ => exact ⟨h.seen, h.held, h.prods⟩
  | toks _ _ _ => exact ⟨h.seen, h.held, h.prods⟩
  | accept _ _ => exact ⟨h.seen, h.held, h.prods⟩
  | hold hw _ => exact h.hold fun x hx => by subst hx; exact hw.1
  | file hx _ _ => exact h.hold fun y hy => by cases hy; exact hx

theorem All.steps {I : PgfItem → Prop} {Q : PgfProduction → Prop} (hi : Inherited scans I Q) (h : All I Q C)
    (hs : Steps scans starts C C') : All I Q C' :=
  hs.inv (I := All I Q) (fun h hs => h.step hi hs) h

/-- The categories accepted are those completed for a set that holds null. -/
def Accepts (C : Chart) : Prop := ∀ c ∈ C.completed, ∃ K, C.gen K = some c ∧ none ∈ C.held K

theorem Accepts.step (h : Accepts C) (hs : Step scans starts C C') : Accepts C' := by
  have hold : ∀ c ∈ C.completed, ∃ K, C'.gen K = some c ∧ none ∈ C'.held K := by
    intro c hc
    obtain ⟨K, hK, hn⟩ := h c hc
    exact ⟨K, hs.grows.gen hK, hs.grows.held K hn⟩
  cases hs with
  | accept hg hn =>
    intro c hc
    rcases List.mem_append.1 hc with hc | hc
    · exact hold c hc
    · rw [List.mem_singleton] at hc
      subst hc
      exact ⟨_, hg, hn⟩
  | see _ _ _ => exact hold
  | complete_new _ _ _ _ _ _ => exact hold
  | complete_old _ _ _ _ _ _ _ => exact hold
  | conts _ _ _ _ => exact hold
  | hold _ _ => exact hold
  | toks _ _ _ => exact hold
  | file _ _ _ => exact hold

theorem Accepts.steps (h : Accepts C) (hs : Steps scans starts C C') : Accepts C' :=
  hs.inv (I := Accepts) (fun h hs => h.step hs) h

end Chart

end Libpgf
