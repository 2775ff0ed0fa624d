import Libpgf.Pgf.Roots
/-!
# What can be empty

A category that is completed in the call in which it was predicted has read no
token, so it is nullable in the grammar. If no row of the grammar comes back to
an argument with nothing but nullable constituents in between, a call only
predicts categories that were there when it began.
-/

namespace Libpgf

variable {P : PgfParser} {l : List (Call P)} {o : Origin} {C : Chart} {ρ : PgfCCatId → PgfCCatId}

/-! ## Nullable constituents -/

/-- The symbol is a constituent of an argument of the production. -/
def PgfProduction.Refers (p : PgfProduction) (sym : PgfSymbol) : Prop :=
  ∃ d q parg, sym = .CAT d q ∧ (prod_args p)[d]? = some parg

/-- Some production has a row of nothing but nullable constituents. -/
inductive PgfConcr.Nullable (concr : PgfConcr) : PgfCCatId → Nat → Prop
  | row {c p r seq} : concr.Prod c p → p.row r = some seq → (∀ sym ∈ seq, p.Refers sym) →
      (∀ (d q : Nat) (parg : PgfPArg), .CAT d q ∈ seq → (prod_args p)[d]? = some parg → Nullable concr parg.ccat q) →
      Nullable concr c r

/-- In a row of the production the symbol can be empty. -/
def PgfConcr.Empties (concr : PgfConcr) (p : PgfProduction) (sym : PgfSymbol) : Prop :=
  ∃ d q parg, sym = .CAT d q ∧ (prod_args p)[d]? = some parg ∧ concr.Nullable parg.ccat q

theorem PgfConcr.Nullable.of_row {concr : PgfConcr} {c : PgfCCatId} {p : PgfProduction} {r : Nat} {seq : PgfSequence}
    (hp : concr.Prod c p) (hr : p.row r = some seq) (h : ∀ sym ∈ seq, concr.Empties p sym) : concr.Nullable c r := by
  refine .row hp hr (fun sym hs => ?_) fun d q parg hs hd => ?_
  · obtain ⟨d, q, parg, rfl, hd, -⟩ := h sym hs
    exact ⟨d, q, parg, rfl, hd⟩
  · obtain ⟨d', q', parg', he, hd', hn⟩ := h _ hs
    rw [PgfSymbol.CAT.injEq] at he
    obtain ⟨rfl, rfl⟩ := he
    rw [hd, Option.some.injEq] at hd'
    exact hd' ▸ hn

/-- If anything is nullable at all, no row comes back to an argument with nothing
but nullable constituents in between. -/
def PgfConcr.Spaced (concr : PgfConcr) : Prop :=
  (∃ c r, concr.Nullable c r) → ∀ (c : PgfCCatId) (p : PgfProduction) (r : Nat) (seq : PgfSequence) (i j d q q' : Nat),
    concr.Prod c p → p.row r = some seq → i < j → seq[i]? = some (.CAT d q) → seq[j]? = some (.CAT d q') →
      ∃ k sym, i < k ∧ k < j ∧ seq[k]? = some sym ∧ ¬ concr.Empties p sym

/-- A grammar without empty rows has no nullable constituents. -/
theorem PgfConcr.Spaced.of_full {concr : PgfConcr} (h : ∀ c p r seq, concr.Prod c p → p.row r = some seq → seq ≠ []) :
    concr.Spaced := by
  rintro ⟨c, r, hn⟩
  induction hn with
  | @row c p r seq hp hr href _ ih =>
    obtain ⟨sym, syms, rfl⟩ := List.exists_cons_of_ne_nil (h c p r seq hp hr)
    obtain ⟨d, q, parg, rfl, hd⟩ := href sym (List.mem_cons_self ..)
    exact ih d q parg (List.mem_cons_self ..) hd

/-- A grammar whose rows refer to each argument at most once. -/
theorem PgfConcr.Spaced.of_linear {concr : PgfConcr} (h : ∀ c p r seq (i j d q q' : Nat), concr.Prod c p → p.row r = some seq →
    seq[i]? = some (.CAT d q) → seq[j]? = some (.CAT d q') → i = j) : concr.Spaced := by
  intro _ c p r seq i j d q q' hp hr hij hi hj
  exact absurd (h c p r seq i j d q q' hp hr hi hj) (Nat.ne_of_lt hij)

theorem prod_args_ccats {p : PgfProduction} {parg : PgfPArg} (h : parg ∈ prod_args p) : parg.ccat ∈ p.ccats := by
  cases p with
  | APPLY f args => exact List.mem_flatMap.2 ⟨parg, h, List.mem_cons_self⟩
  | COERCE c =>
    rw [prod_args, List.mem_singleton] at h
    subst h
    exact List.mem_singleton_self c

/-! ## What a call completes of what it predicts -/

theorem Hist.call {L : Log} {x : PgfItem} {j : Nat} (h : Hist L x j) : ∃ oj Cj, L[j]? = some (oj, Cj) := by
  cases h with
  | new hi _ _ _ => exact ⟨_, _, hi⟩
  | combine _ _ _ _ _ hj _ _ => exact ⟨_, _, hj⟩
  | scan _ _ _ hj _ _ _ => exact ⟨_, _, hj⟩

/-- The symbols of the item's row before its position. -/
def PgfItem.Behind (x : PgfItem) (i : Nat) (sym : PgfSymbol) : Prop :=
  i < x.seq_idx ∧ ∃ seq, x.base.prod.row x.base.lin_idx = some seq ∧ seq[i]? = some sym

/-- Moving over a constituent puts that behind. -/
theorem PgfItem.Fits.behind {k x : PgfItem} (hk : k.Fits) {g : PgfCCatId} (hx : Libpgf.combined k g = .ok x) {i : Nat} {sym : PgfSymbol} :
    x.Behind i sym ↔ k.Behind i sym ∨ (i = k.seq_idx ∧ k.curr_sym = some sym) := by
  obtain ⟨-, hb, -, -, -, -⟩ := combined_ok hx
  obtain ⟨seq, hseq, -, hcurr, -⟩ := hk.row
  simp only [PgfItem.Behind, hb, (hk.combined hx).2, hseq, Option.some.injEq, exists_eq_left', Nat.lt_succ_iff_lt_or_eq, or_and_right]
  refine or_congr_right (and_congr_right fun hi => ?_)
  rw [hi, hcurr]

namespace Running
variable {i j : Nat} {oi oj : Origin} {Ci Cj : Chart} {c r K g : Nat} {x : PgfItem}

theorem hist_le (hx : Hist (runLog l o C) x j) : j ≤ l.length := by
  obtain ⟨oj, Cj, hj⟩ := hx.call
  rcases log_iff.1 hj with ⟨a, ha, -⟩ | ⟨rfl, -⟩
  · exact Nat.le_of_lt (List.getElem?_eq_some_iff.1 ha).1
  · exact Nat.le_refl _

/-- Items with a new set were made in the call in progress. -/
theorem hist_new (h : Running l o C) (hx : Hist (runLog l o C) x j) (hK : (heapAfter l).sets.length ≤ x.base.conts) : j = l.length := by
  obtain ⟨i, oi, Ci, hij, hi, hc, -⟩ := hx.base
  refine Nat.le_antisymm (hist_le hx) (Nat.le_trans (Nat.le_of_not_lt fun hlt => ?_) hij)
  exact absurd ((h.conts_lt hi hc).2.2.2 hlt).1 (Nat.not_lt_of_le hK)

/-- The constituents that the call has predicted and completed are nullable. -/
def Blanks (ρ : PgfCCatId → PgfCCatId) (P : PgfParser) (C : Chart) : Prop :=
  ∀ c r K g, C.conts c r = some K → C.gen K = some g → P.concr.Nullable (ρ c) r

/-- What an item moves over without leaving the call can be empty. -/
theorem combine_empties (hL : (runLog l o C).Over P.concr ρ) (hρ : (runLog l o C).Roots P.concr ρ)
    (hb : Blanks ρ P C) {k : PgfItem} (hk : Hist (runLog l o C) k l.length) (haw : Awaits k c r)
    (hi : (runLog l o C)[l.length]? = some (oi, Ci)) (hc : Ci.conts c r = some K) (hj : (runLog l o C)[l.length]? = some (oj, Cj))
    (hg : Cj.gen K = some g) {sym : PgfSymbol} (hsym : k.curr_sym = some sym) : P.concr.Empties (k.base.prod.root ρ) sym := by
  rw [log_last, Option.some.injEq, Prod.mk.injEq] at hi hj
  obtain ⟨rfl, rfl⟩ := hi
  obtain ⟨-, rfl⟩ := hj
  obtain ⟨d, parg, hsym', hparg, rfl⟩ := (hk.fits_over hL).awaits haw
  rw [hsym, Option.some.injEq] at hsym'
  refine ⟨d, r, parg.root ρ, hsym', ?_, hb _ _ _ _ hc hg⟩
  rw [← (hk.over hL hρ).args, List.getElem?_map, hparg]
  rfl

/-- An item that was predicted in the call has moved over nothing that cannot be empty. -/
theorem behind_empties (h : Running l o C) (hL : (runLog l o C).Over P.concr ρ) (hρ : (runLog l o C).Roots P.concr ρ)
    (hb : Blanks ρ P C) (hx : Hist (runLog l o C) x j) (hK : (heapAfter l).sets.length ≤ x.base.conts) {i : Nat} {sym : PgfSymbol}
    (hi : x.Behind i sym) : P.concr.Empties (x.base.prod.root ρ) sym := by
  induction hx generalizing i sym with
  | new _ _ _ hx =>
    obtain ⟨-, -, -, hs, -⟩ := pgf_new_item_ok hx
    exact absurd hi.1 (by omega)
  | @combine k i' oi Ci j oj Cj c r K g x hk haw hij hci hc hj hg hx ih =>
    obtain ⟨-, hbase, -⟩ := combined_ok hx
    rw [hbase] at hK ⊢
    rcases ((hk.fits_over hL).behind hx).1 hi with hi | ⟨-, hsym⟩
    · exact ih hK hi
    · obtain rfl := h.hist_new hk hK
      obtain rfl : j = l.length := Nat.le_antisymm (hist_le (.combine hk haw hij hci hc hj hg hx)) hij
      exact combine_empties hL hρ hb hk haw hci hc hj hg hsym
  | @scan y i' j C' tok forms alt toks x hy hr hij hj hf hm hx _ =>
    obtain ⟨hbase, -⟩ := scanned_base hx
    have hlt := h.hist_new hy (hbase ▸ hK)
    exact absurd (hist_le (.scan hy hr hij hj hf hm hx)) (Nat.not_le_of_lt (hlt ▸ hij))

theorem blanks (hP : P.concr.Fits) (h : Running l o C) (hρ : (runLog l o C).Roots P.concr ρ) : Blanks ρ P C := by
  obtain ⟨hl, hs⟩ := h
  induction hs with
  | refl => intro c r K g hc; cases hc
  | @tail D D' hD hstep ih =>
    have hrD : Running l o D := ⟨hl, hD⟩
    have hρD : (runLog l o D).Roots P.concr ρ := hρ.mono (Log.Le.last hstep.grows)
    have hb : Blanks ρ P D := ih hρD
    cases hstep with
    | @complete_new x p ccat fid hx _ hcomp _ _ _ =>
      intro c r K g hc hg
      simp only [Chart.addGen, Chart.see, Function.update_apply] at hc hg
      split at hg
      · rename_i he
        subst he
        have hL := hrD.over hP hρD
        have hh := hrD.justified_hist hx
        obtain ⟨k, ok, Ck, -, hk, hck, -⟩ := hh.base
        obtain ⟨-, rfl, rfl⟩ := hrD.conts_unique (log_last _ _ _) hk hc hck
        -- all symbols of the row are behind the item
        obtain ⟨seq, hseq, hlen⟩ := complete_iff.1 hcomp
        refine .of_row (hh.over hL hρD).prod ((PgfProduction.root_row ..).trans hseq) fun sym hsym => ?_
        obtain ⟨i, hi⟩ := List.getElem?_of_mem hsym
        exact hrD.behind_empties hL hρD hb hh (hrD.own.conts hc) ⟨hlen ▸ (List.getElem?_eq_some_iff.1 hi).1, seq, hseq, hi⟩
      · exact hb c r K g hc hg
    | conts _ _ _ _ =>
      intro c r K g hc hg
      simp only [Chart.addConts] at hc hg
      split at hc
      · rw [Option.some.injEq] at hc
        obtain ⟨j, oj, Cj, c', r', -, hj, hc'⟩ := hrD.gen_conts (log_last _ _ _) hg
        exact absurd (hrD.conts_lt hj hc').1 (hc ▸ Nat.lt_irrefl _)
      · exact hb c r K g hc hg
    | see _ _ _ => exact hb
    | complete_old _ _ _ _ _ _ _ => exact hb
    | hold _ _ => exact hb
    | toks _ _ _ => exact hb
    | file _ _ _ => exact hb
    | accept _ _ => exact hb

/-! ## What a call predicts -/

/-- Items of earlier calls have older arguments. -/
theorem hist_args_lt (h : Running l o C) (hx : Hist (runLog l o C) x j) (hj : j < l.length) {parg : PgfPArg} (ha : parg ∈ x.args) :
    parg.ccat < (heapAfter l).ccats.length := by
  induction hx with
  | new hi _ hp hx =>
    obtain ⟨-, -, hargs, -⟩ := pgf_new_item_ok hx
    obtain ⟨ccat, hcc, hp⟩ := h.prod_old hi hp (.inl hj)
    refine h.session.valid.prods ccat (List.mem_of_getElem? hcc) _ hp _ ?_
    rw [hargs] at ha
    exact prod_args_ccats ha
  | combine _ _ hij _ _ hj' hg hx ih =>
    obtain ⟨-, -, -, -, -, d, r, -, -, hargs⟩ := combined_ok hx
    rw [hargs] at ha
    rcases List.mem_or_eq_of_mem_set ha with ha | rfl
    · exact ih (Nat.lt_of_le_of_lt hij hj) ha
    · exact (h.gen_lt hj' hg).2 hj
  | scan _ _ hij _ _ _ hx ih =>
    obtain ⟨-, hargs⟩ := scanned_base hx
    exact ih (Nat.lt_trans hij hj) (hargs ▸ ha)

/-- An argument that the item has got in the call, it has got where it last referred to it, and moved over nothing since that
cannot be empty. -/
def Since (concr : PgfConcr) (p : PgfProduction) (x : PgfItem) (d : Nat) : Prop :=
  ∃ i q, x.Behind i (.CAT d q) ∧ ∀ k sym, i < k → x.Behind k sym → concr.Empties p sym

theorem args_since (h : Running l o C) (hL : (runLog l o C).Over P.concr ρ) (hρ : (runLog l o C).Roots P.concr ρ) (hb : Blanks ρ P C)
    (hold : ∀ c r K, C.conts c r = some K → c < (heapAfter l).ccats.length) (hx : Hist (runLog l o C) x j) (hj : j = l.length)
    {d : Nat} {parg : PgfPArg} (hd : x.args[d]? = some parg) (hnew : (heapAfter l).ccats.length ≤ parg.ccat) :
    Since P.concr (x.base.prod.root ρ) x d := by
  induction hx generalizing d parg with
  | @new i oi Ci c r K p x hi hc hp hx =>
    -- an item that is predicted has the arguments of an older production
    subst hj
    obtain ⟨-, -, hargs, -⟩ := pgf_new_item_ok hx
    obtain ⟨hoi, rfl⟩ := (Prod.mk.injEq ..).mp (Option.some.inj ((log_last ..).symm.trans hi))
    obtain ⟨ccat, hcc, hp⟩ := h.prod_old hi hp (.inr (hold c r K hc))
    have hlt := h.session.valid.prods ccat (List.mem_of_getElem? hcc) _ hp _ (prod_args_ccats (hargs ▸ List.mem_of_getElem? hd))
    exact absurd hlt (Nat.not_lt_of_le hnew)
  | @combine k i oi Ci j oj Cj c r K g x hk haw hij hi hc hj' hg hx ih =>
    subst hj
    have hkf := hk.fits_over hL
    obtain ⟨-, hbase, -, -, -, e, r', hsym, he, hargs⟩ := combined_ok hx
    rw [hbase]
    rw [hargs, List.getElem?_set] at hd
    split at hd
    · rename_i hed
      subst hed
      -- it has just moved over the argument
      refine ⟨k.seq_idx, r', (hkf.behind hx).2 (.inr ⟨rfl, hsym⟩), fun i' sym hlt hi' => ?_⟩
      have := hi'.1
      have := (hkf.combined hx).2
      omega
    · rcases Nat.lt_or_eq_of_le hij with hlt | rfl
      · exact absurd (h.hist_args_lt hk hlt (List.mem_of_getElem? hd)) (Nat.not_lt_of_le hnew)
      · obtain ⟨i', q, hi', hall⟩ := ih rfl hd hnew
        refine ⟨i', q, (hkf.behind hx).2 (.inl hi'), fun k' sym hlt hk' => ?_⟩
        rcases (hkf.behind hx).1 hk' with hk' | ⟨-, hsym'⟩
        · exact hall k' sym hlt hk'
        · exact combine_empties hL hρ hb hk haw hi hc hj' hg hsym'
  | scan hy _ hij _ _ _ hx _ =>
    obtain ⟨-, hargs⟩ := scanned_base hx
    exact absurd (h.hist_args_lt hy (hj ▸ hij) (List.mem_of_getElem? (hargs ▸ hd))) (Nat.not_lt_of_le hnew)

/-- A call only predicts older categories, if rows do not come back to what has been empty since. -/
theorem predicts_old (hP : P.concr.Fits) (hs : P.concr.Spaced) (hn : ∃ c r, P.concr.Nullable c r) (h : Running l o C)
    (hρ : (runLog l o C).Roots P.concr ρ) : ∀ c r K, C.conts c r = some K → c < (heapAfter l).ccats.length := by
  obtain ⟨hl, hsteps⟩ := h
  induction hsteps with
  | refl => intro c r K hc; cases hc
  | @tail D D' hD hstep ih =>
    have hrD : Running l o D := ⟨hl, hD⟩
    have hρD : (runLog l o D).Roots P.concr ρ := hρ.mono (Log.Le.last hstep.grows)
    have hold := ih hρD
    cases hstep with
    | @conts c r k ccat hw _ _ _ =>
      intro c' r' K' hc'
      simp only [Chart.addConts] at hc'
      split at hc'
      · rename_i he
        obtain ⟨rfl, rfl⟩ := he
        cases k with
        | none =>
          cases o with
          | token p tok => exact hw.elim
          | parse cat lin_idx =>
            obtain ⟨-, id, cnccat, -, hcnc, hmem⟩ := hw
            exact Nat.lt_of_lt_of_le (P.concr.cats_valid cnccat (List.mem_of_getElem? hcnc) _ hmem _ rfl) hl.ccats_le.length_le
        | some x =>
          obtain ⟨hx, haw⟩ := hw
          have hh := hrD.traced.seen x hx
          have hL := hrD.over hP hρD
          have hxf := hh.fits_over hL
          obtain ⟨d, parg, hsym, hparg, rfl⟩ := hxf.awaits haw
          refine Nat.lt_of_not_le fun hnew => ?_
          obtain ⟨i, q, ⟨hi, seq, hseq, hiq⟩, hall⟩ := hrD.args_since hL hρD (hrD.blanks hP hρD) hold hh rfl hparg hnew
          obtain ⟨seq', hseq', -, hcurr, -⟩ := hxf.row
          rw [hseq, Option.some.injEq] at hseq'
          subst hseq'
          obtain ⟨k, sym, hik, hkx, hk, hne⟩ := hs hn _ _ _ seq i x.seq_idx d q _ (hh.over hL hρD).prod
            ((PgfProduction.root_row ..).trans hseq) hi hiq (hcurr.trans hsym)
          exact hne (hall k sym hik ⟨hkx, seq, hseq, hk⟩)
      · exact hold c' r' K' hc'
    | see _ _ _ => exact hold
    | complete_new _ _ _ _ _ _ => exact hold
    | complete_old _ _ _ _ _ _ _ => exact hold
    | hold _ _ => exact hold
    | toks _ _ _ => exact hold
    | file _ _ _ => exact hold
    | accept _ _ => exact hold

/-- Categories are completed for older sets, or for constituents of older categories. -/
theorem gen_key (hP : P.concr.Fits) (hs : P.concr.Spaced) (h : Running l o C) (hg : C.gen K = some g) :
    K < (heapAfter l).sets.length ∨ ∃ c r, C.conts c r = some K ∧ c < (heapAfter l).ccats.length := by
  refine or_iff_not_imp_left.2 fun hK => ?_
  obtain ⟨ρ, hρ⟩ := h.roots
  obtain ⟨i, oi, Ci, c, r, -, hi, hc⟩ := h.gen_conts (log_last _ _ _) hg
  rcases log_iff.1 hi with ⟨a, ha, rfl, rfl⟩ | ⟨rfl, rfl, rfl⟩
  · exact absurd ((h.conts_lt hi hc).2.2.2 (List.getElem?_eq_some_iff.1 ha).1).1 hK
  · have hn := h.blanks hP hρ c r K g hc hg
    exact ⟨c, r, hc, h.predicts_old hP hs ⟨_, _, hn⟩ hρ c r K hc⟩

end Running

end Libpgf
