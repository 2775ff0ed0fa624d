import Mathlib.Combinatorics.Enumerative.DoubleCounting
import Mathlib.Data.Finset.Sum
import Mathlib.Data.Set.Finite.List
import Libpgf.Pgf.Completeness
import Libpgf.Pgf.Depth
import Libpgf.Pgf.Nullable
/-!
# Calls end

The recursion of a call is as deep as the items that it sees are many. Where
rows do not come back to what has been empty since, a call completes categories
only for constituents of older categories and for older sets, so there are
finitely many of them, and finitely many items.
-/

namespace Libpgf

variable {P : PgfParser} {l : List (Call P)} {o : Origin} {C : Chart}

/-- There are finitely many lists of limited length over a finite set. -/
theorem finite_lists {α : Type} {s : Set α} (hs : s.Finite) (n : Nat) : {as : List α | as.length ≤ n ∧ ∀ a ∈ as, a ∈ s}.Finite := by
  have := hs.to_subtype
  refine ((List.finite_length_le s n).image (List.map Subtype.val)).subset ?_
  rintro as ⟨hn, has⟩
  lift as to List s using has
  exact ⟨as, by simpa using hn, rfl⟩

/-! ## What is finite in a grammar -/

def PgfConcr.prods (concr : PgfConcr) : List PgfProduction := concr.ccatMem.flatMap fun ccat => ccat.prods.elems

theorem PgfConcr.Prod.mem {concr : PgfConcr} {c : PgfCCatId} {p : PgfProduction} (h : concr.Prod c p) : p ∈ concr.prods := by
  obtain ⟨ccat, hc, hp⟩ := h
  exact List.mem_flatMap.2 ⟨ccat, List.mem_of_getElem? hc, hp⟩

/-- The constituent to which a symbol refers. -/
def PgfSymbol.ctnt : PgfSymbol → Option Nat
  | CAT _ r => some r
  | _ => none

def PgfProduction.ctnts : PgfProduction → List Nat
  | APPLY f _ => f.lins.flatten.filterMap PgfSymbol.ctnt
  | COERCE _ => []

def Origin.ctnts : Origin → List Nat
  | parse _ lin_idx => [lin_idx]
  | token _ _ => []

/-- The constituents that calls for `os` may be about: those asked for, and those to which rows refer. -/
def ctntsOf (concr : PgfConcr) (os : List Origin) : List Nat := os.flatMap Origin.ctnts ++ concr.prods.flatMap PgfProduction.ctnts

/-- The arguments of a production, of categories among the first `n`. -/
def PgfConcr.Args (concr : PgfConcr) (n : Nat) : Set (List PgfPArg) :=
  {args | args.length ≤ (concr.prods.map fun p => (prod_args p).length).sum ∧ ∀ a ∈ args, a ∈ {a : PgfPArg | a.hypos = [] ∧ a.ccat < n}}

/-- The productions that a grammar production is refined to by categories among the first `n`. -/
def PgfConcr.Prods (concr : PgfConcr) (n : Nat) : Set PgfProduction :=
  {p | (∃ f args₀ args, PgfProduction.APPLY f args₀ ∈ concr.prods ∧ args ∈ concr.Args n ∧ p = .APPLY f args) ∨ ∃ c, c < n ∧ p = .COERCE c}

theorem PgfConcr.args_finite (concr : PgfConcr) (n : Nat) : (concr.Args n).Finite := by
  refine finite_lists (((Set.finite_Iio n).image fun c => (⟨[], c⟩ : PgfPArg)).subset ?_) _
  rintro ⟨hypos, c⟩ ⟨rfl, hc⟩
  exact ⟨c, hc, rfl⟩

theorem PgfConcr.prods_finite (concr : PgfConcr) (n : Nat) : (concr.Prods n).Finite := by
  refine ((((List.finite_toSet concr.prods).prod (concr.args_finite n)).image fun q => match q.1 with
    | .APPLY f _ => PgfProduction.APPLY f q.2
    | .COERCE c => .COERCE c).union ((Set.finite_Iio n).image PgfProduction.COERCE)).subset ?_
  rintro p (⟨f, args₀, args, hf, hargs, rfl⟩ | ⟨c, hc, rfl⟩)
  · exact .inl ⟨(_, args), ⟨hf, hargs⟩, rfl⟩
  · exact .inr ⟨c, hc, rfl⟩

theorem PgfItem.Over.args_mem {concr : PgfConcr} {ρ : PgfCCatId → PgfCCatId} {x : PgfItem} {n : Nat} (h : x.Over concr ρ)
    (hf : x.Fits) (hv : ∀ a ∈ x.args, a.ccat < n) : x.args ∈ concr.Args n := by
  refine ⟨?_, fun a ha => ⟨hf.hypos a ha, hv a ha⟩⟩
  rw [← List.length_map (f := PgfPArg.root ρ), h.args]
  exact List.le_sum_of_mem (List.mem_map_of_mem (f := fun p => (prod_args p).length) h.prod.mem)

theorem PgfItem.Over.prod_mem {concr : PgfConcr} {ρ : PgfCCatId → PgfCCatId} {x : PgfItem} {n : Nat} (h : x.Over concr ρ)
    (hf : x.Fits) (hv : ∀ c ∈ x.base.prod.ccats, c < n) : x.base.prod ∈ concr.Prods n := by
  have hprod := h.prod.mem
  have hfits := hf.prod
  cases hp : x.base.prod with
  | APPLY f args =>
    rw [hp] at hprod hfits hv
    refine .inl ⟨f, _, args, hprod, ⟨?_, fun a ha => ⟨hfits.2 a ha, hv a.ccat (prod_args_ccats (p := .APPLY f args) ha)⟩⟩, rfl⟩
    have hlen := List.le_sum_of_mem (List.mem_map_of_mem (f := fun p => (prod_args p).length) hprod)
    simpa [PgfProduction.root, prod_args] using hlen
  | COERCE c =>
    rw [hp] at hv
    exact .inr ⟨c, hv c (List.mem_singleton_self c), rfl⟩

/-! ## What is predicted -/

theorem awaits_ctnts {concr : PgfConcr} {ρ : PgfCCatId → PgfCCatId} {x : PgfItem} {c : PgfCCatId} {r : Nat} {os : List Origin}
    (h : x.Over concr ρ) (haw : Awaits x c r) (hb : x.base.lin_idx ∈ ctntsOf concr os) : r ∈ ctntsOf concr os := by
  have hprod := h.prod.mem
  cases hp : x.base.prod with
  | APPLY f args =>
    rw [hp] at hprod
    simp only [Awaits, hp] at haw
    obtain ⟨seq, d, parg, hl, hs, -⟩ := haw
    refine List.mem_append_right _ (List.mem_flatMap.2 ⟨_, hprod, List.mem_filterMap.2 ⟨.CAT d r, ?_, rfl⟩⟩)
    exact List.mem_flatten.2 ⟨seq, List.mem_of_getElem? hl, List.mem_of_getElem? hs⟩
  | COERCE coerce =>
    simp only [Awaits, hp] at haw
    exact haw.2.2 ▸ hb

/-- The log of a session names no other constituents. -/
def Log.Names (concr : PgfConcr) (os : List Origin) (L : Log) : Prop :=
  ∀ (i : Nat) (oi : Origin) (Ci : Chart), L[i]? = some (oi, Ci) → ∀ c r K, Ci.conts c r = some K → r ∈ ctntsOf concr os

theorem Running.names (hP : P.concr.Fits) (h : Running l o C) {os : List Origin} (ho : o ∈ os)
    (hl : (logOf l).Names P.concr os) : (runLog l o C).Names P.concr os := by
  obtain ⟨hsess, hs⟩ := h
  induction hs with
  | refl =>
    intro i oi Ci hi c r K hc
    rcases log_iff.1 hi with ha | ⟨-, -, rfl⟩
    · exact hl i oi Ci (logOf_getElem?.2 ha) c r K hc
    · cases hc
  | @tail D D' hD hstep ih =>
    have hrD : Running l o D := ⟨hsess, hD⟩
    have hlast : ∀ c r K, D'.conts c r = some K → r ∈ ctntsOf P.concr os := by
      have hold : ∀ c r K, D.conts c r = some K → r ∈ ctntsOf P.concr os := ih _ _ _ (log_last l o D)
      cases hstep with
      | @conts c r k ccat hw _ _ _ =>
        intro c' r' K' hc'
        simp only [Chart.addConts] at hc'
        split at hc'
        · rename_i he
          obtain ⟨rfl, rfl⟩ := he
          cases k with
          | none =>
            cases o with
            | token p tok => exact hw.elim
            | parse cat lin_idx =>
              obtain ⟨rfl, -⟩ := hw
              exact List.mem_append_left _ (List.mem_flatMap.2 ⟨_, ho, List.mem_singleton_self _⟩)
          | some x =>
            obtain ⟨hx, haw⟩ := hw
            obtain ⟨ρ, hρ⟩ := hrD.roots
            have hh := hrD.traced.seen x hx
            obtain ⟨i, oi, Ci, -, hi, hc, -⟩ := hh.base
            exact awaits_ctnts (hh.over (hrD.over hP hρ) hρ) haw (ih i oi Ci hi _ _ _ hc)
        · exact hold c' r' K' hc'
      | see _ _ _ => exact hold
      | complete_new _ _ _ _ _ _ => exact hold
      | complete_old _ _ _ _ _ _ _ => exact hold
      | hold _ _ => exact hold
      | toks _ _ _ => exact hold
      | file _ _ _ => exact hold
      | accept _ _ => exact hold
    intro i oi Ci hi c r K hc
    rcases log_iff.1 hi with ha | ⟨-, -, rfl⟩
    · exact hl i oi Ci (logOf_getElem?.2 ha) c r K hc
    · exact hlast c r K hc

theorem Log.Names.mono {concr : PgfConcr} {os os' : List Origin} {L : Log} (h : L.Names concr os) (hsub : os ⊆ os') : L.Names concr os' := by
  intro i oi Ci hi c r K hc
  rcases List.mem_append.1 (h i oi Ci hi c r K hc) with hr | hr
  · obtain ⟨o, ho, hr⟩ := List.mem_flatMap.1 hr
    exact List.mem_append_left _ (List.mem_flatMap.2 ⟨o, hsub ho, hr⟩)
  · exact List.mem_append_right _ hr

theorem Session.names (hP : P.concr.Fits) (hl : Session P l) : (logOf l).Names P.concr (l.map Call.origin) := by
  induction hl with
  | nil => intro i oi Ci hi; simp [logOf] at hi
  | @call l o s fuel hl hr ih =>
    have hrun : Running l o s.chart := ⟨hl, (Origin.run_called hr).steps⟩
    rw [← runLog_append, List.map_append]
    exact hrun.names hP (List.mem_append_right _ (List.mem_singleton_self o)) (ih.mono (List.subset_append_left _ _))

/-! ## How many categories and items there are -/

/-- The constituents that a call for `o` after the calls `l` may be about. -/
def ctntsAfter (l : List (Call P)) (o : Origin) : List Nat := ctntsOf P.concr (l.map Call.origin ++ [o])

/-- The categories that there can be when a call for `o` after the calls `l` is in progress. -/
def catsLimit (l : List (Call P)) (o : Origin) : Nat :=
  (heapAfter l).ccats.length + (heapAfter l).sets.length + (heapAfter l).ccats.length * (ctntsAfter l o).toFinset.card

namespace Running
variable {x y : PgfItem}

theorem conts_ctnts (hP : P.concr.Fits) (h : Running l o C) {c r K i : Nat} {oi : Origin} {Ci : Chart}
    (hi : (runLog l o C)[i]? = some (oi, Ci)) (hc : Ci.conts c r = some K) : r ∈ ctntsAfter l o :=
  h.names hP (List.mem_append_right _ (List.mem_singleton_self o))
    ((h.session.names hP).mono (List.subset_append_left _ _)) i oi Ci hi c r K hc

theorem cats_le (hP : P.concr.Fits) (hs : P.concr.Spaced) (h : Running l o C) : C.ccats.length ≤ catsLimit l o := by
  -- every new category has a key, and different categories have different keys
  have hcard : (Finset.Ico (heapAfter l).ccats.length C.ccats.length).card ≤
      ((Finset.range (heapAfter l).sets.length).disjSum
        (Finset.range (heapAfter l).ccats.length ×ˢ (ctntsAfter l o).toFinset)).card := by
    refine Finset.card_le_card_of_forall_subsingleton (fun g key => ∃ K, C.gen K = some g ∧
      (key = .inl K ∨ ∃ c r, key = .inr (c, r) ∧ C.conts c r = some K)) (fun g hg => ?_) fun key _ => ?_
    · obtain ⟨hge, hlt⟩ := Finset.mem_Ico.1 hg
      have h0 : (heapAfter l).chart.Generated (heapAfter l).ccats.length :=
        ⟨fun hg => (Option.some_ne_none _ hg.symm).elim, fun hn hlt => absurd hlt (Nat.not_lt_of_le hn)⟩
      obtain ⟨K, hK⟩ := (h0.steps (Heap.chart_wf _ _) h.steps).gen hge hlt
      rcases h.gen_key hP hs hK with hlt | ⟨c, r, hc, hlt⟩
      · exact ⟨.inl K, by simpa using hlt, K, hK, .inl rfl⟩
      · exact ⟨.inr (c, r), by simpa using ⟨hlt, h.conts_ctnts hP (log_last _ _ _) hc⟩, K, hK, .inr ⟨c, r, rfl, hc⟩⟩
    · rintro g ⟨-, K, hK, hkey⟩ g' ⟨-, K', hK', hkey'⟩
      have hKK : K = K' := by
        rcases hkey with rfl | ⟨c, r, rfl, hc⟩ <;> rcases hkey' with he | ⟨c', r', he, hc'⟩
        · exact Sum.inl.inj he
        · cases he
        · cases he
        · cases he
          rw [hc, Option.some.injEq] at hc'
          exact hc'
      rw [← hKK, hK, Option.some.injEq] at hK'
      exact hK'
  rw [Nat.card_Ico, Finset.card_disjSum, Finset.card_product, Finset.card_range, Finset.card_range] at hcard
  unfold catsLimit
  omega

/-- What tells the items seen in a call apart. -/
def key (n : Nat) (x : PgfItem) : (Nat × Nat × PgfProduction × Nat) × List PgfPArg × Nat × Nat × Nat :=
  ((min n x.base.conts, x.base.ccat, x.base.prod, x.base.lin_idx), x.args, x.seq_idx, x.tok_idx, x.alt)

theorem key_inj (hP : P.concr.Fits) (h : Running l o C) (hx : x ∈ C.seen) (hy : y ∈ C.seen)
    (he : key (heapAfter l).sets.length x = key (heapAfter l).sets.length y) : x = y := by
  have hxh := h.traced.seen x hx
  have hyh := h.traced.seen y hy
  have hxf := (h.fits hP).seen x hx
  have hyf := (h.fits hP).seen y hy
  simp only [key, Prod.mk.injEq] at he
  obtain ⟨⟨hK, hc, hp, hr⟩, ha, hs, ht, halt⟩ := he
  -- a new set is determined by the constituent
  have hconts : x.base.conts = y.base.conts := by
    by_cases hxn : x.base.conts < (heapAfter l).sets.length
    · rw [Nat.min_eq_right (Nat.le_of_lt hxn)] at hK
      rcases Nat.le_total (heapAfter l).sets.length y.base.conts with hyn | hyn
      · rw [Nat.min_eq_left hyn] at hK
        exact absurd hxn (hK ▸ Nat.lt_irrefl _)
      · rw [Nat.min_eq_right hyn] at hK
        exact hK
    have hyn : ¬ y.base.conts < (heapAfter l).sets.length := by
      intro hyn
      rw [Nat.min_eq_left (Nat.le_of_not_lt hxn), Nat.min_eq_right (Nat.le_of_lt hyn)] at hK
      exact absurd hyn (hK ▸ Nat.lt_irrefl _)
    have hnew : ∀ {z : PgfItem}, Hist (runLog l o C) z l.length → ¬ z.base.conts < (heapAfter l).sets.length →
        C.conts z.base.ccat z.base.lin_idx = some z.base.conts := by
      intro z hz hn
      obtain ⟨i, oi, Ci, -, hi, hci, -⟩ := hz.base
      rcases log_iff.1 hi with ⟨a, hai, rfl, rfl⟩ | ⟨rfl, rfl, rfl⟩
      · exact absurd ((h.conts_lt hi hci).2.2.2 (List.getElem?_eq_some_iff.1 hai).1).1 hn
      · exact hci
    have hxc := hnew hxh hxn
    rw [hc, hr, hnew hyh hyn, Option.some.injEq] at hxc
    exact hxc.symm
  obtain ⟨seq, hseq, -, hcurr, -⟩ := hxf.row
  obtain ⟨seq', hseq', -, hcurr', -⟩ := hyf.row
  rw [hp, hr, hseq', Option.some.injEq] at hseq
  obtain ⟨⟨xK, xc, xp, xr⟩, xa, xsym, xs, xt, xalt⟩ := x
  obtain ⟨⟨yK, yc, yp, yr⟩, ya, ysym, ys, yt, yalt⟩ := y
  simp only at hconts hc hp hr ha hs ht halt hcurr hcurr'
  subst hconts hc hp hr ha hs ht halt hseq
  rw [← hcurr, ← hcurr']

end Running

theorem Hist.alt_lt {L : Log} {x : PgfItem} {j : Nat} (h : Hist L x j) : x.alt < 2 ^ 8 := by
  induction h with
  | new _ _ _ hx =>
    obtain ⟨-, -, -, -, -, h0⟩ := pgf_new_item_ok hx
    omega
  | combine _ _ _ _ _ _ _ hx ih =>
    obtain ⟨-, -, -, -, halt, -⟩ := combined_ok hx
    exact halt ▸ ih
  | scan _ _ _ _ _ _ hx _ =>
    obtain ⟨-, -, -, halt, -⟩ := scanned_ok hx
    rw [halt]
    exact Nat.mod_lt _ (by decide)

theorem PgfItem.Fits.tok_idx_lt {x : PgfItem} (h : x.Fits) : x.tok_idx < 2 ^ 8 := by
  rcases h.begun with h0 | ⟨sym, form, hsym, hform, hlt⟩
  · omega
  · exact Nat.lt_trans hlt (hform.lt (h.sym_fits hsym)).2.1

/-- The keys of the items that a call can see. -/
def keys (l : List (Call P)) (o : Origin) : Set ((Nat × Nat × PgfProduction × Nat) × List PgfPArg × Nat × Nat × Nat) :=
  (Set.Iic (heapAfter l).sets.length ×ˢ Set.Iio (catsLimit l o) ×ˢ P.concr.Prods (catsLimit l o) ×ˢ {r | r ∈ ctntsAfter l o}) ×ˢ
    P.concr.Args (catsLimit l o) ×ˢ Set.Iio (2 ^ 16) ×ˢ Set.Iio (2 ^ 8) ×ˢ Set.Iio (2 ^ 8)

theorem keys_finite (l : List (Call P)) (o : Origin) : (keys l o).Finite :=
  ((Set.finite_Iic _).prod ((Set.finite_Iio _).prod ((P.concr.prods_finite _).prod (List.finite_toSet _)))).prod
    ((P.concr.args_finite _).prod ((Set.finite_Iio _).prod ((Set.finite_Iio _).prod (Set.finite_Iio _))))

theorem Running.key_mem (hP : P.concr.Fits) (hs : P.concr.Spaced) (h : Running l o C) {x : PgfItem} (hx : x ∈ C.seen) :
    key (heapAfter l).sets.length x ∈ keys l o := by
  obtain ⟨ρ, hρ⟩ := h.roots
  have hh := h.traced.seen x hx
  have hxo := hh.over (h.over hP hρ) hρ
  have hxf := (h.fits hP).seen x hx
  have hxv : x.Valid C.nsets (catsLimit l o) := by
    have hv := h.session.valid
    have hv₀ : (heapAfter l).chart.Valid := ⟨fun x hx => hx.elim, hv.items, hv.prods, fun c hc => by cases hc⟩
    exact ((hv₀.steps (Heap.chart_wf _ _) (fun x hx => hv.scans hx) h.steps).seen x hx).mono (Nat.le_refl _) (h.cats_le hP hs)
  obtain ⟨i, oi, Ci, -, hi, hc, -⟩ := hh.base
  obtain ⟨seq, -, hle, -, hlt, -⟩ := hxf.row
  exact ⟨⟨Nat.min_le_left _ _, hxv.ccat, hxo.prod_mem hxf hxv.prod, h.conts_ctnts hP hi hc⟩,
    hxo.args_mem hxf (fun a ha => hxv.args a ha _ (List.mem_cons_self ..)), Nat.lt_of_le_of_lt hle hlt, hxf.tok_idx_lt, hh.alt_lt⟩

theorem Running.seen_le (hP : P.concr.Fits) (hs : P.concr.Spaced) (h : Running l o C) {ys : Finset PgfItem}
    (hys : ∀ y ∈ ys, y ∈ C.seen) : ys.card ≤ (keys l o).ncard := by
  rw [← Set.ncard_coe_finset ys]
  refine Set.ncard_le_ncard_of_injOn (key (heapAfter l).sets.length) (fun y hy => h.key_mem hP hs (hys y hy)) ?_ (keys_finite l o)
  intro x hx y hy he
  exact h.key_inj hP (hys x hx) (hys y hy) he

/-- In grammars within the limits whose rows do not come back to what has been
empty since, calls end: their recursion is nowhere deeper than some depth, on
any memory that a session can leave, and they make no more categories than there are
older sets and pairs of an older category and a constituent. -/
theorem parsing_ends (hP : P.concr.Fits) (hs : P.concr.Spaced) (hl : Session P l) (o : Origin) :
    (∃ depth, ∀ fuel, depth ≤ fuel → o.run fuel (heapAfter l) ≠ .error .fuel) ∧
    ∀ fuel s, o.run fuel (heapAfter l) = .ok (some s) → s.heap.ccats.length ≤ catsLimit l o := by
  constructor
  · refine ⟨(keys l o).ncard + 1, fun fuel hfuel hrun => ?_⟩
    obtain ⟨D, ys, hD, rfl, hys⟩ := Origin.run_depth hrun
    have hlt := Running.seen_le hP hs ⟨hl, hD⟩ fun y hy => (hys y hy).1
    omega
  · intro fuel s hrun
    exact Running.cats_le hP hs ⟨hl, (Origin.run_called hrun).steps⟩

theorem Tiny.spaced : Tiny.concr.Spaced := by
  refine .of_full fun c p r seq hp hr => ?_
  obtain ⟨ccat, hc, hp⟩ := hp
  match c with
  | 0 =>
    cases hc
    simp only [PgfProductions.elems, List.mem_singleton] at hp
    subst hp
    cases r with
    | zero =>
      cases hr
      exact List.cons_ne_nil _ _
    | succ r => simp [PgfProduction.row, f] at hr
  | 1 =>
    cases hc
    simp only [PgfProductions.elems, List.mem_singleton] at hp
    subst hp
    cases r with
    | zero =>
      cases hr
      exact List.cons_ne_nil _ _
    | succ r => simp [PgfProduction.row, a] at hr
  | c + 2 => simp [concr] at hc

/-- The parse of `S` ends. -/
theorem parsing_ends_tiny : (∃ depth, ∀ fuel, depth ≤ fuel → (Origin.parse [83] 0).run fuel (newHeap Tiny.parser) ≠ .error .fuel) ∧
    ∀ fuel s, (Origin.parse [83] 0).run fuel (newHeap Tiny.parser) = .ok (some s) → s.heap.ccats.length ≤ catsLimit (P := Tiny.parser) [] (.parse [83] 0) :=
  parsing_ends Tiny.fits Tiny.spaced .nil (.parse [83] 0)

end Libpgf
