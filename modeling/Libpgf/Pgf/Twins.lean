import Libpgf.Pgf.Completeness
import Libpgf.Pgf.Roots
/-!
# How often a production is listed

The arguments of an item say when each constituent of its row was predicted and
completed, so the items that make the same production of a category differ only
in the `alt` with which they have read a form.
-/

namespace Libpgf

variable {P : PgfParser} {l : List (Call P)}

/-! ## Feeding tokens, backwards -/

/-- The tokens that have led to a parse state are the last ones of all that have. -/
theorem Fed.suffix {L : Log} {i i' j : Nat} {w w' : List PgfToken} (h : Fed L i w j) (h' : Fed L i' w' j) :
    (∃ v, w = v ++ w' ∧ Fed L i v i') ∨ ∃ v, w' = v ++ w ∧ Fed L i' v i := by
  induction h generalizing w' with
  | refl => exact .inr ⟨w', (List.append_nil _).symm, h'⟩
  | @token w j k tok C h hk ih =>
    cases h' with
    | refl => exact .inl ⟨w ++ [tok], (List.append_nil _).symm, .token h hk⟩
    | @token w' j' _ tok' C' h' hk' =>
      rw [hk, Option.some.injEq, Prod.mk.injEq, Origin.token.injEq] at hk'
      obtain ⟨⟨rfl, rfl⟩, rfl⟩ := hk'
      rcases ih h' with ⟨v, rfl, hv⟩ | ⟨v, rfl, hv⟩
      · exact .inl ⟨v, List.append_assoc .., hv⟩
      · exact .inr ⟨v, List.append_assoc .., hv⟩

/-! ## Forms that are tried -/

theorem scan_forms_tried {x : PgfItem} {forms : List (Nat × PgfTokens)} {alt : Nat} {form : PgfTokens} {sym : PgfSymbol}
    (h : scan_forms x = .ok forms) (hm : (alt, form) ∈ forms) (hsym : x.curr_sym = some sym) (h0 : x.tok_idx = 0) :
    sym.Tried alt form := by
  unfold scan_forms at h
  rw [hsym] at h
  cases sym with
  | KS tokens =>
    rw [Except.ok.injEq] at h
    subst h
    rw [List.mem_singleton, Prod.mk.injEq] at hm
    exact hm
  | KP dflt alts =>
    simp only [if_pos h0, Except.ok.injEq] at h
    subst h
    exact hm
  | CAT d r => cases h
  | LIT d r => cases h
  | VAR d r => cases h

/-- Different forms are tried with different numbers, and each with one only. -/
theorem PgfSymbol.Tried.unique {sym : PgfSymbol} {alt alt' : Nat} {form : PgfTokens} (h : sym.Tried alt form)
    (h' : sym.Tried alt' form) : alt = alt' := by
  have hskip : ∀ {dflt : PgfTokens} {alts : List PgfAlternative} {i j : Nat} {a b : PgfAlternative}, alts[i]? = some a →
      alts[j]? = some b → a.form = b.form → kp_skip dflt alts i = false → ¬ j < i := by
    intro dflt alts i j a b ha hb hf hs hlt
    simp only [kp_skip, ha, Bool.or_eq_false_iff, List.any_eq_false, decide_eq_true_eq] at hs
    exact hs.2 b (List.mem_of_getElem? ((List.getElem?_take_of_lt hlt).trans hb)) hf.symm
  have hdflt : ∀ {dflt : PgfTokens} {alts : List PgfAlternative} {i : Nat} {a : PgfAlternative}, alts[i]? = some a →
      kp_skip dflt alts i = false → a.form ≠ dflt := by
    intro dflt alts i a ha hs
    simp only [kp_skip, ha, Bool.or_eq_false_iff, decide_eq_false_iff_not] at hs
    exact hs.1
  cases sym with
  | KS tokens => exact h.1.trans h'.1.symm
  | KP dflt alts =>
    rcases List.mem_cons.1 h with h | h <;> rcases List.mem_cons.1 h' with h' | h'
    · rw [Prod.mk.injEq] at h h'
      exact h.1.trans h'.1.symm
    · obtain ⟨i, a, -, ha, hf, hs⟩ := mem_kp_alts.1 h'
      exact absurd (hf.symm.trans (Prod.mk.inj h).2) (hdflt ha hs)
    · obtain ⟨i, a, -, ha, hf, hs⟩ := mem_kp_alts.1 h
      exact absurd (hf.symm.trans (Prod.mk.inj h').2) (hdflt ha hs)
    · obtain ⟨i, a, rfl, ha, hf, hs⟩ := mem_kp_alts.1 h
      obtain ⟨j, b, rfl, hb, hf', hs'⟩ := mem_kp_alts.1 h'
      have hab : a.form = b.form := hf.symm.trans hf'
      have := hskip ha hb hab hs
      have := hskip hb ha hab.symm hs'
      omega
  | CAT d r => exact h.elim
  | LIT d r => exact h.elim
  | VAR d r => exact h.elim

/-! ## The last symbol that an item has moved over -/

/-- The item `y` stood before the symbol in or behind which `x` stands. -/
structure Began (L : Log) (y : PgfItem) (i : Nat) (sym : PgfSymbol) (x : PgfItem) : Prop where
  hist : Hist L y i
  tok_idx : y.tok_idx = 0
  at_sym : y.curr_sym = some sym
  base : y.base = x.base
  args : y.args = x.args

/-- Inside a form, the item has read the beginning of it. -/
def Inside (L : Log) (x : PgfItem) (j : Nat) : Prop :=
  ∃ y i sym form, Began L y i sym x ∧ y.seq_idx = x.seq_idx ∧ sym.Tried x.alt form ∧ Fed L i (form.take x.tok_idx) j

/-- An item that goes on with a form began with that form. -/
theorem scan_began (hP : P.concr.Fits) (hl : Session P l) {y x : PgfItem} {i : Nat} (hy : Hist (logOf l) y i)
    (hin : y.tok_idx ≠ 0 → Inside (logOf l) y i) {forms : List (Nat × PgfTokens)} {tok : PgfToken} {alt : Nat} {form : PgfTokens}
    {sym : PgfSymbol} (hf : scan_forms y = .ok forms) (hm : (alt, form) ∈ forms) (hs : PgfItem.Fits.Scanned y x sym tok alt form) :
    ∃ y₀ i₀, Began (logOf l) y₀ i₀ sym x ∧ y₀.seq_idx = y.seq_idx ∧ sym.Tried x.alt form ∧
      Fed (logOf l) i₀ (form.take y.tok_idx) i := by
  rw [hs.alt]
  by_cases hy0 : y.tok_idx = 0
  · have htried := scan_forms_tried hf hm hs.at_sym hy0
    refine ⟨y, i, ⟨hy, hy0, hs.at_sym, hs.base.symm, hs.args.symm⟩, rfl, htried, ?_⟩
    rw [hy0]
    exact .refl
  · obtain ⟨y₀, i₀, sym', form', hb, hseq, htried, hfed⟩ := hin hy0
    obtain ⟨seq, hrow, -, hcurr, -⟩ := (hb.hist.fits hP hl).row
    obtain ⟨seq', hrow', -, hcurr', -⟩ := (hy.fits hP hl).row
    -- it is the same symbol, and the same form
    have hsym : sym' = sym := by
      rw [hb.base, hrow', Option.some.injEq] at hrow
      rw [← hrow, hseq, hcurr', hs.at_sym, hb.at_sym, Option.some.injEq] at hcurr
      exact hcurr.symm
    subst hsym
    rw [hs.same_alt hy0] at htried
    obtain rfl := htried.is_form.unique hs.is_form
    exact ⟨y₀, i₀, ⟨hb.hist, hb.tok_idx, hb.at_sym, hb.base.trans hs.base.symm, hb.args.trans hs.args.symm⟩, hseq, htried, hfed⟩

theorem take_scanned {form : PgfTokens} {n : Nat} {tok : PgfToken} (h : form[n]? = some tok) :
    form.take (n + 1) = form.take n ++ [tok] := by
  rw [List.take_add_one, h]
  rfl

theorem Hist.inside (hP : P.concr.Fits) (hl : Session P l) {x : PgfItem} {j : Nat} (h : Hist (logOf l) x j) (h0 : x.tok_idx ≠ 0) :
    Inside (logOf l) x j := by
  induction h with
  | new _ _ _ hx =>
    obtain ⟨-, -, -, -, ht, -⟩ := pgf_new_item_ok hx
    exact absurd ht h0
  | combine hk _ _ _ _ _ _ hx _ =>
    obtain ⟨-, -, -, ht, -, d, r, hsym, -⟩ := combined_ok hx
    exact absurd (ht.trans ((hk.fits hP hl).tok_idx_eq_zero hsym)) h0
  | scan hy _ _ hj hf hm hx ih =>
    obtain ⟨-, sym, hs⟩ := (hy.fits hP hl).scanned hf hm hx
    obtain ⟨y₀, i₀, hb, hseq, htried, hfed⟩ := scan_began hP hl hy ih hf hm hs
    rcases hs.idx with ⟨-, -, ht⟩ | ⟨-, hsi, hti, -⟩
    · exact absurd ht h0
    · refine ⟨y₀, i₀, sym, _, hb, hseq.trans hsi.symm, htried, ?_⟩
      rw [hti, take_scanned hs.tok]
      exact .token hfed hj

/-- The item `k` stood before a constituent that was predicted in call `i`, and `x` stands behind it since it was completed in call `j`. -/
structure MovedOver (L : Log) (k : PgfItem) (i d r : Nat) (g : PgfCCatId) (x : PgfItem) (j : Nat) : Prop where
  hist : Hist L k i
  at_sym : k.curr_sym = some (.CAT d r)
  ok : combined k g = .ok x
  made : ∃ oi Ci oj Cj K parg, k.args[d]? = some parg ∧ L[i]? = some (oi, Ci) ∧ Ci.conts parg.ccat r = some K ∧
    L[j]? = some (oj, Cj) ∧ Cj.gen K = some g

/-- What an item between symbols has moved over last. -/
inductive LastSym (L : Log) (x : PgfItem) (j : Nat) : Prop
  | start : x.seq_idx = 0 → x.args = prod_args x.base.prod → x.alt = 0 → LastSym L x j
  | cat {k i d r g} : MovedOver L k i d r g x j → LastSym L x j
  | form {y i sym form} : Began L y i sym x → x.seq_idx = y.seq_idx + 1 → sym.Tried x.alt form → Fed L i form j → LastSym L x j

theorem Hist.last (hP : P.concr.Fits) (hl : Session P l) {x : PgfItem} {j : Nat} (h : Hist (logOf l) x j) (h0 : x.tok_idx = 0) :
    LastSym (logOf l) x j := by
  cases h with
  | new _ _ _ hx =>
    obtain ⟨-, hb, ha, hs, -, halt⟩ := pgf_new_item_ok hx
    exact .start hs (by rw [ha, hb]) halt
  | combine hk haw _ hi hc hj hg hx =>
    obtain ⟨d, parg, hsym, hparg, rfl⟩ := (hk.fits hP hl).awaits haw
    exact .cat ⟨hk, hsym, hx, _, _, _, _, _, parg, hparg, hi, hc, hj, hg⟩
  | @scan y i j C tok forms alt form x hy _ hij hj hf hm hx =>
    obtain ⟨-, sym, hs⟩ := (hy.fits hP hl).scanned hf hm hx
    obtain ⟨y₀, i₀, hb, hseq, htried, hfed⟩ := scan_began hP hl hy (hy.inside hP hl) hf hm hs
    rcases hs.idx with ⟨hlen, hsi, -⟩ | ⟨-, -, ht, -⟩
    · have hall := take_scanned hs.tok
      rw [hlen, List.take_length] at hall
      refine .form hb (by rw [hsi, hseq]) htried ?_
      rw [hall]
      exact .token hfed hj
    · omega

/-! ## What the arguments tell -/

/-- The items stand at the same place of the same row. -/
structure SamePlace (x y : PgfItem) : Prop where
  row : x.base.prod.row x.base.lin_idx = y.base.prod.row y.base.lin_idx
  seq_idx : x.seq_idx = y.seq_idx

theorem SamePlace.curr_sym {x y : PgfItem} (h : SamePlace x y) (hx : x.Fits) (hy : y.Fits) : x.curr_sym = y.curr_sym := by
  obtain ⟨seq, hseq, -, hcurr, -⟩ := hx.row
  obtain ⟨seq', hseq', -, hcurr', -⟩ := hy.row
  rw [h.row, hseq', Option.some.injEq] at hseq
  rw [← hcurr, ← hcurr', hseq, h.seq_idx]

theorem set_inj {α : Type} {as bs : List α} {d : Nat} {a v w : α} (ha : as[d]? = some a) (hb : bs[d]? = some a)
    (h : as.set d v = bs.set d w) : as = bs := by
  have hlen := congrArg List.length h
  rw [List.length_set, List.length_set] at hlen
  refine List.ext_getElem? fun e => ?_
  by_cases hde : d = e
  · rw [← hde, ha, hb]
  · have he := congrArg (·[e]?) h
    simpa only [List.getElem?_set_ne hde] using he

theorem MovedOver.places {L : Log} {k : PgfItem} {i d r : Nat} {g : PgfCCatId} {x : PgfItem} {j : Nat} (h : MovedOver L k i d r g x j)
    (hk : k.Fits) : x.base = k.base ∧ x.seq_idx = k.seq_idx + 1 ∧ x.args = k.args.set d ⟨[], g⟩ ∧ d < k.args.length := by
  obtain ⟨-, hb, -, -, -, d', r', hsym, hd, ha⟩ := combined_ok h.ok
  rw [h.at_sym, Option.some.injEq, PgfSymbol.CAT.injEq] at hsym
  obtain ⟨rfl, rfl⟩ := hsym
  exact ⟨hb, (hk.combined h.ok).2, ha, hd⟩

/-- The last argument set tells which constituent it was, of which argument, and when. -/
theorem MovedOver.unique (hP : P.concr.Fits) (hl : Session P l) {k k' x y : PgfItem} {i i' j j' d d' r r' : Nat} {g g' : PgfCCatId}
    (hx : MovedOver (logOf l) k i d r g x j) (hy : MovedOver (logOf l) k' i' d' r' g' y j') (h : SamePlace x y) (ha : x.args = y.args) :
    i = i' ∧ g = g' ∧ SamePlace k k' ∧ k.args = k'.args := by
  have hkf := hx.hist.fits hP hl
  have hkf' := hy.hist.fits hP hl
  obtain ⟨hb, hs, hxa, hd⟩ := hx.places hkf
  obtain ⟨hb', hs', hya, hd'⟩ := hy.places hkf'
  have hplace : SamePlace k k' := by
    refine ⟨?_, ?_⟩
    · have hrow := h.row
      rw [hb, hb'] at hrow
      exact hrow
    · have := h.seq_idx
      omega
  have hsym := hplace.curr_sym hkf hkf'
  rw [hx.at_sym, hy.at_sym, Option.some.injEq, PgfSymbol.CAT.injEq] at hsym
  obtain ⟨rfl, rfl⟩ := hsym
  rw [hxa, hya] at ha
  have hg : g = g' := by
    have hget := congrArg (·[d]?) ha
    simp only [List.getElem?_set_self hd, List.getElem?_set_self hd', Option.some.injEq, PgfPArg.mk.injEq, true_and] at hget
    exact hget
  subst hg
  obtain ⟨oi, Ci, oj, Cj, K, parg, hparg, hi, hc, hj, hgK⟩ := hx.made
  obtain ⟨oi', Ci', oj', Cj', K', parg', hparg', hi', hc', hj', hgK'⟩ := hy.made
  obtain ⟨a, hai, -, rfl⟩ := logOf_getElem?.1 hi
  obtain ⟨a', hai', -, rfl⟩ := logOf_getElem?.1 hi'
  obtain ⟨b, hbj, -, rfl⟩ := logOf_getElem?.1 hj
  obtain ⟨b', hbj', -, rfl⟩ := logOf_getElem?.1 hj'
  obtain ⟨-, rfl⟩ := hl.gen_unique hbj hbj' hgK hgK'
  obtain ⟨hii, hcat, -⟩ := hl.conts_unique hai hai' hc hc'
  -- the argument that was there before
  have hpp : parg = parg' := by
    have hh := hkf.hypos parg (List.mem_of_getElem? hparg)
    have hh' := hkf'.hypos parg' (List.mem_of_getElem? hparg')
    cases parg
    cases parg'
    simp_all
  exact ⟨hii, rfl, hplace, set_inj hparg (hpp ▸ hparg') ha⟩

/-- What two items at the same place with the same arguments have moved over last. -/
inductive LastBoth (L : Log) (x : PgfItem) (j : Nat) (y : PgfItem) (j' : Nat) : Prop
  | start : x.args = prod_args x.base.prod → y.args = prod_args y.base.prod → x.alt = y.alt → LastBoth L x j y j'
  | cat {k k' i d r g} : MovedOver L k i d r g x j → MovedOver L k' i d r g y j' → SamePlace k k' → k.args = k'.args → LastBoth L x j y j'
  | form {k k' i i' sym form form'} : Began L k i sym x → Began L k' i' sym y → SamePlace k k' → x.seq_idx = k.seq_idx + 1 →
      sym.Tried x.alt form → sym.Tried y.alt form' → Fed L i form j → Fed L i' form' j' → LastBoth L x j y j'

theorem last_both (hP : P.concr.Fits) (hl : Session P l) {x y : PgfItem} {j j' : Nat} (hx : Hist (logOf l) x j)
    (hy : Hist (logOf l) y j') (hx0 : x.tok_idx = 0) (hy0 : y.tok_idx = 0) (h : SamePlace x y) (ha : x.args = y.args) :
    LastBoth (logOf l) x j y j' := by
  have hseq := h.seq_idx
  have hrow := h.row
  rcases hx.last hP hl hx0 with ⟨hs, hxa, halt⟩ | @⟨k, i, d, r, g, hm⟩ | @⟨k, i, sym, form, hb, hs, htried, hfed⟩
  · rcases hy.last hP hl hy0 with ⟨-, hya, halt'⟩ | hm | ⟨-, hs', -, -⟩
    · exact .start hxa hya (halt.trans halt'.symm)
    · have := (hm.places (hm.hist.fits hP hl)).2.1
      omega
    · omega
  · have hkf := hm.hist.fits hP hl
    obtain ⟨hbase, hxs, -, -⟩ := hm.places hkf
    rcases hy.last hP hl hy0 with ⟨hs', -, -⟩ | @⟨k', i', d', r', g', hm'⟩ | @⟨k', i', sym', form', hb', hs', htried', -⟩
    · omega
    · obtain ⟨rfl, rfl, hplace, hargs⟩ := hm.unique hP hl hm' h ha
      have hsym := hplace.curr_sym hkf (hm'.hist.fits hP hl)
      rw [hm.at_sym, hm'.at_sym, Option.some.injEq, PgfSymbol.CAT.injEq] at hsym
      obtain ⟨rfl, rfl⟩ := hsym
      exact .cat hm hm' hplace hargs
    · -- a constituent is not read token by token
      have hplace : SamePlace k k' := ⟨by rw [← hbase, hb'.base]; exact hrow, by omega⟩
      have hsym := hplace.curr_sym hkf (hb'.hist.fits hP hl)
      rw [hm.at_sym, hb'.at_sym, Option.some.injEq] at hsym
      subst hsym
      exact htried'.elim
  · have hkf := hb.hist.fits hP hl
    rcases hy.last hP hl hy0 with ⟨hs', -, -⟩ | @⟨k', i', d', r', g', hm'⟩ | @⟨k', i', sym', form', hb', hs', htried', hfed'⟩
    · omega
    · have hkf' := hm'.hist.fits hP hl
      obtain ⟨hbase', hys, -, -⟩ := hm'.places hkf'
      have hplace : SamePlace k k' := ⟨by rw [← hbase', hb.base]; exact hrow, by omega⟩
      have hsym := hplace.curr_sym hkf hkf'
      rw [hb.at_sym, hm'.at_sym, Option.some.injEq] at hsym
      subst hsym
      exact htried.elim
    · have hplace : SamePlace k k' := ⟨by rw [hb.base, hb'.base]; exact hrow, by omega⟩
      have hsym := hplace.curr_sym hkf (hb'.hist.fits hP hl)
      rw [hb.at_sym, hb'.at_sym, Option.some.injEq] at hsym
      subst hsym
      exact .form hb hb' hplace hs htried htried' hfed hfed'

/-- Items at the same place with the same arguments come from productions with the same arguments. -/
theorem Hist.prod_args_eq (hP : P.concr.Fits) (hl : Session P l) {x y : PgfItem} {j j' : Nat} (hx : Hist (logOf l) x j)
    (hy : Hist (logOf l) y j') (hx0 : x.tok_idx = 0) (hy0 : y.tok_idx = 0) (h : SamePlace x y) (ha : x.args = y.args) :
    prod_args x.base.prod = prod_args y.base.prod := by
  induction hn : x.seq_idx using Nat.strong_induction_on generalizing x y j j' with
  | _ n ih =>
    rcases last_both hP hl hx hy hx0 hy0 h ha with ⟨hxa, hya, -⟩ | @⟨k, k', i, d, r, g, hm, hm', hplace, hargs⟩ |
      @⟨k, k', i, i', sym, form, form', hb, hb', hplace, hs, -⟩
    · rw [← hxa, ← hya, ha]
    · have hkf := hm.hist.fits hP hl
      have hkf' := hm'.hist.fits hP hl
      obtain ⟨hbase, hs, -, -⟩ := hm.places hkf
      rw [hbase, (hm'.places hkf').1]
      exact ih k.seq_idx (by omega) hm.hist hm'.hist (hkf.tok_idx_eq_zero hm.at_sym) (hkf'.tok_idx_eq_zero hm'.at_sym) hplace hargs rfl
    · rw [← hb.base, ← hb'.base]
      exact ih k.seq_idx (by omega) hb.hist hb'.hist hb.tok_idx hb'.tok_idx hplace (by rw [hb.args, hb'.args, ha]) rfl

/-! ## Items that make the same production -/

/-- The items are the same up to the number of the form that they have read last. -/
def Twins (x y : PgfItem) : Prop := { x with alt := y.alt } = y

theorem Complete.ends {x : PgfItem} (hc : Complete x) (hf : x.Fits) : x.curr_sym = none ∧ x.tok_idx = 0 := by
  obtain ⟨seq, hseq, hlen⟩ := complete_iff.1 hc
  obtain ⟨seq', hseq', -, hcurr, -⟩ := hf.row
  rw [hseq, Option.some.injEq] at hseq'
  subst hseq'
  rw [hlen, List.getElem?_eq_none (Nat.le_refl _)] at hcurr
  refine ⟨hcurr.symm, ?_⟩
  rcases hf.begun with h0 | ⟨sym, form, hsym, -⟩
  · exact h0
  · rw [← hcurr] at hsym
    cases hsym

theorem Complete.twins {x y : PgfItem} (hx : Complete x) (hy : Complete y) (hxf : x.Fits) (hyf : y.Fits) (hb : x.base = y.base)
    (ha : x.args = y.args) : Twins x y := by
  obtain ⟨hxc, hx0⟩ := hx.ends hxf
  obtain ⟨hyc, hy0⟩ := hy.ends hyf
  obtain ⟨seq, hseq, hlen⟩ := complete_iff.1 hx
  obtain ⟨seq', hseq', hlen'⟩ := complete_iff.1 hy
  rw [hb, hseq', Option.some.injEq] at hseq
  subst hseq
  obtain ⟨xb, xa, xc, xs, xt, xalt⟩ := x
  obtain ⟨yb, ya, yc, ys, yt, yalt⟩ := y
  simp only at hb ha hxc hyc hx0 hy0 hlen hlen'
  subst hb ha hxc hyc hx0 hy0 hlen hlen'
  rfl

theorem PgfItemBase.ext_fields {b b' : PgfItemBase} (hK : b.conts = b'.conts) (hc : b.ccat = b'.ccat) (hp : b.prod = b'.prod)
    (hr : b.lin_idx = b'.lin_idx) : b = b' := by
  cases b
  cases b'
  simp only at hK hc hp hr
  subst hK hc hp hr
  rfl

/-- Two complete items for one set that make the same production are twins. -/
theorem completed_twins (hP : P.concr.Fits) (hl : Session P l) {x y : PgfItem} {j j' : Nat} (hx : Hist (logOf l) x j)
    (hy : Hist (logOf l) y j') (hxc : Complete x) (hyc : Complete y) (hK : x.base.conts = y.base.conts) {p : PgfProduction}
    (hxp : completed_prod x = .ok p) (hyp : completed_prod y = .ok p) : Twins x y := by
  have hxf := hx.fits hP hl
  have hyf := hy.fits hP hl
  have ha : x.args = y.args := (hxf.completed_prod hxp).2.symm.trans (hyf.completed_prod hyp).2
  obtain ⟨i, oi, Ci, -, hi, hci, -⟩ := hx.base
  obtain ⟨i', oi', Ci', -, hi', hci', -⟩ := hy.base
  obtain ⟨a, hai, -, rfl⟩ := logOf_getElem?.1 hi
  obtain ⟨a', hai', -, rfl⟩ := logOf_getElem?.1 hi'
  obtain ⟨-, hcat, hlin⟩ := hl.conts_unique hai hai' hci (hK ▸ hci')
  have hplace : SamePlace x y := by
    have hrow : x.base.prod.row x.base.lin_idx = y.base.prod.row y.base.lin_idx := by
      rw [← completed_prod_row hxp, ← completed_prod_row hyp, hlin]
    obtain ⟨seq, hseq, hlen⟩ := complete_iff.1 hxc
    obtain ⟨seq', hseq', hlen'⟩ := complete_iff.1 hyc
    rw [hrow, hseq', Option.some.injEq] at hseq
    exact ⟨hrow, by rw [hlen, hlen', hseq]⟩
  have hargs := hx.prod_args_eq hP hl hy (hxc.ends hxf).2 (hyc.ends hyf).2 hplace ha
  -- the function is that of the production made
  have hprod : x.base.prod = y.base.prod := by
    unfold completed_prod at hxp hyp
    cases hxb : x.base.prod with
    | APPLY f as =>
      cases hyb : y.base.prod with
      | APPLY f' as' =>
        simp only [hxb, hyb, Except.ok.injEq] at hxp hyp
        rw [← hyp, PgfProduction.APPLY.injEq] at hxp
        rw [hxb, hyb] at hargs
        rw [hxp.1, show as = as' from hargs]
      | COERCE c =>
        simp only [hxb, hyb, Except.ok.injEq] at hxp hyp
        obtain ⟨_, -, hyp⟩ := Exec.bind_ok.1 hyp
        obtain ⟨_, -, hyp⟩ := Exec.bind_ok.1 hyp
        rw [← hxp] at hyp
        cases hyp
    | COERCE c =>
      cases hyb : y.base.prod with
      | APPLY f' as' =>
        simp only [hxb, hyb, Except.ok.injEq] at hxp hyp
        obtain ⟨_, -, hxp⟩ := Exec.bind_ok.1 hxp
        obtain ⟨_, -, hxp⟩ := Exec.bind_ok.1 hxp
        rw [← hyp] at hxp
        cases hxp
      | COERCE c' =>
        rw [hxb, hyb] at hargs
        simp only [prod_args, List.cons.injEq, PgfPArg.mk.injEq, true_and, and_true] at hargs
        rw [hargs]
  exact hxc.twins hyc hxf hyf (PgfItemBase.ext_fields hK hcat hprod hlin) ha

theorem Twins.completed_prod {x y : PgfItem} (h : Twins x y) : Libpgf.completed_prod x = Libpgf.completed_prod y := by
  unfold Twins at h
  rw [← h]
  rfl

/-! ## The items of a synthetic category -/

namespace Chart
variable {scans : PgfItem → Prop} {starts : PgfCCatId → Nat → Prop} {C C' : Chart}

/-- Every complete item has made a category, and every category lists one production for each complete item of its set. -/
structure Listed (C : Chart) : Prop where
  made : ∀ x ∈ C.seen, Complete x → ∃ g, C.gen x.base.conts = some g
  prods : ∀ K g, C.gen K = some g → ∃ xs, C.ProdsOf K g xs ∧ ∀ x ∈ C.seen, Complete x → x.base.conts = K → x ∈ xs

theorem Listed.step (h : Listed C) (hw : Wf starts C) (hs : Step scans starts C C') : Listed C' := by
  have hsame : ∀ {D : Chart}, D.gen = C.gen → D.ccats = C.ccats → C.seen ⊆ D.seen → (∀ x ∈ D.seen, Complete x → x ∈ C.seen) →
      Listed D := by
    intro D hg hc hsub hback
    refine ⟨fun x hx hxc => hg ▸ h.made x (hback x hx hxc) hxc, fun K g hK => ?_⟩
    obtain ⟨xs, hxs, hall⟩ := h.prods K g (hg ▸ hK)
    exact ⟨xs, hxs.congr (by rw [hc]) hsub, fun x hx hxc => hall x (hback x hx hxc) hxc⟩
  cases hs with
  | see _ _ hn =>
    refine hsame rfl rfl (Set.subset_insert _ _) fun y hy hyc => ?_
    rcases hy with rfl | hy
    · exact absurd hyc hn
    · exact hy
  | @complete_new x p ccat fid _ _ hc hp hg hcc =>
    refine ⟨fun y hy hyc => ?_, fun K g hK => ?_⟩
    · simp only [addGen, see, Function.update_apply]
      split
      · exact ⟨_, rfl⟩
      · rename_i hne
        rcases hy with rfl | hy
        · exact absurd rfl hne
        · exact h.made y hy hyc
    · simp only [addGen, see, Function.update_apply] at hK
      split at hK
      · rename_i he
        rw [Option.some.injEq] at hK
        subst he hK
        refine ⟨[x], ⟨⟨_, [p], List.getElem?_concat_length, rfl, .cons hp .nil⟩, List.nodup_singleton x, fun y hy => ?_⟩, fun y hy hyc hyK => ?_⟩
        · rw [List.mem_singleton] at hy
          subst hy
          exact ⟨Set.mem_insert _ _, hc, rfl⟩
        · rcases hy with rfl | hy
          · exact List.mem_singleton_self _
          · -- no item of this set was complete before
            obtain ⟨g, hg'⟩ := h.made y hy hyc
            rw [hyK, hg] at hg'
            cases hg'
      · rename_i hne
        obtain ⟨xs, hxs, hall⟩ := h.prods K g hK
        refine ⟨xs, hxs.congr ?_ (Set.subset_insert _ _), fun y hy hyc hyK => ?_⟩
        · exact List.getElem?_append_left (hw.gen_lt hK)
        · rcases hy with rfl | hy
          · exact absurd hyK.symm hne
          · exact hall y hy hyc hyK
  | @complete_old x p g ccat ps _ hx hc hp hg hcc hps =>
    have hlt := (List.getElem?_eq_some_iff.1 hcc).1
    refine ⟨fun y hy hyc => ?_, fun K g' hK => ?_⟩
    · rcases hy with rfl | hy
      · exact ⟨g, hg⟩
      · exact h.made y hy hyc
    · obtain ⟨xs, hxs, hall⟩ := h.prods K g' hK
      by_cases hgg : g' = g
      · subst hgg
        obtain rfl := hw.gen_inj hg hK
        obtain ⟨ccat', ps', hcc', hps', hforall⟩ := hxs.prods
        rw [hcc] at hcc'
        cases hcc'
        rw [hps] at hps'
        cases hps'
        refine ⟨xs ++ [x], ⟨⟨_, ps ++ [p], List.getElem?_set_self hlt, rfl, ?_⟩, ?_, fun y hy => ?_⟩, fun y hy hyc hyK => ?_⟩
        · exact List.rel_append hforall (.cons hp .nil)
        · refine List.nodup_append.2 ⟨hxs.nodup, List.nodup_singleton x, fun y hy z hz he => ?_⟩
          rw [List.mem_singleton] at hz
          exact hx (hz ▸ he ▸ (hxs.items y hy).1)
        · rcases List.mem_append.1 hy with hy | hy
          · exact ⟨Set.mem_insert_of_mem _ (hxs.items y hy).1, (hxs.items y hy).2⟩
          · rw [List.mem_singleton] at hy
            subst hy
            exact ⟨Set.mem_insert _ _, hc, rfl⟩
        · rcases hy with rfl | hy
          · exact List.mem_append_right _ (List.mem_singleton_self _)
          · exact List.mem_append_left _ (hall y hy hyc hyK)
      · refine ⟨xs, hxs.congr (List.getElem?_set_ne (Ne.symm hgg)) (Set.subset_insert _ _), fun y hy hyc hyK => ?_⟩
        rcases hy with rfl | hy
        · have hK' : C.gen K = some g' := hK
          rw [hyK, hK', Option.some.injEq] at hg
          exact absurd hg hgg
        · exact hall y hy hyc hyK
  | conts _ _ _ _ => exact hsame rfl rfl (Set.Subset.refl _) fun _ hx _ => hx
  | hold _ _ => exact hsame rfl rfl (Set.Subset.refl _) fun _ hx _ => hx
  | toks _ _ _ => exact hsame rfl rfl (Set.Subset.refl _) fun _ hx _ => hx
  | file _ _ _ => exact hsame rfl rfl (Set.Subset.refl _) fun _ hx _ => hx
  | accept _ _ => exact hsame rfl rfl (Set.Subset.refl _) fun _ hx _ => hx

theorem Listed.steps (h : Listed C) (hw : Wf starts C) (hs : Steps scans starts C C') : Listed C' :=
  (hs.inv (I := fun D => Listed D ∧ Wf starts D) (fun ⟨hl, hw⟩ hs => ⟨hl.step hw hs, hw.step hs⟩) ⟨h, hw⟩).1

end Chart

theorem Session.listed (hl : Session P l) {j : Nat} {b : Call P} (hb : l[j]? = some b) : b.state.chart.Listed := by
  have h0 : (heapAfter (l.take j)).chart.Listed := ⟨fun x hx => hx.elim, fun K g hg => by cases hg⟩
  exact h0.steps (Heap.chart_wf _ _) (hl.called hb).steps

/-- A synthetic category lists no production twice if and only if no two different items that completed it are twins. -/
theorem productions_once (hP : P.concr.Fits) (hl : Session P l) {j : Nat} {b : Call P} (hb : l[j]? = some b) {K : PgfItemSetId}
    {g : PgfCCatId} (hg : b.state.chart.gen K = some g) : ∃ ccat ps, (heapAfter l).ccats[g]? = some ccat ∧ ccat.prods = .buf ps ∧
      (ps.Nodup ↔ ∀ x ∈ b.state.chart.seen, ∀ y ∈ b.state.chart.seen, Complete x → Complete y → x.base.conts = K →
        y.base.conts = K → Twins x y → x = y) := by
  obtain ⟨xs, hxs, hall⟩ := (hl.listed hb).prods K g hg
  obtain ⟨ccat, ps, hcc, hps, hforall⟩ := hxs.prods
  have hlt : g < b.state.heap.ccats.length := (hl.wf hb).gen_lt hg
  refine ⟨ccat, ps, (prefix_getElem? (hl.heap_le hb).ccats hlt).symm.trans hcc, hps, ?_⟩
  have hlen := hforall.length_eq
  constructor
  · intro hnd x hx y hy hxc hyc hxK hyK htw
    obtain ⟨n, hn, rfl⟩ := List.getElem_of_mem (hall x hx hxc hxK)
    obtain ⟨m, hm, rfl⟩ := List.getElem_of_mem (hall y hy hyc hyK)
    have hn' : n < ps.length := hn.trans_eq hlen
    have hm' : m < ps.length := hm.trans_eq hlen
    have hpn := hforall.get hn hn'
    have hpm := hforall.get hm hm'
    simp only [List.get_eq_getElem] at hpn hpm
    rw [htw.completed_prod, hpm, Except.ok.injEq] at hpn
    congr 1
    exact ((List.Nodup.getElem_inj_iff hnd).1 hpn).symm
  · intro htw
    refine List.nodup_iff_injective_get.2 fun n m he => ?_
    have hn : n.val < xs.length := n.isLt.trans_eq hlen.symm
    have hm : m.val < xs.length := m.isLt.trans_eq hlen.symm
    have hpn := hforall.get hn n.isLt
    have hpm := hforall.get hm m.isLt
    simp only [List.get_eq_getElem] at hpn hpm he
    obtain ⟨hxs₁, hxc, hxK⟩ := hxs.items _ (List.getElem_mem hn)
    obtain ⟨hys₁, hyc, hyK⟩ := hxs.items _ (List.getElem_mem hm)
    have htr := (hl.traced j b hb).seen
    have htwins := completed_twins hP hl (htr _ hxs₁) (htr _ hys₁) hxc hyc (hxK.trans hyK.symm) hpn (he ▸ hpm)
    have hxy := htw _ hxs₁ _ hys₁ hxc hyc hxK hyK htwins
    exact Fin.ext ((List.Nodup.getElem_inj_iff hxs.nodup).1 hxy)

/-- In `c b` the token `c` completes the only constituent of the second category, for the set made second. -/
theorem productions_once_tiny : ∃ (l : List (Call Tiny.parser)) (b : Call Tiny.parser) (g : PgfCCatId) (ccat : PgfCCat)
    (ps : List PgfProduction), Session Tiny.parser l ∧ b.state.chart.gen 1 = some g ∧ (heapAfter l).ccats[g]? = some ccat ∧
      ccat.prods = .buf ps ∧ (ps.Nodup ↔ ∀ x ∈ b.state.chart.seen, ∀ y ∈ b.state.chart.seen, Complete x → Complete y →
        x.base.conts = 1 → y.base.conts = 1 → Twins x y → x = y) := by
  obtain ⟨l, hl, hgen⟩ := Session.of_check 20 Tiny.calls
    (fun l : List (Call Tiny.parser) => (l[1]?.bind fun b => b.state.generated_cats 1).isSome) (by decide +kernel)
  obtain ⟨g, hg⟩ := Option.isSome_iff_exists.1 hgen
  obtain ⟨b, hb, hg⟩ := Option.bind_eq_some_iff.1 hg
  obtain ⟨ccat, ps, hccat, hps, hiff⟩ := productions_once Tiny.fits hl hb (K := 1) hg
  exact ⟨l, b, g, ccat, ps, hl, hg, hccat, hps, hiff⟩

/-! ## Grammars that have no twins -/

/-- Of two forms that are tried, neither is the end of the other. -/
def PgfSymbol.SuffixFree (sym : PgfSymbol) : Prop :=
  ∀ (alt alt' : Nat) (form form' : PgfTokens), sym.Tried alt form → sym.Tried alt' form' → form <:+ form' → form = form'

/-- The rows of the grammar's productions have suffix-free symbols only. -/
def PgfConcr.SuffixFree (concr : PgfConcr) : Prop :=
  ∀ (c : PgfCCatId) (p : PgfProduction) (r : Nat) (seq : PgfSequence), concr.Prod c p → p.row r = some seq →
    ∀ sym ∈ seq, sym.SuffixFree

theorem Hist.suffixFree (hP : P.concr.Fits) (hs : P.concr.SuffixFree) (hl : Session P l) {x : PgfItem} {j : Nat}
    (hx : Hist (logOf l) x j) {sym : PgfSymbol} (hsym : x.curr_sym = some sym) : sym.SuffixFree := by
  obtain ⟨ρ, hρ⟩ := hl.roots
  obtain ⟨seq, hseq, -, hcurr, -⟩ := (hx.fits hP hl).row
  have hL : (logOf l).Over P.concr ρ := by
    intro i o C hi c p hp
    obtain ⟨a, ha, rfl, rfl⟩ := logOf_getElem?.1 hi
    have hp' := hl.prod_of ha hp
    exact ⟨hl.over hP hρ c p hp', (hl.heap_fits hP).prods c p hp'⟩
  refine hs _ _ _ seq (hx.over hL hρ).prod ((PgfProduction.root_row _ _).trans hseq) sym ?_
  rw [hsym] at hcurr
  exact List.mem_of_getElem? hcurr

/-- When a form ends where another one does, it is the same form, and began where that did. -/
theorem PgfSymbol.SuffixFree.form_eq {sym : PgfSymbol} (hs : sym.SuffixFree) {L : Log} {alt alt' i i' j : Nat}
    {form form' : PgfTokens} (h : sym.Tried alt form) (h' : sym.Tried alt' form') (hf : Fed L i form j) (hf' : Fed L i' form' j) :
    alt = alt' := by
  rcases hf.suffix hf' with ⟨v, hv, -⟩ | ⟨v, hv, -⟩
  · obtain rfl := hs _ _ _ _ h' h ⟨v, hv.symm⟩
    exact h.unique h'
  · obtain rfl := hs _ _ _ _ h h' ⟨v, hv.symm⟩
    exact h.unique h'

/-- In a suffix-free grammar an item is known by its production, its place and its arguments. -/
theorem Hist.eq_of_args (hP : P.concr.Fits) (hs : P.concr.SuffixFree) (hl : Session P l) {x y : PgfItem} {j : Nat}
    (hx : Hist (logOf l) x j) (hy : Hist (logOf l) y j) (hx0 : x.tok_idx = 0) (hy0 : y.tok_idx = 0) (hb : x.base = y.base)
    (hi : x.seq_idx = y.seq_idx) (ha : x.args = y.args) : x = y := by
  induction hn : x.seq_idx using Nat.strong_induction_on generalizing x y j with
  | _ n ih =>
    have hplace : SamePlace x y := ⟨by rw [hb], hi⟩
    have hsym := hplace.curr_sym (hx.fits hP hl) (hy.fits hP hl)
    have halt : x.alt = y.alt := by
      rcases last_both hP hl hx hy hx0 hy0 hplace ha with ⟨-, -, halt⟩ | @⟨k, k', i, d, r, g, hm, hm', hplace', hargs⟩ |
        @⟨k, k', i, i', sym, form, form', hk, -, -, -, htried, htried', hfed, hfed'⟩
      · exact halt
      · -- the items moved over the constituent were one item
        have hkf := hm.hist.fits hP hl
        have hkf' := hm'.hist.fits hP hl
        obtain ⟨hbase, hseq, -, -⟩ := hm.places hkf
        obtain ⟨hbase', -, -, -⟩ := hm'.places hkf'
        obtain rfl := ih k.seq_idx (by omega) hm.hist hm'.hist (hkf.tok_idx_eq_zero hm.at_sym) (hkf'.tok_idx_eq_zero hm'.at_sym)
          (hbase.symm.trans (hb.trans hbase')) hplace'.seq_idx hargs rfl
        have hxy := hm.ok.symm.trans hm'.ok
        rw [Except.ok.injEq] at hxy
        rw [hxy]
      · exact (hk.hist.suffixFree hP hs hl hk.at_sym).form_eq htried htried' hfed hfed'
    cases x
    cases y
    simp only at hx0 hy0 hb hi ha hsym halt
    subst hx0 hy0 hb hi ha hsym halt
    rfl

/-- The categories made by parsing were made by the calls. -/
theorem Session.made (hl : Session P l) {g : PgfCCatId} (hg : g < (heapAfter l).ccats.length)
    (hlt : P.concr.ccatMem.length ≤ g) : ∃ (j : Nat) (b : Call P) (K : PgfItemSetId), l[j]? = some b ∧ b.state.chart.gen K = some g := by
  induction hl with
  | nil => exact absurd hlt (Nat.not_le_of_lt hg)
  | @call l o s fuel hl hr ih =>
    rw [heapAfter_append] at hg
    by_cases hold : g < (heapAfter l).ccats.length
    · obtain ⟨j, b, K, hb, hK⟩ := ih hold
      exact ⟨j, b, K, by rw [List.getElem?_append_left (List.getElem?_eq_some_iff.1 hb).1]; exact hb, hK⟩
    · have h0 : (heapAfter l).chart.Generated (heapAfter l).ccats.length :=
        ⟨fun hg => (Option.some_ne_none _ hg.symm).elim, fun hn hlt => absurd hlt (Nat.not_lt_of_le hn)⟩
      obtain ⟨K, hK⟩ := (h0.steps (Heap.chart_wf _ _) (Origin.run_called hr).steps).gen (Nat.le_of_not_lt hold) hg
      exact ⟨l.length, ⟨o, s⟩, K, List.getElem?_concat_length, hK⟩

/-- In a suffix-free grammar no category is given a production twice. -/
theorem productions_distinct (hP : P.concr.Fits) (hs : P.concr.SuffixFree) (hl : Session P l) {g : PgfCCatId} {ccat : PgfCCat}
    (hg : (heapAfter l).ccats[g]? = some ccat) (hlt : P.concr.ccatMem.length ≤ g) : ∃ ps, ccat.prods = .buf ps ∧ ps.Nodup := by
  obtain ⟨j, b, K, hb, hK⟩ := hl.made (List.getElem?_eq_some_iff.1 hg).1 hlt
  obtain ⟨ccat', ps, hccat, hps, hiff⟩ := productions_once hP hl hb hK
  obtain rfl : ccat' = ccat := Option.some.inj (hccat.symm.trans hg)
  refine ⟨ps, hps, hiff.2 fun x hx y hy hxc hyc _ _ htw => ?_⟩
  have hxh := (hl.traced j b hb).seen x hx
  have hyh := (hl.traced j b hb).seen y hy
  refine hxh.eq_of_args hP hs hl hyh (hxc.ends (hxh.fits hP hl)).2 (hyc.ends (hyh.fits hP hl)).2 ?_ ?_ ?_ <;> rw [← htw]

end Libpgf
