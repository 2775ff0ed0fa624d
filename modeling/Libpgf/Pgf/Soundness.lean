import Libpgf.Pgf.Paths
/-!
# Soundness of the chart

An item has read the tokens fed between the call that predicted it and the call
that saw it. So a tree of a completed category yields what was fed since the
category was predicted, and it is a tree of the category that was predicted,
even where arguments have been parsed several times.
-/

namespace Libpgf

variable {P : PgfParser} {l : List (Call P)}

/-! ## What an item has read -/

/-- The tokens `z` are the beginning of the item's symbol. -/
def PgfItem.Inside (x : PgfItem) (z : List PgfToken) : Prop :=
  (x.tok_idx = 0 ∧ z = []) ∨ ∃ sym form, x.curr_sym = some sym ∧ sym.Form x.alt form ∧ z = form.take x.tok_idx

/-- With the trees `ts` for its arguments, the item has read `u` so far. -/
def PgfItem.Read (x : PgfItem) (ts : List Tree) (u : List PgfToken) : Prop :=
  ∃ seq v z, x.base.prod.row x.base.lin_idx = some seq ∧ u = v ++ z ∧
    YieldsSeq (argsYield ts) (seq.take x.seq_idx) v ∧ x.Inside z

namespace PgfItem.Read
variable {x y k : PgfItem} {ts : List Tree} {u v : List PgfToken}

theorem new {base : PgfItemBase} (hx : pgf_new_item base = .ok x) : x.Read ts [] := by
  obtain ⟨hl, -, -, hs, ht, -⟩ := pgf_new_item_ok hx
  obtain ⟨seq, hseq, -, -⟩ := located_iff.1 hl
  refine ⟨seq, [], [], hseq, rfl, ?_, .inl ⟨ht, rfl⟩⟩
  rw [hs]
  exact .nil

theorem combined (hf : k.Fits) {g : PgfCCatId} (hx : combined k g = .ok x) {d r : Nat} (hsym : k.curr_sym = some (.CAT d r))
    (h : k.Read ts u) (hv : argsYield ts d r v) : x.Read ts (u ++ v) := by
  obtain ⟨-, hb, -, ht, -⟩ := combined_ok hx
  have hs := (hf.combined hx).2
  have h0 := hf.tok_idx_eq_zero hsym
  obtain ⟨seq, u', z, hseq, rfl, hy, hz⟩ := h
  -- nothing of the symbol has been read before
  have hz0 : z = [] := by
    rcases hz with ⟨-, hz⟩ | ⟨sym, form, -, -, hz⟩
    · exact hz
    · rw [hz, h0]
      rfl
  obtain ⟨seq', hseq', -, hcurr, -⟩ := hf.row
  rw [hseq, Option.some.injEq] at hseq'
  subst hseq' hz0
  refine ⟨seq, u' ++ v, [], by rw [hb]; exact hseq, by simp, ?_, .inl ⟨ht.trans h0, rfl⟩⟩
  rw [hs]
  exact hy.take_succ (hcurr.trans hsym) hv

theorem scanned (hf : y.Fits) {sym : PgfSymbol} {tok : PgfToken} {alt : Nat} {form : PgfTokens}
    (hs : PgfItem.Fits.Scanned y x sym tok alt form) (h : y.Read ts u) : x.Read ts (u ++ [tok]) := by
  obtain ⟨seq, v, z, hseq, rfl, hy, hz⟩ := h
  have hz' : z = form.take y.tok_idx := by
    rcases hz with ⟨h0, rfl⟩ | ⟨sym', form', hsym', hform', rfl⟩
    · rw [h0]
      rfl
    · by_cases h0 : y.tok_idx = 0
      · rw [h0]
        rfl
      · rw [hs.at_sym, Option.some.injEq] at hsym'
        subst hsym'
        rw [hs.same_alt h0] at hform'
        rw [hform'.unique hs.is_form]
  have hlast : z ++ [tok] = form.take (y.tok_idx + 1) := by rw [hz', List.take_add_one, hs.tok]; rfl
  rw [List.append_assoc, hlast]
  obtain ⟨seq', hseq', -, hcurr, -⟩ := hf.row
  rw [hseq, Option.some.injEq] at hseq'
  subst hseq'
  rcases hs.idx with ⟨hlen, hsi, hti⟩ | ⟨-, hsi, hti, hc⟩
  · refine ⟨seq, v ++ form, [], by rw [hs.base]; exact hseq, by rw [hlen, List.take_length, List.append_nil], ?_,
      .inl ⟨hti, rfl⟩⟩
    rw [hsi]
    exact hy.take_succ (hcurr.trans hs.at_sym) hs.is_form.yields
  · exact ⟨seq, v, _, by rw [hs.base]; exact hseq, rfl, by rw [hsi]; exact hy,
      .inr ⟨sym, form, hc.trans hs.at_sym, hs.alt ▸ hs.is_form, by rw [hti]⟩⟩

theorem complete (hf : x.Fits) (hc : Complete x) (h : x.Read ts u) :
    ∃ seq, x.base.prod.row x.base.lin_idx = some seq ∧ YieldsSeq (argsYield ts) seq u := by
  obtain ⟨seq, v, z, hseq, rfl, hy, hz⟩ := h
  obtain ⟨seq', hseq', hlen⟩ := complete_iff.1 hc
  obtain ⟨seq'', hseq'', -, hcurr, -⟩ := hf.row
  rw [hseq, Option.some.injEq] at hseq' hseq''
  subst hseq' hseq''
  rw [hlen, List.getElem?_eq_none (Nat.le_refl _)] at hcurr
  rcases hz with ⟨-, rfl⟩ | ⟨sym, form, hsym, -⟩
  · rw [hlen, List.take_length] at hy
    exact ⟨seq, hseq, by rwa [List.append_nil]⟩
  · rw [← hcurr] at hsym
    cases hsym

end PgfItem.Read

/-! ## Sound trees -/

/-- Whenever the tree belongs to a category completed for a constituent, it
belongs to the category predicted there, and yields what was fed in between. -/
def Sound (l : List (Call P)) (t : Tree) : Prop :=
  ∀ {i j : Nat} {a b : Call P} {c g : PgfCCatId} {r : Nat} {K : PgfItemSetId}, l[i]? = some a → l[j]? = some b →
    a.state.chart.conts c r = some K → b.state.chart.gen K = some g → TreeOf (heapAfter l).Prod g t →
    TreeOf (heapAfter l).Prod c t ∧ ∃ u, Fed (logOf l) i u j ∧ t.Yields r u

/-- The trees are trees of the arguments. -/
def ArgTrees (prod : PgfCCatId → PgfProduction → Prop) (args : List PgfPArg) (ts : List Tree) : Prop :=
  ∀ (d : Nat) (parg : PgfPArg) (t : Tree), args[d]? = some parg → ts[d]? = some t → TreeOf prod parg.ccat t

theorem Hist.fits (hP : P.concr.Fits) (hl : Session P l) {x : PgfItem} {j : Nat} (h : Hist (logOf l) x j) : x.Fits := by
  induction h with
  | new hi _ hp hx =>
    obtain ⟨c, hc, rfl, rfl⟩ := logOf_getElem?.1 hi
    exact .new ((hl.all_fits hP hc).prods _ _ hp) hx
  | combine _ _ _ _ _ _ _ hx ih => exact (ih.combined hx).1
  | scan _ _ _ _ hf hm hx ih => exact (ih.scanned hf hm hx).1

theorem Hist.read (hP : P.concr.Fits) (hl : Session P l) {ts : List Tree} (hts : ∀ t ∈ ts, Sound l t) {x : PgfItem} {j : Nat}
    (h : Hist (logOf l) x j) (hlen : ts.length = x.args.length) (hargs : ArgTrees (heapAfter l).Prod x.args ts) :
    ArgTrees (heapAfter l).Prod (prod_args x.base.prod) ts ∧
      ∃ i a u, l[i]? = some a ∧ a.state.chart.conts x.base.ccat x.base.lin_idx = some x.base.conts ∧
        Fed (logOf l) i u j ∧ x.Read ts u := by
  induction h with
  | @new i o C c r K p x hi hc _ hx =>
    obtain ⟨a, ha, -, rfl⟩ := logOf_getElem?.1 hi
    obtain ⟨-, hb, hxa, -⟩ := pgf_new_item_ok hx
    refine ⟨by rw [hb]; exact hxa ▸ hargs, i, a, [], ha, by rw [hb]; exact hc, .refl, .new hx⟩
  | @combine k i oi Ci j oj Cj c r K g x hk haw hij hi hc hj hg hx ih =>
    have hkf := hk.fits hP hl
    obtain ⟨a, ha, -, rfl⟩ := logOf_getElem?.1 hi
    obtain ⟨b, hb, -, rfl⟩ := logOf_getElem?.1 hj
    obtain ⟨-, hbase, -, -, -, d, r', hsym, hd, hxa⟩ := combined_ok hx
    obtain ⟨d', parg, hsym', hparg, rfl⟩ := hkf.awaits haw
    rw [hsym, Option.some.injEq, PgfSymbol.CAT.injEq] at hsym'
    obtain ⟨rfl, rfl⟩ := hsym'
    rw [hxa, List.length_set] at hlen
    -- the tree of the argument that has just been parsed
    have htd := List.getElem?_eq_getElem (hlen ▸ hd)
    have hgt : TreeOf (heapAfter l).Prod g ts[d] :=
      hargs d ⟨[], g⟩ _ (by rw [hxa]; exact List.getElem?_set_self hd) htd
    obtain ⟨hct, v, hfed, hy⟩ := hts _ (List.mem_of_getElem? htd) ha hb hc hg hgt
    have hkargs : ArgTrees (heapAfter l).Prod k.args ts := by
      intro e q t he ht
      by_cases hde : d = e
      · subst hde
        rw [hparg, Option.some.injEq] at he
        rw [htd, Option.some.injEq] at ht
        exact he ▸ ht ▸ hct
      · exact hargs e q t (by rw [hxa, List.getElem?_set_ne hde]; exact he) ht
    obtain ⟨hprod, i₀, a₀, u, ha₀, hc₀, hfed₀, hread⟩ := ih hlen hkargs
    exact ⟨by rw [hbase]; exact hprod, i₀, a₀, u ++ v, ha₀, by rw [hbase]; exact hc₀, hfed₀.trans hfed,
      hread.combined hkf hx hsym ⟨_, htd, hy⟩⟩
  | @scan y i j C tok forms alt toks x hy _ hij hj hf hm hx ih =>
    have hyf := hy.fits hP hl
    obtain ⟨sym, hs⟩ := (hyf.scanned hf hm hx).2
    rw [hs.args] at hlen hargs
    obtain ⟨hprod, i₀, a₀, u, ha₀, hc₀, hfed₀, hread⟩ := ih hlen hargs
    exact ⟨by rw [hs.base]; exact hprod, i₀, a₀, u ++ [tok], ha₀, by rw [hs.base]; exact hc₀, .token hfed₀ hj,
      hread.scanned hyf hs⟩

theorem completed_prod_tree {x : PgfItem} {p : PgfProduction} (h : completed_prod x = .ok p) {ts : List Tree}
    (hn : ts.length = (prod_args p).length) : p.tree ts = x.base.prod.tree ts := by
  unfold completed_prod at h
  split at h
  · rename_i hp
    cases h
    rw [hp]
    rfl
  · rename_i hp
    obtain ⟨a, -, h⟩ := Exec.bind_ok.1 h
    obtain ⟨_, -, h⟩ := Exec.bind_ok.1 h
    cases h
    obtain ⟨t, rfl⟩ := List.length_eq_one_iff.1 (by simpa [prod_args] using hn)
    rw [hp]
    rfl

/-- The productions of a completed category are those of complete items seen in the call. -/
theorem Session.prod_item (hl : Session P l) {j : Nat} {b : Call P} (hb : l[j]? = some b) {K : PgfItemSetId} {g : PgfCCatId}
    (hg : b.state.chart.gen K = some g) {p : PgfProduction} (hp : (heapAfter l).Prod g p) :
    ∃ x, x ∈ b.state.chart.seen ∧ Complete x ∧ x.base.conts = K ∧ completed_prod x = .ok p := by
  obtain ⟨ccat, hcc, hmem⟩ := (hl.prod_iff hb ((hl.wf hb).gen_lt hg)).2 hp
  obtain ⟨xs, hxs⟩ := (hl.generated hb).prods hg
  obtain ⟨ccat', ps, hcc', hps, hall⟩ := hxs.prods
  rw [hcc, Option.some.injEq] at hcc'
  subst hcc'
  rw [hps] at hmem
  obtain ⟨n, hn, rfl⟩ := List.getElem_of_mem hmem
  have hn' : n < xs.length := hall.length_eq ▸ hn
  obtain ⟨hseen, hc, hK⟩ := hxs.items xs[n] (List.getElem_mem hn')
  exact ⟨xs[n], hseen, hc, hK, hall.get hn' hn⟩

theorem sound (hP : P.concr.Fits) (hl : Session P l) (t : Tree) : Sound l t := by
  induction hn : sizeOf t using Nat.strong_induction_on generalizing t with
  | _ n ih =>
    intro i j a b c g r K ha hb hc hg ht
    cases ht with
    | leaf h => exact h.elim
    | @node _ p ts hp hlen hts =>
      obtain ⟨x, hseen, hcomp, hK, hcp⟩ := hl.prod_item hb hg hp
      have hx := (hl.traced j b hb).seen x hseen
      have hxf := hx.fits hP hl
      have hpa : prod_args p = x.args := (hxf.completed_prod hcp).2
      have hsub : ∀ t ∈ ts, Sound l t := fun t ht => ih _ (hn ▸ mem_tree_lt hlen ht) t rfl
      obtain ⟨hprod, i', a', u, ha', hc', hfed, hread⟩ := hx.read hP hl hsub (hpa ▸ hlen) (hpa ▸ hts)
      obtain ⟨rfl, rfl, rfl⟩ := hl.conts_unique ha ha' hc (hK ▸ hc')
      rw [ha, Option.some.injEq] at ha'
      subst ha'
      have hlen' : ts.length = (prod_args x.base.prod).length := by rw [hlen, hpa, hxf.args]
      refine ⟨?_, u, hfed, ?_⟩
      · -- the item was made for a production of the category
        obtain ⟨i₀, o, C, -, hL, -, hbase⟩ := hx.base
        obtain ⟨a₀, ha₀, -, rfl⟩ := logOf_getElem?.1 hL
        rw [completed_prod_tree hcp hlen]
        exact .node (hl.prod_of ha₀ hbase) hlen' hprod
      · obtain ⟨seq, hseq, hy⟩ := hread.complete hxf hcomp
        exact (yields_tree hlen).2 ⟨seq, (completed_prod_row hcp _).trans hseq, hy⟩

/-- A tree of a category that completes the input is a tree of a category that a
whole input may be, and yields the tokens fed. -/
theorem completed_start (hP : P.concr.Fits) (hl : Session P l) {i j : Nat} {a b : Call P} {cat : PgfCId} {lin_idx : Nat}
    {w : List PgfToken} (ha : l[i]? = some a) (hb : l[j]? = some b) (ho : a.origin = .parse cat lin_idx)
    (hw : Fed (logOf l) i w j) {g : PgfCCatId} (hg : g ∈ b.state.chart.completed) {t : Tree}
    (ht : TreeOf (heapAfter l).Prod g t) : ∃ c, (Origin.parse cat lin_idx).Starts P c lin_idx ∧
      TreeOf (heapAfter l).Prod c t ∧ t.Yields lin_idx w := by
  obtain ⟨K, hK, hnull⟩ := hl.accepts hb g hg
  obtain ⟨i', o, C, c, r, -, hL, hc⟩ := (hl.traced j b hb).gens hK
  obtain ⟨a', ha', rfl, rfl⟩ := logOf_getElem?.1 hL
  obtain ⟨hct, u, hfed, hy⟩ := sound hP hl t ha' hb hc hK ht
  -- null waits in sets of calls that begin a parse
  have hstart : Chart.Waits (a'.origin.Starts P) a'.state.chart c r none := hl.held_conts ha' hc (hl.held_of hb hnull)
  cases ho' : a'.origin with
  | token p tok =>
    rw [ho'] at hstart
    exact hstart.elim
  | parse cat' lin_idx' =>
    rw [ho'] at hstart
    obtain ⟨rfl, rfl⟩ := hw.unique hfed (logOf_getElem?.2 ⟨a, ha, ho, rfl⟩) (logOf_getElem?.2 ⟨a', ha', ho', rfl⟩)
    rw [ha, Option.some.injEq] at ha'
    subst ha'
    rw [ho, Origin.parse.injEq] at ho'
    obtain ⟨rfl, rfl⟩ := ho'
    have hr : r = lin_idx := hstart.1
    exact ⟨c, ⟨rfl, hstart.2⟩, hct, hr ▸ hy⟩

/-- A tree of a category that completes the input yields the tokens fed. -/
theorem completed_yields (hP : P.concr.Fits) (hl : Session P l) {i j : Nat} {a b : Call P} {cat : PgfCId} {lin_idx : Nat}
    {w : List PgfToken} (ha : l[i]? = some a) (hb : l[j]? = some b) (ho : a.origin = .parse cat lin_idx)
    (hw : Fed (logOf l) i w j) {g : PgfCCatId} (hg : g ∈ b.state.chart.completed) {t : Tree}
    (ht : TreeOf (heapAfter l).Prod g t) : t.Yields lin_idx w := by
  obtain ⟨c, -, -, hy⟩ := completed_start hP hl ha hb ho hw hg ht
  exact hy

end Libpgf
