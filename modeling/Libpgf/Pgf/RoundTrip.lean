import Libpgf.Pgf.Emission
import Libpgf.Pgf.ExactForest
/-!
# Parsing what was linearized

The tokens that `pgf_lzr_linearize` presents for an expression can be parsed
again, and the parse state they lead to has a derivation of the expression. Type
annotations and marks of implicit arguments are lost on the way, and the
derivation may have metavariables for parts that say nothing.
-/

namespace Libpgf

/-! ## Expressions -/

/-- The expression without type annotations and marks of implicit arguments. -/
def PgfExpr.bare : PgfExpr → PgfExpr
  | .ABS bind_type id body => .ABS bind_type id body.bare
  | .APP fun_ arg => .APP fun_.bare arg.bare
  | .TYPED expr => expr.bare
  | .IMPL_ARG expr => expr.bare
  | expr => expr

/-- A metavariable stands for any expression. -/
inductive PgfExpr.Generalizes : PgfExpr → PgfExpr → Prop
  | META {id e} : Generalizes (.META id) e
  | FUN {f} : Generalizes (.FUN f) (.FUN f)
  | APP {fun_ fun_' arg arg'} : Generalizes fun_ fun_' → Generalizes arg arg' → Generalizes (.APP fun_ arg) (.APP fun_' arg')

theorem PgfExpr.Generalizes.foldl {es es' : List PgfExpr} (h : List.Forall₂ PgfExpr.Generalizes es es') {e e' : PgfExpr}
    (he : e.Generalizes e') : (es.foldl .APP e).Generalizes (es'.foldl .APP e') := by
  induction h generalizing e e' with
  | nil => exact he
  | cons ha _ ih => exact ih (.APP he ha)

theorem bare_unwrap (expr : PgfExpr) : (pgf_expr_unwrap expr).bare = expr.bare := by
  induction expr with
  | TYPED expr ih => exact ih
  | IMPL_ARG expr ih => exact ih
  | _ => rfl

theorem unapplied_bare {expr : PgfExpr} {args as : List PgfExpr} {f : PgfCId} (h : expr.unapplied args = some (f, as)) :
    (as.map PgfExpr.bare).foldl .APP (.FUN f) = (args.map PgfExpr.bare).foldl .APP expr.bare := by
  induction expr generalizing args with
  | APP fun_ arg ih _ => exact ih h
  | TYPED expr ih => exact ih h
  | IMPL_ARG expr ih => exact ih h
  | FUN f' =>
    obtain ⟨rfl, rfl⟩ := Prod.mk.inj (Option.some.inj h)
    rfl
  | _ => cases h

/-! ## The expression of a tree -/

namespace Tree

mutual

def expr : Tree → PgfExpr
  | apply f args => (exprs args).foldl .APP (.FUN f.fun_)
  | coerce t => t.expr
  | metavar _ => .META 0

def exprs : List Tree → List PgfExpr
  | [] => []
  | t :: ts => t.expr :: exprs ts

end

theorem exprs_eq (ts : List Tree) : exprs ts = ts.map expr := by
  induction ts with
  | nil => rfl
  | cons t ts ih => rw [exprs, ih, List.map_cons]

end Tree

namespace Inferred
variable {ι : Type}

mutual

def expr : Inferred ι → PgfExpr
  | app _ f _ args => (exprs args).foldl .APP (.FUN f.fun_)
  | lit l => .LIT l

def exprs : List (Inferred ι) → List PgfExpr
  | [] => []
  | d :: ds => d.expr :: exprs ds

end

theorem exprs_eq (ds : List (Inferred ι)) : exprs ds = ds.map expr := by
  induction ds with
  | nil => rfl
  | cons d ds ih => rw [exprs, ih, List.map_cons]

end Inferred

mutual

/-- The expression of a derivation is that of its tree. -/
theorem Deriv.tree_expr : (d : Deriv) → d.tree.expr = d.expr
  | .use cat n (.APPLY f args) ds => by
    rw [Deriv.tree, Deriv.expr, PgfProduction.tree, PgfProduction.expr, Tree.expr, Deriv.trees_expr ds]
  | .use cat n (.COERCE c) [] => rfl
  | .use cat n (.COERCE c) (d :: ds) => Deriv.tree_expr d
  | .metavar cat => rfl

theorem Deriv.trees_expr : (ds : List Deriv) → Tree.exprs (Deriv.trees ds) = Deriv.exprs ds
  | [] => rfl
  | d :: ds => by rw [Deriv.trees, Deriv.exprs, Tree.exprs, Deriv.tree_expr d, Deriv.trees_expr ds]

end

/-- What is filled in takes the place of metavariables. -/
theorem Fills.generalizes {prod : PgfCCatId → PgfProduction → Prop} {t t' : Tree} (h : Fills prod t t') :
    t.expr.Generalizes t'.expr := by
  induction h with
  | @apply f ts ts' hlen _ ih =>
    rw [Tree.expr, Tree.expr, Tree.exprs_eq, Tree.exprs_eq]
    refine .foldl (List.forall₂_iff_get.2 ⟨by simp [hlen], fun i hi hi' => ?_⟩) .FUN
    rw [List.length_map] at hi hi'
    simp only [List.get_eq_getElem, List.getElem_map]
    exact ih i _ _ (List.getElem?_eq_getElem hi) (List.getElem?_eq_getElem hi')
  | coerce _ ih => exact ih
  | metavar _ => exact .META

/-! ## Trees of inferred derivations -/

/-- A list of what there is at each place. -/
theorem list_of_places {α : Type} {Q : Nat → α → Prop} : ∀ {n : Nat}, (∀ i < n, ∃ a, Q i a) →
    ∃ as : List α, as.length = n ∧ ∀ (i : Nat) (a : α), as[i]? = some a → Q i a
  | 0, _ => ⟨[], rfl, fun i a h => by simp at h⟩
  | n + 1, h => by
    obtain ⟨as, hlen, has⟩ := list_of_places fun i hi => h i (Nat.lt_succ_of_lt hi)
    obtain ⟨a, ha⟩ := h n (Nat.lt_succ_self n)
    refine ⟨as ++ [a], by simp [hlen], fun i b hb => ?_⟩
    rcases Nat.lt_trichotomy i as.length with hlt | rfl | hgt
    · rw [List.getElem?_append_left hlt] at hb
      exact has i b hb
    · rw [List.getElem?_concat_length, Option.some.injEq] at hb
      exact hb ▸ hlen ▸ ha
    · rw [List.getElem?_eq_none (by simp; omega)] at hb
      cases hb

theorem map_congr_places {α β γ : Type} {f : α → γ} {g : β → γ} {as : List α} {bs : List β} (hlen : as.length = bs.length)
    (h : ∀ (i : Nat) (a : α) (b : β), as[i]? = some a → bs[i]? = some b → f a = g b) : as.map f = bs.map g := by
  refine List.ext_getElem (by simp [hlen]) fun i hi hi' => ?_
  rw [List.length_map] at hi hi'
  rw [List.getElem_map, List.getElem_map]
  exact h i _ _ (List.getElem?_eq_getElem hi) (List.getElem?_eq_getElem hi')

section Infers
variable {concr : PgfConcr}

/-- Coercions on the way up leave no trace in the concrete tree and the expression. -/
theorem chain_tree {c a : PgfCCatId} {xs : List Nat} (h : Chain concr.listing.Has c xs a) {t : Tree} (ht : TreeOf concr.Prod c t)
    (hw : t.Whole) : ∃ t', TreeOf concr.Prod a t' ∧ t'.Whole ∧ t'.cnc = t.cnc ∧ t'.expr = t.expr := by
  induction xs generalizing c t with
  | nil =>
    obtain rfl : c = a := h
    exact ⟨t, ht, hw, rfl, rfl⟩
  | cons x xs ih =>
    obtain ⟨c', hx, h⟩ := h
    have hnode : TreeOf concr.Prod c' (PgfProduction.tree (.COERCE c) [t]) := by
      refine .node (PgfConcr.listed_mem hx) rfl fun d parg t' hd ht' => ?_
      cases d with
      | zero =>
        cases hd
        cases ht'
        exact ht
      | succ d => simp at ht'
    exact ih (t := .coerce t) h hnode (.coerce hw)

/-- A derivation of a category of the grammar is one of its trees. -/
theorem infers_tree : ∀ (s : Spine) {c : PgfCCatId} {d : Inferred Nat}, Infers concr.listing.Has (pgf_literal_cat concr) s c d →
    c < concr.ccatMem.length → ∃ t, TreeOf concr.Prod c t ∧ t.Whole ∧ t.cnc = d.tree ∧ t.expr = d.expr
  | .app f ss, c, .app x fn chains ds, h, hc => by
    obtain ⟨pargs, hx, -, hargs⟩ := h
    obtain ⟨ccat, hcc, hp⟩ := PgfConcr.listed_mem hx
    obtain ⟨hlen, hget⟩ := hargs.get
    rw [List.length_map] at hlen
    have htree : ∀ i < ds.length, ∃ t, ∀ parg d, pargs[i]? = some parg → ds[i]? = some d →
        TreeOf concr.Prod parg.ccat t ∧ t.Whole ∧ t.cnc = d.tree ∧ t.expr = d.expr := by
      intro i hi
      obtain ⟨s, hs, a, c', xs, hcat, hinf, hchain⟩ := hget i _ (List.getElem?_eq_getElem hi)
      rw [List.getElem?_map, List.getElem?_eq_getElem (hlen ▸ hi), Option.map_some, Option.some.injEq] at hcat
      have ha : a < concr.ccatMem.length := by
        refine concr.prods_valid ccat (List.mem_of_getElem? hcc) _ hp a (List.mem_flatMap.2 ?_)
        exact ⟨_, List.getElem_mem (hlen ▸ hi), hcat ▸ List.mem_cons_self⟩
      have := List.sizeOf_lt_of_mem hs
      obtain ⟨t, ht, hw, hcnc, hexpr⟩ := infers_tree s hinf (chain_lt hchain ha)
      obtain ⟨t', ht', hw', hcnc', hexpr'⟩ := chain_tree hchain ht hw
      refine ⟨t', fun parg d hparg hd => ?_⟩
      obtain ⟨hi', rfl⟩ := List.getElem?_eq_some_iff.1 hparg
      obtain rfl := Option.some.inj ((List.getElem?_eq_getElem hi).symm.trans hd)
      exact ⟨hcat ▸ ht', hw', hcnc'.trans hcnc, hexpr'.trans hexpr⟩
    obtain ⟨ts, hts, hall⟩ := list_of_places htree
    have hat : ∀ (i : Nat) (t : Tree) (d : Inferred Nat), ts[i]? = some t → ds[i]? = some d →
        t.Whole ∧ t.cnc = d.tree ∧ t.expr = d.expr := by
      intro i t d ht hd
      have hi := (List.getElem?_eq_some_iff.1 hd).1
      exact (hall i t ht _ d (List.getElem?_eq_getElem (hlen ▸ hi)) hd).2
    refine ⟨.apply fn ts, ?_, ?_, ?_, ?_⟩
    · refine Derives.node (p := .APPLY fn pargs) ⟨ccat, hcc, hp⟩ (hts.trans hlen) fun i parg t hparg ht => ?_
      have hi := (List.getElem?_eq_some_iff.1 ht).1
      exact (hall i t ht parg _ hparg (List.getElem?_eq_getElem (hts ▸ hi))).1
    · refine .apply fun t ht => ?_
      obtain ⟨i, hi⟩ := List.getElem?_of_mem ht
      have hlt := (List.getElem?_eq_some_iff.1 hi).1
      exact (hat i t _ hi (List.getElem?_eq_getElem (hts ▸ hlt))).1
    · rw [Tree.cnc, Inferred.tree, Tree.cncs_eq, Inferred.trees_eq]
      rw [map_congr_places hts fun i t d ht hd => (hat i t d ht hd).2.1]
    · rw [Tree.expr, Inferred.expr, Tree.exprs_eq, Inferred.exprs_eq]
      rw [map_congr_places hts fun i t d ht hd => (hat i t d ht hd).2.2]
  | .lit lit, c, .lit lit', h, hc => by
    -- literals have categories outside the grammar
    obtain ⟨-, rfl⟩ := h
    exact absurd hc (Nat.not_lt.2 (literal_cat_ge lit))
  | .app f ss, c, .lit lit, h, _ => by simp [Infers] at h
  | .lit lit, c, .app x fn chains ds, h, _ => by simp [Infers] at h
  | .other, c, d, h, _ => by simp [Infers] at h

theorem infersArgs_exprs {has : Nat → PgfCCatId → PgfProduction → Prop} {literal_cat : PgfLiteral → PgfCCatId} {as : List PgfExpr}
    (h : ∀ e ∈ as, ∀ c d, Infers has literal_cat (e.spine []) c d → d.expr = e.bare) {cats : List PgfCCatId}
    {chains : List (List Nat)} {ds : List (Inferred Nat)} (hargs : InfersArgs has literal_cat (spines as) cats chains ds) :
    ds.map Inferred.expr = as.map PgfExpr.bare := by
  induction as generalizing cats chains ds with
  | nil =>
    cases cats <;> cases chains <;> cases ds <;> first | rfl | simp [InfersArgs] at hargs
  | cons e as ih =>
    cases cats with
    | nil => simp [InfersArgs] at hargs
    | cons a cats =>
      cases chains with
      | nil => simp [InfersArgs] at hargs
      | cons xs chains =>
        cases ds with
        | nil => simp [InfersArgs] at hargs
        | cons d ds =>
          obtain ⟨⟨c, hd, -⟩, hargs⟩ := hargs
          rw [List.map_cons, List.map_cons, h e List.mem_cons_self c d hd]
          rw [ih (fun e he => h e (List.mem_cons_of_mem _ he)) hargs]

/-- A derivation of an expression is one of the bare expression. -/
theorem infers_expr {has : Nat → PgfCCatId → PgfProduction → Prop} {literal_cat : PgfLiteral → PgfCCatId} (e : PgfExpr)
    {c : PgfCCatId} {d : Inferred Nat} (h : Infers has literal_cat (e.spine []) c d) : d.expr = e.bare := by
  cases happ : e.unapplied [] with
  | none =>
    rw [spine_none happ] at h
    rw [← bare_unwrap]
    cases hun : pgf_expr_unwrap e with
    | LIT lit =>
      rw [hun] at h
      cases d with
      | app => simp [Infers] at h
      | lit lit' =>
        obtain ⟨rfl, -⟩ := h
        rfl
    | _ => simp [hun, Infers] at h
  | some r =>
    obtain ⟨f, as⟩ := r
    have hspine : e.spine [] = .app f (spines as) := spine_unapplied happ
    rw [hspine] at h
    cases d with
    | lit lit => simp [Infers] at h
    | app x fn chains ds =>
      obtain ⟨pargs, -, hf, hargs⟩ := h
      have hbare := unapplied_bare happ
      rw [List.map_nil, List.foldl_nil, ← hf] at hbare
      rw [Inferred.expr, Inferred.exprs_eq, ← hbare]
      rw [infersArgs_exprs (fun e' he' c d hd => ?_) hargs]
      have hlt : sizeOf e' < sizeOf e := (unapplied_lt happ he').resolve_left List.not_mem_nil
      exact infers_expr e' hd
termination_by sizeOf e

end Infers

/-! ## Derivations in the forest -/

theorem Fills.of_args {prod : PgfCCatId → PgfProduction → Prop} {p : PgfProduction} {ts ts' : List Tree}
    (hn : ts.length = (prod_args p).length) (hlen : ts'.length = ts.length)
    (h : ∀ (i : Nat) (t t' : Tree), ts[i]? = some t → ts'[i]? = some t' → Fills prod t t') : Fills prod (p.tree ts) (p.tree ts') := by
  cases p with
  | APPLY f args => exact .apply hlen h
  | COERCE c =>
    obtain ⟨t, rfl⟩ := List.length_eq_one_iff.1 (by simpa [prod_args] using hn)
    obtain ⟨t', rfl⟩ := List.length_eq_one_iff.1 (by simpa using hlen)
    exact .coerce (h 0 t t' rfl rfl)

variable {P : PgfParser} {l : List (Call P)}

/-- The productions of the categories made by parsing are buffers. -/
theorem Session.refined (hl : Session P l) {c : PgfCCatId} {ccat : PgfCCat} (hc : (heapAfter l).ccats[c]? = some ccat)
    (hlt : P.concr.ccatMem.length ≤ c) : ccat.prods.isBuf = true := by
  induction hl generalizing ccat with
  | nil =>
    have := (List.getElem?_eq_some_iff.1 hc).1
    exact absurd hlt (Nat.not_le_of_lt this)
  | @call l o s fuel hl hr ih =>
    rw [heapAfter_append] at hc
    have hs := Origin.run_called hr
    by_cases hold : c < (heapAfter l).ccats.length
    · exact ih (prefix_getElem? hs.le.ccats hold ▸ hc)
    · have h0 : (heapAfter l).chart.Generated (heapAfter l).ccats.length :=
        ⟨fun hg => (Option.some_ne_none _ hg.symm).elim, fun hn hlt => absurd hlt (Nat.not_lt_of_le hn)⟩
      have hgen := h0.steps (Heap.chart_wf _ _) hs.steps
      obtain ⟨K, hK⟩ := hgen.gen (Nat.le_of_not_lt hold) (List.getElem?_eq_some_iff.1 hc).1
      obtain ⟨xs, ⟨ccat', ps, hc', hps, -⟩, -, -⟩ := hgen.prods hK
      obtain rfl : ccat' = ccat := Option.some.inj (hc'.symm.trans hc)
      rw [hps]
      rfl

/-- Every tree of a category fills in a derivation from it. -/
theorem exists_derivation (hl : Session P l) {g : PgfCCatId} {t : Tree} (ht : TreeOf (heapAfter l).Prod g t) :
    ∃ d, (heapAfter l).Derivation g d ∧ Fills P.concr.Prod d.tree t := by
  induction ht with
  | @node c p ts hp hlen hargs ih =>
    obtain ⟨ccat, hcc, hm⟩ := id hp
    cases hbuf : ccat.prods.isBuf with
    | false =>
      have hlt : c < P.concr.ccatMem.length := by
        refine Nat.lt_of_not_le fun hle => ?_
        rw [hl.refined hcc hle] at hbuf
        cases hbuf
      exact ⟨.metavar c, .metavar hcc hbuf, .metavar (hl.grammar_tree (.node hp hlen hargs) hlt)⟩
    | true =>
      obtain ⟨ps, hps⟩ : ∃ ps, ccat.prods = .buf ps := by
        cases h : ccat.prods with
        | buf ps => exact ⟨ps, rfl⟩
        | _ => simp [h, PgfProductions.isBuf] at hbuf
      rw [hps] at hm
      obtain ⟨n, hn⟩ := List.getElem?_of_mem hm
      have hderiv : ∀ i < ts.length, ∃ d, ∀ parg t, (prod_args p)[i]? = some parg → ts[i]? = some t →
          (heapAfter l).Derivation parg.ccat d ∧ Fills P.concr.Prod d.tree t := by
        intro i hi
        obtain ⟨d, hd, hf⟩ := ih i _ _ (List.getElem?_eq_getElem (hlen ▸ hi)) (List.getElem?_eq_getElem hi)
        refine ⟨d, fun parg t hparg ht => ?_⟩
        obtain rfl := Option.some.inj ((List.getElem?_eq_getElem (hlen ▸ hi)).symm.trans hparg)
        obtain rfl := Option.some.inj ((List.getElem?_eq_getElem hi).symm.trans ht)
        exact ⟨hd, hf⟩
      obtain ⟨ds, hds, hall⟩ := list_of_places hderiv
      refine ⟨.use c n p ds, .use hcc hps hn (hds.trans hlen) fun i parg d hparg hd => ?_, ?_⟩
      · have hi := (List.getElem?_eq_some_iff.1 hd).1
        exact (hall i d hd parg _ hparg (List.getElem?_eq_getElem (hds ▸ hi))).1
      · rw [Deriv.tree, Deriv.trees_eq]
        refine .of_args (by simp [hds, hlen]) (by simp [hds]) fun i u t hu ht => ?_
        rw [List.getElem?_map, Option.map_eq_some_iff] at hu
        obtain ⟨d, hd, rfl⟩ := hu
        have hi := (List.getElem?_eq_some_iff.1 ht).1
        exact (hall i d hd _ t (List.getElem?_eq_getElem (hlen ▸ hi)) ht).2
  | leaf h => exact h.elim

/-! ## The enumeration -/

theorem EndsAfter.enumerated {h : Heap P} {fuel : Nat} {es : List PgfExpr} {e : PgfExpr} (he : e ∈ es) {pr : PgfParseResult}
    (hends : EndsAfter (pgf_parse_result_next h fuel) pr es) : Enumerated h pr e := by
  induction es generalizing pr with
  | nil => cases he
  | cons e' es ih =>
    obtain ⟨pr', hnext, hends'⟩ := hends.call
    rcases List.mem_cons.1 he with rfl | he
    · exact .here hnext
    · exact .later hnext (ih he hends')

/-- A derivation without repeated categories is enumerated, unless the last walk is cut. -/
theorem Heap.Derivation.enumerated {h : Heap P} {parse : PgfParse} (hun : h.Uncut parse.completed) {g : PgfCCatId}
    (hg : g ∈ parse.completed) {d : Deriv} (hd : h.Derivation g d) (hcats : d.cats.Nodup) :
    Enumerated h (pgf_parse_result parse) d.expr := by
  obtain ⟨k, hk⟩ := List.getElem?_of_mem hg
  have hfound := found_complete hun.safe hk hd hcats
  refine (result_ends hun (Nat.lt_succ_of_le (Nat.le_add_right _ (h.walks parse.completed).runs.length)) (by omega)).enumerated ?_
  exact List.mem_map.2 ⟨(k, d), hfound, rfl⟩

/-! ## There and back -/

theorem PgfLzn.Category.unique {lzr : PgfLzr} {fuel : Nat} {lzn : PgfLzn} {c c' : PgfCCatId} (h : lzn.Category lzr fuel c)
    (h' : lzn.Category lzr fuel c') : c = c' := by
  obtain ⟨e, mark, ch, he, hmark, hloop⟩ := h
  obtain ⟨e', mark', ch', he', hmark', hloop'⟩ := h'
  obtain rfl := Option.some.inj (he.symm.trans he')
  obtain rfl := Except.ok.inj (hmark.symm.trans hmark')
  exact Option.some.inj (Prod.mk.inj (Except.ok.inj (hloop.symm.trans hloop'))).1

/-- A concrete tree of the expression, whose category leads up to that of the
input, is linearized to tokens that are not refused, and the state they lead to
has a derivation that generalizes the expression. It is enumerated if it uses no
category twice and the last walk is not cut. -/
theorem linearized_parses (hP : P.concr.Fits) {lzr : PgfLzr} (hnew : pgf_new_lzr P.concr = .ok lzr) {fuel : Nat} {expr : PgfExpr}
    {lzn lzn' : PgfLzn} {tree : PgfCncTree} (hlzn : lzn.Reached lzr expr)
    (hnext : pgf_lzn_next lzr fuel lzn = .ok (some tree, lzn')) {lin_idx : Nat} {events : List PgfEvent}
    (hlin : pgf_lzr_linearize tree lin_idx = .ok events) (hl : Session P l) (hcov : Covered l) {i : Nat} {a : Call P}
    {cat : PgfCId} (ha : l[i]? = some a) (ho : a.origin = .parse cat lin_idx) {c s : PgfCCatId} (hc : lzn.Category lzr fuel c)
    {xs : List Nat} (hchain : Chain P.concr.listing.Has c xs s) (hs : (Origin.parse cat lin_idx).Starts P s lin_idx) :
    (∀ u tok v j fuel, eventTokens events = u ++ tok :: v → Fed (logOf l) i u j →
      pgf_parse_token fuel (heapAfter l) j tok ≠ .ok none) ∧
    ∀ j parse, Fed (logOf l) i (eventTokens events) j → (heapAfter l).parses[j]? = some parse →
      ∃ g ∈ parse.completed, ∃ d, (heapAfter l).Derivation g d ∧ d.expr.Generalizes expr.bare ∧
        ((heapAfter l).Uncut parse.completed → d.cats.Nodup → Enumerated (heapAfter l) (pgf_parse_result parse) d.expr) := by
  obtain ⟨hcnc, hidx⟩ := new_lzr_indexed hnew
  obtain ⟨c', hc', d, hd, rfl⟩ := next_derivation hidx hlzn hnext
  rw [hcnc] at hd
  obtain rfl := hc'.unique hc
  -- the tree of the start category
  obtain ⟨t, ht, hw, htree, hexpr⟩ := infers_tree _ hd (chain_lt hchain (Origin.starts_lt hs))
  obtain ⟨t, ht, hw, htree', hexpr'⟩ := chain_tree hchain ht hw
  have hy : t.Yields lin_idx (eventTokens events) := linearize_yields hw (by rw [htree', htree]; exact hlin)
  constructor
  · intro u tok v j fuel hsplit hfed
    exact token_taken hP hl hcov ha ho hs ht (hsplit ▸ hy) hfed
  · intro j parse hfed hp
    obtain ⟨b, hb, hcomp, -⟩ := hl.parse_call hp
    obtain ⟨g, hg, hgt⟩ := (tree_found hP hl hcov ha ho hs ht hy).2 j b hfed hb
    obtain ⟨e, he, hfills⟩ := exists_derivation hl hgt
    have hgen := hfills.generalizes
    rw [Deriv.tree_expr, hexpr', hexpr, infers_expr expr hd] at hgen
    rw [hcomp] at hg
    exact ⟨g, hg, e, he, hgen, fun hun hcats => he.enumerated hun hg hcats⟩

namespace Tiny

/-- `f a`, which is linearized to `a b`. -/
def expr : PgfExpr := .APP (.FUN [102]) (.FUN [97])

def isTree : PgfCncTree → Bool
  | .APP g [.APP b []] => decide (g = f ∧ b = a)
  | _ => false

theorem isTree_iff {tree : PgfCncTree} (h : isTree tree = true) : tree = .APP f [.APP a []] := by
  unfold isTree at h
  split at h
  · obtain ⟨rfl, rfl⟩ := of_decide_eq_true h
    rfl
  · cases h

/-- The category inferred is that of the whole input. -/
theorem infers_zero {c : PgfCCatId} {d : Inferred Nat} (h : Infers concr.listing.Has (pgf_literal_cat concr) (expr.spine []) c d) :
    c = 0 := by
  cases d with
  | lit lit => simp [expr, PgfExpr.spine, Infers] at h
  | app x fn chains ds =>
    obtain ⟨pargs, ⟨n, hx⟩, hf, -⟩ := h
    rcases x with _ | _ | x
    · cases hx
      rfl
    · cases hx
      cases hf
    · cases hx

end Tiny

theorem linearized_parses_tiny : ∃ (l : List (Call Tiny.parser)) (parse : PgfParse), Session Tiny.parser l ∧
    (heapAfter l).parses[2]? = some parse ∧
    ∃ g ∈ parse.completed, ∃ d, (heapAfter l).Derivation g d ∧ d.expr.Generalizes Tiny.expr := by
  -- there
  obtain ⟨lzr, hlzr⟩ : ∃ lzr, pgf_new_lzr Tiny.concr = .ok lzr := ⟨_, rfl⟩
  have hcheck : ((pgf_new_lzr Tiny.concr).toOption.bind fun lzr =>
      (pgf_lzn_next lzr 5 (pgf_lzr_concretize Tiny.expr)).toOption.bind Prod.fst).any Tiny.isTree = true := by decide +kernel
  obtain ⟨tree, htree, hcheck⟩ := (Option.any_eq_true _ _).1 hcheck
  obtain rfl := Tiny.isTree_iff hcheck
  rw [hlzr] at htree
  have htree : (pgf_lzn_next lzr 5 (pgf_lzr_concretize Tiny.expr)).toOption.bind Prod.fst = some (.APP Tiny.f [.APP Tiny.a []]) := htree
  obtain ⟨⟨_, lzn'⟩, hnext, rfl⟩ := Option.bind_eq_some_iff.1 htree
  have hnext : pgf_lzn_next lzr 5 (pgf_lzr_concretize Tiny.expr) = .ok (some (.APP Tiny.f [.APP Tiny.a []]), lzn') := by
    revert hnext
    cases pgf_lzn_next lzr 5 (pgf_lzr_concretize Tiny.expr) <;> simp [Except.toOption]
  have hlin : pgf_lzr_linearize (.APP Tiny.f [.APP Tiny.a []]) 0 =
      .ok [.expr_apply [102] 1, .expr_apply [97] 0, .symbol_tokens [[97]], .symbol_tokens [[98]]] := by
    simp [pgf_lzr_linearize, Tiny.f, Tiny.a, linearize_syms, linearize_sym, Exec.deref]
  obtain ⟨hcnc, hidx⟩ := new_lzr_indexed hlzr
  obtain ⟨c, hc, d, hd, -⟩ := next_derivation hidx .start hnext
  obtain rfl := Tiny.infers_zero (hcnc ▸ hd)
  -- and back
  obtain ⟨l, hl, hcheck⟩ := Session.of_check 20 [.parse [83] 0, .token 0 [97], .token 1 [98]] (fun l : List (Call Tiny.parser) =>
    decide (l.map Call.origin = [.parse [83] 0, .token 0 [97], .token 1 [98]]) &&
      l.all fun c => c.state.enums.all fun e => e.rounds.all EnumRound.unchanged) (by decide +kernel)
  simp only [Bool.and_eq_true, decide_eq_true_eq, List.all_eq_true] at hcheck
  have hcov : Covered l := by
    intro c hc e he
    obtain ⟨n, hn⟩ := List.getElem?_of_mem hc
    exact Enumeration.Stable.covers (fun r hr => EnumRound.stable_of_unchanged (hcheck.2 c hc e he r hr)) ((hl.called hn).enums e he)
  have hlen := congrArg List.length hcheck.1
  rw [List.length_map] at hlen
  obtain ⟨c₀, c₁, c₂, rfl⟩ := List.length_eq_three.1 hlen
  obtain ⟨h₀, h₁, h₂⟩ : c₀.origin = .parse [83] 0 ∧ c₁.origin = .token 0 [97] ∧ c₂.origin = .token 1 [98] := by simpa using hcheck.1
  have hp := List.getElem?_eq_getElem (l := (heapAfter [c₀, c₁, c₂]).parses) (i := 2) (by rw [hl.parses_length]; simp)
  have hfed : Fed (logOf [c₀, c₁, c₂]) 0 [[97], [98]] 2 :=
    ((Fed.refl (i := 0)).token (logOf_getElem?.2 ⟨c₁, rfl, h₁, rfl⟩)).token (logOf_getElem?.2 ⟨c₂, rfl, h₂, rfl⟩)
  have hstart : (Origin.parse [83] 0).Starts Tiny.parser 0 0 := ⟨rfl, 0, _, rfl, rfl, List.mem_singleton_self _⟩
  have hchain : Chain Tiny.parser.concr.listing.Has 0 [] 0 := rfl
  obtain ⟨-, hstates⟩ := linearized_parses Tiny.fits hlzr .start hnext hlin hl hcov (i := 0) rfl h₀ hc hchain hstart
  obtain ⟨g, hg, d, hd, hgen, -⟩ := hstates 2 _ hfed hp
  exact ⟨_, _, hl, hp, g, hg, d, hd, hgen⟩

end Libpgf
