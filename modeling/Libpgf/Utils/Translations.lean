import Libpgf.Pgf.ConcreteTrees
import Libpgf.Pgf.Fuel
import Libpgf.Pgf.ParseTrees
import Libpgf.Pgf.RoundTrip
import Libpgf.Utils.Writing
/-!
# What is translated

Each line that the program writes is the linearization, in the target grammar,
of an expression that the line it has read has in the source grammar, and no
such linearization is left out.
-/

namespace Libpgf

/-! ## The expressions of trees -/

theorem foldl_bare (es : List PgfExpr) (e : PgfExpr) : (es.foldl .APP e).bare = (es.map PgfExpr.bare).foldl .APP e.bare := by
  induction es generalizing e with
  | nil => rfl
  | cons a es ih => exact ih (.APP e a)

theorem foldl_spine (es : List PgfExpr) (e : PgfExpr) (args : List Spine) :
    (es.foldl .APP e).spine args = e.spine (es.map (PgfExpr.spine · []) ++ args) := by
  induction es generalizing e with
  | nil => rfl
  | cons a es ih => exact ih (.APP e a)

mutual

theorem Deriv.expr_bare : (d : Deriv) → d.expr.bare = d.expr
  | .use cat n (.APPLY f args) ds => by
    rw [Deriv.expr, PgfProduction.expr, foldl_bare, Deriv.exprs_bare ds]
    rfl
  | .use cat n (.COERCE c) [] => rfl
  | .use cat n (.COERCE c) (d :: ds) => Deriv.expr_bare d
  | .metavar cat => rfl

theorem Deriv.exprs_bare : (ds : List Deriv) → (Deriv.exprs ds).map PgfExpr.bare = Deriv.exprs ds
  | [] => rfl
  | d :: ds => by rw [Deriv.exprs, List.map_cons, Deriv.expr_bare d, Deriv.exprs_bare ds]

end

/-- Derivations have applications and metavariables, and no literals. -/
theorem Deriv.spine_cases : (d : Deriv) → d.expr.spine [] = .other ∨ ∃ f ss, d.expr.spine [] = .app f ss
  | .use cat n (.APPLY f args) ds => by
    rw [Deriv.expr, PgfProduction.expr, foldl_spine]
    exact .inr ⟨_, _, rfl⟩
  | .use cat n (.COERCE c) [] => .inl rfl
  | .use cat n (.COERCE c) (d :: ds) => Deriv.spine_cases d
  | .metavar cat => .inl rfl

section Infer
variable {has : Nat → PgfCCatId → PgfProduction → Prop} {literal_cat : PgfLiteral → PgfCCatId}

theorem infersArgs_get {ss : List Spine} {as : List PgfCCatId} {xss : List (List Nat)} {ds : List (Inferred Nat)}
    (h : InfersArgs has literal_cat ss as xss ds) {s : Spine} (hs : s ∈ ss) : ∃ c d, Infers has literal_cat s c d := by
  induction ss generalizing as xss ds with
  | nil => cases hs
  | cons s' ss ih =>
    cases as with
    | nil => simp [InfersArgs] at h
    | cons a as =>
      cases xss with
      | nil => simp [InfersArgs] at h
      | cons xs xss =>
        cases ds with
        | nil => simp [InfersArgs] at h
        | cons d ds =>
          obtain ⟨⟨c, hd, -⟩, h⟩ := h
          rcases List.mem_cons.1 hs with rfl | hs
          · exact ⟨c, d, hd⟩
          · exact ih h hs

/-- The expression of a derivation that some grammar has has no metavariables. -/
theorem Heap.Derivation.whole {P : PgfParser} {h : Heap P} {g : PgfCCatId} {d : Deriv} (hd : h.Derivation g d) :
    ∀ {c : PgfCCatId} {d' : Inferred Nat}, Infers has literal_cat (d.expr.spine []) c d' → TreeOf h.Prod g d.tree := by
  induction hd with
  | @use g ccat ps n p ds hcc hps hn hlen _ ih =>
    intro c d' hinf
    have hprod : h.Prod g p := ⟨ccat, hcc, by rw [hps]; exact List.mem_of_getElem? hn⟩
    rw [Deriv.tree, Deriv.trees_eq]
    refine .node hprod (by rw [List.length_map]; exact hlen) fun i parg t hi ht => ?_
    rw [List.getElem?_map, Option.map_eq_some_iff] at ht
    obtain ⟨d, hid, rfl⟩ := ht
    obtain ⟨c', d'', hinf'⟩ : ∃ c' d'', Infers has literal_cat (d.expr.spine []) c' d'' := by
      cases p with
      | APPLY f args =>
        rw [Deriv.expr, PgfProduction.expr, foldl_spine, Deriv.exprs_eq, List.append_nil, List.map_map] at hinf
        cases d' with
        | lit lit => simp [PgfExpr.spine, Infers] at hinf
        | app x fn chains ds' =>
          obtain ⟨pargs, -, -, hargs⟩ := hinf
          exact infersArgs_get hargs (List.mem_map.2 ⟨d, List.mem_of_getElem? hid, rfl⟩)
      | COERCE a =>
        obtain ⟨d₀, rfl⟩ := List.length_eq_one_iff.1 hlen
        obtain rfl := List.mem_singleton.1 (List.mem_of_getElem? hid)
        exact ⟨c, d', hinf⟩
    exact ih i parg d hi hid hinf'
  | metavar hcc hbuf =>
    intro c d' hinf
    simp [Deriv.expr, PgfExpr.spine, Infers] at hinf

end Infer

/-! ## Members of enumerations -/

theorem Yields.enumerated {P : PgfParser} {h : Heap P} {fuel : Nat} {pr : PgfParseResult} {es : List PgfExpr}
    (hes : Yields (pgf_parse_result_next h fuel) pr es) {e : PgfExpr} (he : e ∈ es) : Enumerated h pr e := by
  induction es generalizing pr with
  | nil => cases he
  | cons e' es ih =>
    obtain ⟨pr', hnext, hes'⟩ := hes.head
    rcases List.mem_cons.1 he with rfl | he
    · exact .here hnext
    · exact .later hnext (ih (hes' (List.cons_ne_nil _ _)) he)

theorem Yields.reached {lzr : PgfLzr} {fuel : Nat} {expr : PgfExpr} {lzn : PgfLzn} {trees : List PgfCncTree}
    (hts : Yields (pgf_lzn_next lzr fuel) lzn trees) (hlzn : lzn.Reached lzr expr) {tree : PgfCncTree} (ht : tree ∈ trees) :
    ∃ lzn₁ lzn₂ : PgfLzn, lzn₁.Reached lzr expr ∧ pgf_lzn_next lzr fuel lzn₁ = .ok (some tree, lzn₂) := by
  induction trees generalizing lzn with
  | nil => cases ht
  | cons tree' trees ih =>
    obtain ⟨lzn', hnext, hts'⟩ := hts.head
    rcases List.mem_cons.1 ht with rfl | ht
    · exact ⟨lzn, lzn', hlzn, hnext⟩
    · exact ih (hts' (List.cons_ne_nil _ _)) (hlzn.next hnext) ht

theorem forall₂_left {α β : Type} {R : α → β → Prop} {as : List α} {bs : List β} (h : List.Forall₂ R as bs) {b : β}
    (hb : b ∈ bs) : ∃ a ∈ as, R a b := by
  induction h with
  | nil => cases hb
  | cons hab _ ih =>
    rcases List.mem_cons.1 hb with rfl | hb
    · exact ⟨_, List.mem_cons_self, hab⟩
    · obtain ⟨a, ha, hR⟩ := ih hb
      exact ⟨a, List.mem_cons_of_mem _ ha, hR⟩

/-! ## Translations -/

/-- The expression has a tree of the source grammar that says `w`, and one of the target grammar that says `out`. -/
structure Translates (P : PgfParser) (to_concr : PgfConcr) (cat : PgfCId) (from_ctnt to_ctnt : Nat) (w : List PgfToken) (e : PgfExpr)
    (out : List PgfToken) : Prop where
  source : ∃ c t, (Origin.parse cat from_ctnt).Starts P c from_ctnt ∧ TreeOf P.concr.Prod c t ∧ t.Yields from_ctnt w ∧ t.expr = e
  target : ∃ c t, TreeOf to_concr.Prod c t ∧ t.Yields to_ctnt out ∧ t.expr = e

section Sound
variable {P : PgfParser} {l : List (Call P)} {lzr : PgfLzr} {to_concr : PgfConcr}

theorem translates (hP : P.concr.Fits) (hl : Session P l) {i j : Nat} {a : Call P} {cat : PgfCId} {from_ctnt to_ctnt : Nat}
    (ha : l[i]? = some a) (ho : a.origin = .parse cat from_ctnt) {w : List PgfToken} (hfed : Fed (logOf l) i w j) {parse : PgfParse}
    (hp : (heapAfter l).parses[j]? = some parse) {e : PgfExpr} (he : Enumerated (heapAfter l) (pgf_parse_result parse) e)
    (hnew : pgf_new_lzr to_concr = .ok lzr) {fuel : Nat} {lzn lzn' : PgfLzn} {tree : PgfCncTree} (hlzn : lzn.Reached lzr e)
    (hnext : pgf_lzn_next lzr fuel lzn = .ok (some tree, lzn')) {out : List PgfToken} (hout : Linearizes to_ctnt tree out) :
    Translates P to_concr cat from_ctnt to_ctnt w e out := by
  obtain ⟨hcnc, hidx⟩ := new_lzr_indexed hnew
  obtain ⟨c, -, d', hinf, rfl⟩ := next_derivation hidx hlzn hnext
  obtain ⟨g, hg, d, hd, rfl⟩ := he.derivation
  rw [hcnc] at hinf
  obtain ⟨events, hevents, rfl⟩ := hout
  constructor
  · -- the derivation has no metavariables, so that its tree is one of the grammar
    obtain ⟨b, hb, hcomp, -⟩ := hl.parse_call hp
    obtain ⟨s, hs, hst, hy⟩ := completed_start hP hl ha hb ho hfed (hcomp ▸ hg) (hd.whole hinf)
    exact ⟨s, d.tree, hs, hl.grammar_tree hst (Origin.starts_lt hs), hy, d.tree_expr⟩
  · have hc : c < to_concr.ccatMem.length := by
      rcases d.spine_cases with hspine | ⟨f, ss, hspine⟩
      · rw [hspine] at hinf
        simp [Infers] at hinf
      · rw [hspine] at hinf
        cases d' with
        | lit lit => simp [Infers] at hinf
        | app x fn chains ds =>
          obtain ⟨pargs, hx, -⟩ := hinf
          obtain ⟨ccat, hcc, -⟩ := PgfConcr.listed_mem hx
          exact (List.getElem?_eq_some_iff.1 hcc).1
    obtain ⟨t, ht, hw, htree, hexpr⟩ := infers_tree _ hinf hc
    refine ⟨c, t, ht, linearize_yields hw (htree ▸ hevents), ?_⟩
    rw [hexpr, infers_expr _ hinf, d.expr_bare]

/-- The enumeration of the expressions of a parse state, and of the concrete trees of each. -/
theorem results_translate (hP : P.concr.Fits) (hl : Session P l) {i j : Nat} {a : Call P} {cat : PgfCId} {from_ctnt to_ctnt : Nat}
    (ha : l[i]? = some a) (ho : a.origin = .parse cat from_ctnt) {w : List PgfToken} (hfed : Fed (logOf l) i w j) {parse : PgfParse}
    (hp : (heapAfter l).parses[j]? = some parse) (hnew : pgf_new_lzr to_concr = .ok lzr) {fuel : Nat}
    {rs : List (PgfExpr × List (List PgfToken))}
    (hrs : Yields (pgf_parse_result_next (heapAfter l) fuel) (pgf_parse_result parse) (rs.map Prod.fst))
    (hall : ∀ r ∈ rs, Concretized lzr fuel to_ctnt r.1 r.2) :
    ∀ r ∈ rs, ∀ out ∈ r.2, Translates P to_concr cat from_ctnt to_ctnt w r.1 out := by
  intro r hr out hout
  have he := hrs.enumerated (List.mem_map_of_mem hr)
  obtain ⟨trees, htrees, hlin⟩ := hall r hr
  obtain ⟨tree, htree, hlin⟩ := forall₂_left hlin hout
  obtain ⟨lzn, lzn', hlzn, hnext⟩ := htrees.reached .start htree
  exact translates hP hl ha ho hfed hp he hnew hlzn hnext hlin

end Sound

/-! ## Lines -/

section Lines
variable {P : PgfParser} {l : List (Call P)}

theorem Fed.mono {L L' : Log} {i j : Nat} {w : List PgfToken} (h : Fed L i w j) (hL : L <+: L') : Fed L' i w j := by
  induction h with
  | refl => exact .refl
  | token _ hk ih =>
    obtain ⟨L₁, rfl⟩ := hL
    exact .token ih ((List.getElem?_append_left (List.getElem?_eq_some_iff.1 hk).1).trans hk)

/-- What a parse of the tokens `w`, begun by call `i`, has been found to be. -/
structure Answered (l : List (Call P)) (i : Nat) (lzr : PgfLzr) (fuel to_ctnt : Nat) (w : List PgfToken)
    (rs : List (PgfExpr × List (List PgfToken))) : Prop where
  fed : ∃ j parse, Fed (logOf l) i w j ∧ (heapAfter l).parses[j]? = some parse ∧
    Yields (pgf_parse_result_next (heapAfter l) fuel) (pgf_parse_result parse) (rs.map Prod.fst)
  concretized : ∀ r ∈ rs, Concretized lzr fuel to_ctnt r.1 r.2

variable {E : LocaleEncoder} {σ : Type} {S : GuOutStreamFuns σ} {init : Bytes} {v : OutView (fun _ => True) init S}
  {wtr : GuWriter (GuLocaleOutStream σ)} {lzr : PgfLzr} {fuel from_ctnt to_ctnt : Nat} {cat : PgfCId} {shows : Bool}

theorem Answered.translates {to_concr : PgfConcr} (hP : P.concr.Fits) (hl : Session P l) {i : Nat} {a : Call P} (ha : l[i]? = some a)
    (ho : a.origin = .parse cat from_ctnt) (hnew : pgf_new_lzr to_concr = .ok lzr) {w : List PgfToken}
    {rs : List (PgfExpr × List (List PgfToken))} (h : Answered l i lzr fuel to_ctnt w rs) :
    ∀ r ∈ rs, ∀ out ∈ r.2, Translates P to_concr cat from_ctnt to_ctnt w r.1 out := by
  obtain ⟨j, parse, hfed, hp, hrs⟩ := h.fed
  exact results_translate hP hl ha ho hfed hp hnew hrs h.concretized

end Lines

/-! ## Whole runs -/

section Runs
variable {E : LocaleEncoder} {σ : Type} {S : GuOutStreamFuns σ} {init : Bytes} {v : OutView (fun _ => True) init S} {out : GuOut σ}
  {wtr : Option (GuWriter (GuLocaleOutStream σ))} {item_hash : Option PgfItem → Nat} {fuel : Nat} {pgf : PgfPGF} {opts : Options}
  {stdin : Stdin} {exn : Option Caught}

end Runs

/-! ## A grammar translated into itself -/

namespace Tiny

/-- The encoding of the locale "POSIX". -/
def ascii : LocaleEncoder where
  wcrtomb c := if c < 0x80 then some [UInt8.ofNat c] else none
  length_le {c bs} h := by
    split_ifs at h
    obtain rfl := Option.some.inj h
    exact (by decide : 1 ≤ MB_LEN_MAX)
  question := rfl

end Tiny

end Libpgf
