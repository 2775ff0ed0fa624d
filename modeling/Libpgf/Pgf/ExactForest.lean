import Libpgf.Pgf.ParseTrees
import Libpgf.Pgf.Parses
/-!
# The forest of a parse state

The trees of the completed categories are the trees of the grammar that yield
the tokens fed, and no others. A token that is refused begins no continuation of
the input.
-/

namespace Libpgf

variable {P : PgfParser} {l : List (Call P)}

/-! ## Categories of the grammar -/

namespace Session

/-- A category of the grammar gets no productions from parsing. -/
theorem grammar_prod (hl : Session P l) {c : PgfCCatId} (hc : c < P.concr.ccatMem.length) {p : PgfProduction} :
    (heapAfter l).Prod c p ↔ P.concr.Prod c p := by
  simp only [Heap.Prod, PgfConcr.Prod, prefix_getElem? hl.ccats_le hc]

/-- The trees of such a category have only such categories. -/
theorem grammar_tree (hl : Session P l) {c : PgfCCatId} {t : Tree} (ht : TreeOf (heapAfter l).Prod c t)
    (hc : c < P.concr.ccatMem.length) : TreeOf P.concr.Prod c t := by
  induction ht with
  | @node c p ts hp hlen _ ih =>
    have hp := (hl.grammar_prod hc).1 hp
    refine .node hp hlen fun d parg t hd ht => ih d parg t hd ht ?_
    obtain ⟨ccat, hcc, hm⟩ := hp
    refine P.concr.prods_valid ccat (List.mem_of_getElem? hcc) p hm _ ?_
    cases p with
    | APPLY f args => exact List.mem_flatMap.2 ⟨parg, List.mem_of_getElem? hd, List.mem_cons_self⟩
    | COERCE coerce =>
      obtain rfl := List.mem_singleton.1 (List.mem_of_getElem? hd)
      exact List.mem_singleton_self coerce
  | leaf h => exact h.elim

end Session

/-- A whole input is a constituent of a category of the grammar. -/
theorem Origin.starts_lt {cat : PgfCId} {lin_idx : Nat} {c : PgfCCatId} (h : (Origin.parse cat lin_idx).Starts P c lin_idx) :
    c < P.concr.ccatMem.length := by
  obtain ⟨-, id, cnccat, -, hcnc, hc⟩ := h
  exact P.concr.cats_valid cnccat (List.mem_of_getElem? hcnc) _ hc c rfl

/-! ## Trees of whole inputs -/

section Parse
variable (hP : P.concr.Fits) (hl : Session P l) (hcov : Covered l) {i : Nat} {a : Call P} {cat : PgfCId} {lin_idx : Nat}
  (ha : l[i]? = some a) (ho : a.origin = .parse cat lin_idx)
include hP hl hcov ha ho

/-- A tree of the grammar is found: its tokens are expected, and lead to a state that has completed it. -/
theorem tree_found {c : PgfCCatId} (hc : (Origin.parse cat lin_idx).Starts P c lin_idx) {t : Tree}
    (ht : TreeOf P.concr.Prod c t) {w : List PgfToken} (hy : t.Yields lin_idx w) : Expects l i w ∧
      ∀ j b, Fed (logOf l) i w j → l[j]? = some b → ∃ g ∈ b.state.chart.completed, TreeOf (heapAfter l).Prod g t := by
  have hct : TreeOf (heapAfter l).Prod c t := ht.mono fun _ _ h => hl.concr_prod h
  obtain ⟨K, hK, hnull⟩ : ∃ K, a.state.chart.conts c lin_idx = some K ∧ none ∈ a.state.chart.held K := by
    rcases (hl.finished ha).started c lin_idx (ho ▸ hc) with ⟨ccat, hcc, hn⟩ | h
    · have hlt : c < a.state.heap.ccats.length := (List.getElem?_eq_some_iff.1 hcc).1
      have hheap : (heapAfter l).ccats[c]? = some ccat := by
        rw [← prefix_getElem? (hl.heap_le ha).ccats hlt]
        exact hcc
      exact absurd hct (Heap.no_trees hheap hn)
    · exact h
  obtain ⟨hexp, hgen⟩ := recognized hP hl hcov t ha hK hct hy
  refine ⟨hexp, ?_⟩
  intro j b hfed hb
  obtain ⟨g, hg, hgt⟩ := hgen j b hfed hb
  exact ⟨g, hl.combined hcov hb hg (hl.held_of ha hnull), hgt⟩

/-- A token that a tree yields next is not refused. -/
theorem token_taken {c : PgfCCatId} (hc : (Origin.parse cat lin_idx).Starts P c lin_idx) {t : Tree}
    (ht : TreeOf P.concr.Prod c t) {u v : List PgfToken} {tok : PgfToken} (hy : t.Yields lin_idx (u ++ tok :: v)) {j fuel : Nat}
    (hfed : Fed (logOf l) i u j) : pgf_parse_token fuel (heapAfter l) j tok ≠ .ok none := by
  obtain ⟨hexp, -⟩ := tree_found hP hl hcov ha ho hc ht hy
  obtain ⟨b, hb⟩ := hfed.exists_call ha
  obtain ⟨T, hT⟩ := hexp u tok v j b rfl hfed hb
  obtain ⟨parse, hp, htr⟩ := hl.agenda_of hb (hl.heap_le hb) hT
  simp [pgf_parse_token, hp, htr, Exec.bind_ok]

end Parse

/-- After the tokens `w`, the trees of the completed categories are the trees of
the grammar that yield `w`; and if the next token is refused, no tree of the
grammar yields it there. -/
theorem forest_exact (hP : P.concr.Fits) (hl : Session P l) (hcov : Covered l) {i j : Nat} {a : Call P} {cat : PgfCId}
    {lin_idx : Nat} (ha : l[i]? = some a) (ho : a.origin = .parse cat lin_idx) {w : List PgfToken} (hw : Fed (logOf l) i w j)
    {parse : PgfParse} (hp : (heapAfter l).parses[j]? = some parse) :
    (∀ t, (∃ g ∈ parse.completed, TreeOf (heapAfter l).Prod g t) ↔
      ∃ c, (Origin.parse cat lin_idx).Starts P c lin_idx ∧ TreeOf P.concr.Prod c t ∧ t.Yields lin_idx w) ∧
    ∀ tok fuel, pgf_parse_token fuel (heapAfter l) j tok = .ok none →
      ∀ c t v, (Origin.parse cat lin_idx).Starts P c lin_idx → TreeOf P.concr.Prod c t → ¬ t.Yields lin_idx (w ++ tok :: v) := by
  obtain ⟨b, hb, hcomp, -⟩ := hl.parse_call hp
  constructor
  · intro t
    constructor
    · rintro ⟨g, hg, ht⟩
      obtain ⟨c, hc, hct, hy⟩ := completed_start hP hl ha hb ho hw (hcomp ▸ hg) ht
      exact ⟨c, hc, hl.grammar_tree hct (Origin.starts_lt hc), hy⟩
    · rintro ⟨c, hc, hct, hy⟩
      obtain ⟨g, hg, ht⟩ := (tree_found hP hl hcov ha ho hc hct hy).2 j b hw hb
      exact ⟨g, hcomp ▸ hg, ht⟩
  · intro tok fuel hnone c t v hc ht hy
    exact token_taken hP hl hcov ha ho hc ht hy hw hnone

/-- After `c b`, the tree of `c b` belongs to a completed category. -/
theorem forest_exact_tiny : ∃ (l : List (Call Tiny.parser)) (parse : PgfParse), Session Tiny.parser l ∧
    (heapAfter l).parses[2]? = some parse ∧ (∃ g ∈ parse.completed, TreeOf (heapAfter l).Prod g Tiny.tree) ∧
    ∀ g ∈ parse.completed, ∀ t, TreeOf (heapAfter l).Prod g t → t.Yields 0 [[99], [98]] := by
  obtain ⟨l, hl, ho, hcov⟩ := Tiny.session
  obtain ⟨⟨a, ha, hao⟩, hfed⟩ := Tiny.fed ho
  have hlen : l.length = 3 := by simpa [Tiny.calls] using congrArg List.length ho
  have hp := List.getElem?_eq_getElem (l := (heapAfter l).parses) (i := 2) (by rw [hl.parses_length]; omega)
  have hstart : (Origin.parse [83] 0).Starts Tiny.parser 0 0 := ⟨rfl, 0, _, rfl, rfl, List.mem_singleton_self _⟩
  obtain ⟨hforest, -⟩ := forest_exact Tiny.fits hl hcov ha hao hfed hp
  refine ⟨l, _, hl, hp, (hforest _).2 ⟨0, hstart, Tiny.tree_derives, Tiny.tree_yields⟩, fun g hg t ht => ?_⟩
  obtain ⟨c, -, -, hy⟩ := (hforest t).1 ⟨g, hg, ht⟩
  exact hy

end Libpgf
