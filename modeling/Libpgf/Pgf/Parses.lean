import Libpgf.Pgf.Completeness
import Libpgf.Pgf.Forest
import Libpgf.Pgf.Linearize
/-!
# Parses yield the input

Every expression that `pgf_parse_result` enumerates comes from a derivation in
the parse forest, and however its metavariables are filled in, the tree yields
the tokens fed.
-/

namespace Libpgf

variable {P : PgfParser}

/-- The expression is returned by some call of an enumeration that goes on from `pr`. -/
inductive Enumerated (h : Heap P) : PgfParseResult → PgfExpr → Prop
  | here {fuel pr e pr'} : pgf_parse_result_next h fuel pr = .ok (some e, pr') → Enumerated h pr e
  | later {fuel pr e e' pr'} : pgf_parse_result_next h fuel pr = .ok (some e', pr') → Enumerated h pr' e → Enumerated h pr e

theorem parse_result_loop_sound {h : Heap P} {fuel n : Nat} {pr pr' : PgfParseResult} {e : PgfExpr}
    (hr : pgf_parse_result_loop h fuel n pr = .ok (some e, pr')) :
    pr'.completed = pr.completed ∧ ∃ g ∈ pr.completed, ∃ d, h.Derivation g d ∧ d.expr = e := by
  induction n generalizing pr with
  | zero => simp [pgf_parse_result_loop] at hr
  | succ n ih =>
    unfold pgf_parse_result_loop at hr
    obtain ⟨ch, -, hr⟩ := Exec.bind_ok.1 hr
    obtain ⟨mark, -, hr⟩ := Exec.bind_ok.1 hr
    obtain ⟨⟨i, ch₁⟩, -, hr⟩ := Exec.bind_ok.1 hr
    cases i with
    | none => simp at hr
    | some i =>
      obtain ⟨cat, hcat, hr⟩ := Exec.bind_ok.1 hr
      obtain ⟨⟨⟨ret, seen⟩, ch₂⟩, hexpr, hr⟩ := Exec.bind_ok.1 hr
      obtain ⟨ch₃, -, hr⟩ := Exec.bind_ok.1 hr
      obtain ⟨⟨more, ch₄⟩, -, hr⟩ := Exec.bind_ok.1 hr
      rw [Exec.deref_ok] at hcat
      cases ret with
      | none =>
        have hrest : pgf_parse_result_loop h fuel n ⟨pr.completed, if more = true then some ch₄ else none⟩ = .ok (some e, pr') := hr
        have := ih hrest
        exact this
      | some ret =>
        simp only [Exec.pure_eq, Except.ok.injEq, Prod.mk.injEq, Option.some.injEq] at hr
        obtain ⟨rfl, rfl⟩ := hr
        rw [cat_to_expr_run] at hexpr
        obtain ⟨⟨⟨d, seen'⟩, ch₅⟩, hrun, he⟩ := Exec.bind_ok.1 hexpr
        simp only [Except.ok.injEq, Prod.mk.injEq, Option.map_eq_some_iff] at he
        obtain ⟨⟨⟨d, rfl, hd⟩, -⟩, -⟩ := he
        exact ⟨rfl, cat, List.mem_of_getElem? hcat, d, (walk_sound (GuChoice.run_mem_leaves hrun)).1, hd⟩

theorem parse_result_next_sound {h : Heap P} {fuel : Nat} {pr pr' : PgfParseResult} {e : PgfExpr}
    (hr : pgf_parse_result_next h fuel pr = .ok (some e, pr')) :
    pr'.completed = pr.completed ∧ ∃ g ∈ pr.completed, ∃ d, h.Derivation g d ∧ d.expr = e := by
  unfold pgf_parse_result_next at hr
  split at hr
  · simp at hr
  · exact parse_result_loop_sound hr

theorem Enumerated.derivation {h : Heap P} {pr : PgfParseResult} {e : PgfExpr} (he : Enumerated h pr e) :
    ∃ g ∈ pr.completed, ∃ d, h.Derivation g d ∧ d.expr = e := by
  induction he with
  | here hr => exact (parse_result_next_sound hr).2
  | later hr _ ih => exact (parse_result_next_sound hr).1 ▸ ih

/-- After the tokens `w`, an expression enumerated is that of a derivation from
a completed category, and whatever trees of the grammar take the places of its
metavariables, the tree yields `w`. -/
theorem parse_sound (hP : P.concr.Fits) {l : List (Call P)} (hl : Session P l) {i j : Nat} {a : Call P} {cat : PgfCId}
    {lin_idx : Nat} (ha : l[i]? = some a) (ho : a.origin = .parse cat lin_idx) {w : List PgfToken}
    (hw : Fed (logOf l) i w j) {parse : PgfParse} (hp : (heapAfter l).parses[j]? = some parse) {e : PgfExpr}
    (he : Enumerated (heapAfter l) (pgf_parse_result parse) e) :
    (∃ g ∈ parse.completed, ∃ d, (heapAfter l).Derivation g d ∧ d.expr = e) ∧
      ∀ g ∈ parse.completed, ∀ d, (heapAfter l).Derivation g d → d.expr = e →
        ∀ t, Fills P.concr.Prod d.tree t → t.Yields lin_idx w := by
  refine ⟨he.derivation, fun g hg d hd _ t ht => ?_⟩
  obtain ⟨b, hb, hcomp, -⟩ := hl.parse_call hp
  have htree : TreeOf (heapAfter l).Prod g t := hd.tree.fill (fun _ _ h => hl.concr_prod h) ht
  exact completed_yields hP hl ha hb ho hw (hcomp ▸ hg) htree

theorem parse_sound_tiny : ∃ (l : List (Call Tiny.parser)) (parse : PgfParse) (e : PgfExpr), Session Tiny.parser l ∧
    (heapAfter l).parses[2]? = some parse ∧ Enumerated (heapAfter l) (pgf_parse_result parse) e ∧
    ∃ g ∈ parse.completed, ∃ d, (heapAfter l).Derivation g d ∧ d.expr = e ∧
      ∀ t, Fills Tiny.concr.Prod d.tree t → t.Yields 0 [[99], [98]] := by
  obtain ⟨l, hl, hcheck⟩ := Session.of_check 20 Tiny.calls (fun l : List (Call Tiny.parser) =>
    decide (l.map Call.origin = Tiny.calls) && ((heapAfter l).parses[2]?).any fun parse : PgfParse =>
      ((pgf_parse_result_next (heapAfter l) 10 (pgf_parse_result parse)).toOption.bind Prod.fst).isSome) (by decide +kernel)
  rw [Bool.and_eq_true, decide_eq_true_eq] at hcheck
  obtain ⟨ho, hcheck⟩ := hcheck
  obtain ⟨parse, hp, hsome⟩ := (Option.any_eq_true _ _).1 hcheck
  obtain ⟨e, he⟩ := Option.isSome_iff_exists.1 hsome
  obtain ⟨⟨_, pr⟩, hnext, rfl⟩ := Option.bind_eq_some_iff.1 he
  have hnext : pgf_parse_result_next (heapAfter l) 10 (pgf_parse_result parse) = .ok (some e, pr) := by
    revert hnext
    cases pgf_parse_result_next (heapAfter l) 10 (pgf_parse_result parse) <;> simp [Except.toOption]
  obtain ⟨⟨a, ha, hao⟩, hfed⟩ := Tiny.fed ho
  obtain ⟨⟨g, hg, d, hd, hde⟩, hall⟩ := parse_sound Tiny.fits hl ha hao hfed hp (.here hnext)
  exact ⟨l, parse, e, hl, hp, .here hnext, g, hg, d, hd, hde, hall g hg d hd hde⟩

end Libpgf
