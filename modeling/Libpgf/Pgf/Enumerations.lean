import Libpgf.Pgf.ConcreteTrees
import Libpgf.Pgf.ParseTrees
/-!
# Which enumerations end

The enumeration of the parses of a state ends when its last walk is not cut.
That of the concrete trees of an expression ends when its last run does not
fail, or all of them do: otherwise it begins again after the last tree.
-/

namespace Libpgf

open GuChoice

/-- Some number of calls return parses, and all calls after them nothing. -/
def Heap.ResultEnds {P : PgfParser} (h : Heap P) (parse : PgfParse) : Prop :=
  ∃ (es : List PgfExpr) (N : Nat), ∀ fuel ≥ N, EndsAfter (pgf_parse_result_next h fuel) (pgf_parse_result parse) es

theorem Heap.resultEnds_iff {P : PgfParser} (h : Heap P) (parse : PgfParse) : h.ResultEnds parse ↔ h.Uncut parse.completed := by
  constructor
  · rintro ⟨es, N, hends⟩
    exact result_uncut (by omega) (hends (N + h.ccats.length + 1) (by omega))
  · intro hun
    exact ⟨_, h.ccats.length + (h.walks parse.completed).runs.length + 1, fun fuel hfuel => result_ends hun (by omega) (by omega)⟩

/-- Some number of calls return concrete trees, and all calls after them nothing. -/
def PgfLzr.ConcretizeEnds (lzr : PgfLzr) (expr : PgfExpr) : Prop :=
  ∃ (ts : List PgfCncTree) (N : Nat), ∀ fuel ≥ N, EndsAfter (pgf_lzn_next lzr fuel) (pgf_lzr_concretize expr) ts

theorem PgfLzr.concretizeEnds_iff {cnc : PgfConcr} {lzr : PgfLzr} (h : pgf_new_lzr cnc = .ok lzr) (hacyc : cnc.Acyclic)
    (expr : PgfExpr) : lzr.ConcretizeEnds expr ↔ Ending (cnc.search expr).runs := by
  obtain ⟨M, hM⟩ := search_explored h hacyc expr
  constructor
  · rintro ⟨ts, N, hends⟩
    obtain ⟨hpos, hexp⟩ := hM (max N M) (by omega)
    exact concretize_ending hexp hpos (hends (max N M) (by omega))
  · intro hending
    exact ⟨_, M, fun fuel hfuel => concretize_ends (hM fuel hfuel).2 (hM fuel hfuel).1 hending⟩

/-- Exactly when enumerations end: the parses of a state, and the concrete trees of an expression. -/
theorem enumerations_end {P : PgfParser} (h : Heap P) (parse : PgfParse) {cnc : PgfConcr} {lzr : PgfLzr}
    (hlzr : pgf_new_lzr cnc = .ok lzr) (hacyc : cnc.Acyclic) (expr : PgfExpr) :
    (h.ResultEnds parse ↔ h.Uncut parse.completed) ∧ (lzr.ConcretizeEnds expr ↔ Ending (cnc.search expr).runs) :=
  ⟨h.resultEnds_iff parse, PgfLzr.concretizeEnds_iff hlzr hacyc expr⟩

/-- The runs all come to their end, the last of them with a value. -/
def uncutCheck {α : Type} (rs : List (List Nat × Exec (Option α))) : Bool :=
  (rs.all fun r => match r.2 with
    | .ok _ => true
    | .error _ => false) && match rs.getLast? with
    | some (_, .ok (some _)) => true
    | _ => false

theorem uncut_of_check {α : Type} {rs : List (List Nat × Exec (Option α))} (h : uncutCheck rs = true) : Uncut rs := by
  unfold uncutCheck at h
  rw [Bool.and_eq_true] at h
  refine ⟨fun r hr => ?_, fun r hr => ?_⟩
  · have hall := List.all_eq_true.1 h.1 r hr
    cases hr2 : r.2 with
    | ok o => exact ⟨o, rfl⟩
    | error e => simp [hr2] at hall
  · have hlast := h.2
    rw [show rs.getLast? = some r from hr] at hlast
    obtain ⟨p, e | _ | a⟩ := r
    · cases hlast
    · cases hlast
    · exact ⟨a, rfl⟩

/-- The parse of `c b`, and an application in a chain of categories. -/
theorem enumerations_end_chained : (∃ (l : List (Call Tiny.parser)) (parse : PgfParse), Session Tiny.parser l ∧
      (heapAfter l).parses[2]? = some parse ∧ parse.completed ≠ [] ∧ (heapAfter l).ResultEnds parse) ∧
    ∃ lzr, pgf_new_lzr Chained.concr = .ok lzr ∧ lzr.ConcretizeEnds (.APP (.FUN [102]) (.FUN [97])) := by
  obtain ⟨l, hl, hcheck⟩ := Session.of_check 20 Tiny.calls (fun l : List (Call Tiny.parser) =>
    ((heapAfter l).parses[2]?).any fun parse : PgfParse => decide (parse.completed ≠ []) &&
      uncutCheck ((heapAfter l).walks parse.completed).runs) (by decide +kernel)
  obtain ⟨parse, hp, hcheck⟩ := (Option.any_eq_true _ _).1 hcheck
  rw [Bool.and_eq_true, decide_eq_true_eq] at hcheck
  have hends := @enumerations_end Tiny.parser (heapAfter l) parse Chained.concr _ rfl
    (PgfConcr.acyclic_of_coercesUp (by decide)) (.APP (.FUN [102]) (.FUN [97]))
  refine ⟨⟨l, parse, hl, hp, hcheck.1, hends.1.2 (.inr (uncut_of_check hcheck.2))⟩, _, rfl, hends.2.2 (.inr (uncut_of_check ?_))⟩
  decide +kernel

/-! ## Enumerations that go on -/

/-- The last run fails. -/
def lastFails {α : Type} (rs : List (List Nat × Exec (Option α))) : Bool :=
  match rs.getLast? with
  | some (_, .ok none) => true
  | _ => false

theorem Uncut.lastFails {α : Type} {rs : List (List Nat × Exec (Option α))} (h : Uncut rs) : lastFails rs = false := by
  unfold Libpgf.lastFails
  split
  · rename_i p hlast
    obtain ⟨a, ha⟩ := h.2 _ hlast
    cases ha
  · rfl

namespace Last

/-- `A → a[]`, `B → a[]`, `S → f[A]` -/
def concr : PgfConcr where
  ccatMem := [⟨some 0, .seq [.APPLY Chained.a []], 0⟩, ⟨some 1, .seq [.APPLY Chained.a []], 1⟩,
    ⟨some 2, .seq [.APPLY Chained.f [⟨[], 0⟩]], 2⟩]
  cnccatMem := [⟨[65], [some 0], 1, [[115]]⟩, ⟨[66], [some 1], 1, [[115]]⟩, ⟨[83], [some 2], 1, [[115]]⟩]
  cnccats := [([65], 0), ([66], 1), ([83], 2)]
  extra_ccats := []
  prods_fixed := by decide
  prods_valid := by decide
  cats_valid := by decide

end Last

/-- A reachable state whose only walk is cut, and an expression whose last run fails after another has found a tree. -/
theorem enumerations_go_on :
    (∃ (l : List (Call Twice.parser)) (parse : PgfParse), Session Twice.parser l ∧ (heapAfter l).parses[1]? = some parse ∧
      ¬ (heapAfter l).ResultEnds parse) ∧
    ∃ lzr, pgf_new_lzr Last.concr = .ok lzr ∧ Last.concr.Acyclic ∧ ¬ lzr.ConcretizeEnds (.APP (.FUN [102]) (.FUN [97])) := by
  constructor
  · obtain ⟨l, hl, hcheck⟩ := Session.of_check 20 [.parse [83] 0, .token 0 [120]] (fun l : List (Call Twice.parser) =>
      ((heapAfter l).parses[1]?).any fun parse : PgfParse => decide (parse.completed ≠ []) &&
        lastFails ((heapAfter l).walks parse.completed).runs) (by decide +kernel)
    obtain ⟨parse, hp, hcheck⟩ := (Option.any_eq_true _ _).1 hcheck
    simp only [Bool.and_eq_true, decide_eq_true_eq] at hcheck
    refine ⟨l, parse, hl, hp, fun hends => ?_⟩
    have hun := ((heapAfter l).resultEnds_iff parse).1 hends
    rw [(hun.resolve_left hcheck.1).lastFails] at hcheck
    simp at hcheck
  · have hacyc : Last.concr.Acyclic := PgfConcr.acyclic_of_coercesUp (by decide)
    refine ⟨_, rfl, hacyc, fun hends => ?_⟩
    rcases (PgfLzr.concretizeEnds_iff rfl hacyc _).1 hends with hfail | hun
    · have hsome : (first (Last.concr.search (.APP (.FUN [102]) (.FUN [97]))).runs).isSome = true := by decide +kernel
      rw [first_skip hfail] at hsome
      cases hsome
    · have hlast : lastFails (Last.concr.search (.APP (.FUN [102]) (.FUN [97]))).runs = true := by decide +kernel
      rw [hun.lastFails] at hlast
      cases hlast

end Libpgf
