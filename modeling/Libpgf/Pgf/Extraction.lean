import Libpgf.Gu.Backtrack
import Libpgf.Lib.Enum
import Libpgf.Pgf.Walks
/-!
# Extraction of trees

`pgf_parse_result` runs through all walks from the completed categories. A walk
that comes upon a category for the second time is cut, whether the category is
nested in itself or used beside itself; and when the last walk is cut the
enumeration goes on with the choice that it has just dropped.
-/

namespace Libpgf

variable {P : PgfParser}

open GuChoice

/-! ## All walks of a parse state -/

/-- The walks from the completed categories, with the place of each in the list. -/
def allWalks (h : Heap P) (fuel : Nat) (completed : List PgfCCatId) : Search (Exec (Option (Nat × Deriv))) :=
  andThen (choice completed.length) fun
    | none => .done (.ok none)
    | some k =>
      match completed[k]? with
      | none => .done Exec.abort
      | some cat => andThen (walk h fuel cat []) fun r => .done (.ok (r.1.map (k, ·)))

theorem walkArgs_small {w : PgfCCatId → List PgfCCatId → Search (Exec (Option Deriv × List PgfCCatId))}
    (hw : ∀ c seen, (w c seen).Small 255) (args : List PgfPArg) (seen : List PgfCCatId) : (walkArgs w args seen).Small 255 := by
  induction args generalizing seen with
  | nil => trivial
  | cons parg args ih =>
    unfold walkArgs
    split
    · refine andThen_small (hw _ _) fun r => ?_
      rcases r with ⟨_ | d, seen'⟩
      · trivial
      · exact andThen_small (ih seen') fun _ => trivial
    · trivial

theorem walk_small (h : Heap P) (fuel : Nat) (c : PgfCCatId) (seen : List PgfCCatId) : (walk h fuel c seen).Small 255 := by
  induction fuel generalizing c seen with
  | zero => trivial
  | succ fuel ih =>
    unfold walk
    split
    · trivial
    split
    · trivial
    split
    · trivial
    · trivial
    · refine andThen_small (choice_small _) fun i => ?_
      cases i with
      | none => trivial
      | some i =>
        simp only
        split
        · trivial
        · exact andThen_small (walkArgs_small ih _ _) fun _ => trivial

theorem allWalks_small (h : Heap P) (fuel : Nat) (completed : List PgfCCatId) : (allWalks h fuel completed).Small 255 := by
  refine andThen_small (choice_small _) fun i => ?_
  cases i with
  | none => trivial
  | some k =>
    simp only
    split
    · trivial
    · exact andThen_small (walk_small h fuel _ _) fun _ => trivial

theorem choice_some {n : Nat} (hn : n ≠ 0) {ch ch' : GuChoice} {i : Option Nat} (h : gu_choice_next ch n = .ok (i, ch')) :
    ∃ k, i = some k := by
  rw [← run_choice] at h
  have := run_mem_leaves h
  rw [leaves_choice, if_neg hn] at this
  split at this
  · simp only [List.mem_map, Except.ok.injEq] at this
    obtain ⟨k, -, hk⟩ := this
    exact ⟨k, hk.symm⟩
  · simp [Exec.abort] at this

/-- The enumeration has the runs `rs` left; after the last one the choice is dropped. -/
def PgfParseResult.Left (h : Heap P) (fuel : Nat) (pr : PgfParseResult) (rs : List (List Nat × Exec (Option (Nat × Deriv)))) : Prop :=
  (rs = [] ∧ pr.choice = none) ∨ ∃ ch q, pr.choice = some ch ∧ ch.At [] q ∧ (allWalks h fuel pr.completed).After q rs

/-- A round of the loop of `pgf_parse_result_next` makes the next run. -/
theorem result_round {h : Heap P} {fuel : Nat} {completed : List PgfCCatId} (hne : completed ≠ []) {ch : GuChoice} {q : List Nat}
    (hch : ch.At [] q) {rs : List (List Nat × Exec (Option (Nat × Deriv)))} (hq : (allWalks h fuel completed).After q rs) :
    ∃ p r rest c, rs = (p, r) :: rest ∧ PgfParseResult.Left h fuel ⟨completed, c⟩ rest ∧
      ∀ n, pgf_parse_result_loop h fuel (n + 1) ⟨completed, some ch⟩ = r >>= fun
        | some (_, d) => .ok (some d.expr, ⟨completed, c⟩)
        | none => pgf_parse_result_loop h fuel n ⟨completed, c⟩ := by
  obtain ⟨p, r, rest, ch', rfl, hat, hrun, ch₁, ch₂, hreset, hadv⟩ := run_next hq (allWalks_small h fuel completed) hch
  have hlen : completed.length ≠ 0 := fun h0 => hne (List.length_eq_zero_iff.1 h0)
  -- what is left after the run
  obtain ⟨more, hmore, hleft⟩ : ∃ more, gu_choice_advance ch₁ = .ok (more, ch₂) ∧
      PgfParseResult.Left h fuel ⟨completed, if more then some ch₂ else none⟩ rest := by
    rcases hadv with ⟨rfl, hadv, -⟩ | ⟨q', hq', hadv, hat₂⟩
    · exact ⟨false, hadv, .inl ⟨rfl, rfl⟩⟩
    · exact ⟨true, hadv, .inr ⟨ch₂, q', rfl, hat₂, hq'⟩⟩
  refine ⟨p, r, rest, _, rfl, hleft, fun n => ?_⟩
  conv_lhs => unfold pgf_parse_result_loop
  simp only [Exec.deref_some, Exec.ok_bind, hch.mark]
  unfold allWalks at hrun
  rw [run_andThen, run_choice] at hrun
  cases hnext : gu_choice_next ch completed.length with
  | error e =>
    rw [hnext] at hrun
    cases r with
    | error e' => simpa [Except.map] using hrun
    | ok o => simp [Except.map] at hrun
  | ok i =>
    obtain ⟨i, ch₃⟩ := i
    obtain ⟨k, rfl⟩ := choice_some hlen hnext
    rw [hnext, Exec.ok_bind] at hrun
    simp only [Exec.ok_bind]
    cases hk : completed[k]? with
    | none =>
      simp only [hk] at hrun
      cases r with
      | error e' => simpa [Except.map, run, Exec.deref, Exec.abort] using hrun
      | ok o => simp [Except.map, run, Exec.abort] at hrun
    | some cat =>
      simp only [hk, run_andThen] at hrun
      simp only [Exec.deref_some, Exec.ok_bind, cat_to_expr_run]
      cases hw : run (walk h fuel cat []) ch₃ with
      | error e =>
        rw [hw] at hrun
        cases r with
        | error e' => simpa [Except.map] using hrun
        | ok o => simp [Except.map] at hrun
      | ok d =>
        obtain ⟨⟨d, seen⟩, ch₄⟩ := d
        rw [hw] at hrun
        cases r with
        | error e' => simp [Except.map, run] at hrun
        | ok o =>
          simp only [Exec.ok_bind, run, Except.map, Except.ok.injEq, Prod.mk.injEq] at hrun
          obtain ⟨rfl, rfl⟩ := hrun
          rw [List.length_nil] at hreset
          simp only [Exec.ok_bind, List.length_nil, hreset, hmore]
          cases d with
          | none => simp only [Option.map_none]
          | some d => rfl

/-! ## The loop -/

section Loop
variable {h : Heap P} {fuel : Nat} {pr : PgfParseResult} {rs : List (List Nat × Exec (Option (Nat × Deriv)))}

theorem PgfParseResult.Left.start (hne : pr.choice = some gu_new_choice) :
    PgfParseResult.Left h fuel pr (allWalks h fuel pr.completed).runs := .inr ⟨gu_new_choice, [], hne, .new, .start⟩

/-- Cut walks are passed over. -/
theorem loop_found (hne : pr.completed ≠ []) {skip rest : List (List Nat × Exec (Option (Nat × Deriv)))} {p : List Nat}
    {kd : Nat × Deriv} (hskip : ∀ r ∈ skip, r.2 = .ok none)
    (hleft : PgfParseResult.Left h fuel pr (skip ++ (p, .ok (some kd)) :: rest)) {n : Nat} (hn : skip.length < n) :
    ∃ pr', pr'.completed = pr.completed ∧ PgfParseResult.Left h fuel pr' rest ∧
      pgf_parse_result_loop h fuel n pr = .ok (some kd.2.expr, pr') := by
  obtain ⟨completed, choice⟩ := pr
  induction skip generalizing choice n with
  | nil =>
    rcases hleft with ⟨hnil, -⟩ | ⟨ch, q, rfl, hat, hq⟩
    · simp at hnil
    obtain ⟨p', r, rest', c, he, hleft', hloop⟩ := result_round hne hat hq
    simp only [List.nil_append, List.cons.injEq, Prod.mk.injEq] at he
    obtain ⟨⟨rfl, rfl⟩, rfl⟩ := he
    obtain ⟨n, rfl⟩ := Nat.exists_eq_add_of_lt hn
    refine ⟨⟨completed, c⟩, rfl, hleft', ?_⟩
    rw [hloop]
    rfl
  | cons r₀ skip ih =>
    rcases hleft with ⟨hnil, -⟩ | ⟨ch, q, rfl, hat, hq⟩
    · simp at hnil
    obtain ⟨p', r, rest', c, he, hleft', hloop⟩ := result_round hne hat hq
    simp only [List.cons_append, List.cons.injEq] at he
    obtain ⟨rfl, rfl⟩ := he
    have hr : r = .ok none := hskip _ List.mem_cons_self
    cases n with
    | zero => simp at hn
    | succ n =>
      rw [hloop, hr]
      exact ih (fun r hr => hskip r (List.mem_cons_of_mem _ hr)) (by simpa using hn) c hne hleft'

/-- When the loop returns it has made a run that found a derivation. -/
theorem loop_ok (hne : pr.completed ≠ []) (hleft : PgfParseResult.Left h fuel pr rs) {n : Nat} {o : Option PgfExpr}
    {pr' : PgfParseResult} (hloop : pgf_parse_result_loop h fuel n pr = .ok (o, pr')) :
    ∃ skip p kd rest, rs = skip ++ (p, .ok (some kd)) :: rest ∧ (∀ r ∈ skip, r.2 = .ok none) ∧
      pr'.completed = pr.completed ∧ PgfParseResult.Left h fuel pr' rest := by
  obtain ⟨completed, choice⟩ := pr
  induction n generalizing choice rs with
  | zero => simp [pgf_parse_result_loop] at hloop
  | succ n ih =>
    rcases hleft with ⟨-, rfl⟩ | ⟨ch, q, rfl, hat, hq⟩
    · simp [pgf_parse_result_loop, Exec.deref, Exec.abort] at hloop
    obtain ⟨p, r, rest, c, rfl, hleft', hround⟩ := result_round hne hat hq
    rw [hround] at hloop
    obtain ⟨kd, rfl, hrun⟩ := Exec.bind_ok.1 hloop
    cases kd with
    | none =>
      obtain ⟨skip, p', kd, rest', rfl, hskip, hcomp, hleft''⟩ := ih c hne hleft' hrun
      refine ⟨(p, .ok none) :: skip, p', kd, rest', rfl, fun r hr => ?_, hcomp, hleft''⟩
      rcases List.mem_cons.1 hr with rfl | hr
      · rfl
      · exact hskip r hr
    | some kd =>
      simp only [Except.ok.injEq, Prod.mk.injEq] at hrun
      obtain ⟨-, rfl⟩ := hrun
      exact ⟨[], p, kd, rest, rfl, by simp, rfl, hleft'⟩

/-- Runs that are not cut at the end are enumerated. -/
theorem left_ends (hne : pr.completed ≠ []) (hleft : PgfParseResult.Left h fuel pr rs) (hrs : Uncut rs) (hfuel : rs.length < fuel) :
    EndsAfter (pgf_parse_result_next h fuel) pr ((found rs).map fun r => r.2.expr) := by
  induction hlen : rs.length using Nat.strongRecOn generalizing rs pr with
  | _ n ih =>
    by_cases hnil : rs = []
    · subst hnil
      rcases hleft with ⟨-, hc⟩ | ⟨ch, q, -, -, hq⟩
      · exact .nil (by simp only [pgf_parse_result_next, hc])
      · obtain ⟨p, r, rest, he, -⟩ := pop_after hq
        simp at he
    obtain ⟨skip, p, kd, rest, rfl, hskip, hrest⟩ := hrs.split hnil
    rw [List.length_append, List.length_cons] at hfuel hlen
    obtain ⟨pr', hcomp, hleft', hloop⟩ := loop_found hne hskip hleft (n := fuel) (by omega)
    have hnext : pgf_parse_result_next h fuel pr = .ok (some kd.2.expr, pr') := by
      rcases hleft with ⟨he, -⟩ | ⟨ch, q, hc, -, -⟩
      · simp at he
      · simpa only [pgf_parse_result_next, hc] using hloop
    have htail := ih rest.length (by omega) (hcomp ▸ hne) hleft' hrest (by omega) rfl
    rw [found_append, found_skip hskip, List.nil_append]
    exact .cons hnext htail

/-- An enumeration that ends makes runs that are not cut at the end. -/
theorem ends_uncut (hne : pr.completed ≠ []) (hleft : PgfParseResult.Left h fuel pr rs) {es : List PgfExpr}
    (hends : EndsAfter (pgf_parse_result_next h fuel) pr es) : Uncut rs := by
  induction hlen : rs.length using Nat.strongRecOn generalizing rs pr es with
  | _ n ih =>
    by_cases hnil : rs = []
    · subst hnil
      exact ⟨by simp, by simp⟩
    obtain ⟨pr', hnext, hends'⟩ := hends.call
    have hloop : pgf_parse_result_loop h fuel fuel pr = .ok (es.head?, pr') := by
      rcases hleft with ⟨he, -⟩ | ⟨ch, q, hc, -, -⟩
      · exact absurd he hnil
      · simpa only [pgf_parse_result_next, hc] using hnext
    obtain ⟨skip, p, kd, rest, rfl, hskip, hcomp, hleft'⟩ := loop_ok hne hleft hloop
    rw [List.length_append, List.length_cons] at hlen
    exact .join hskip (ih rest.length (by omega) (hcomp ▸ hne) hleft' hends' rfl)

end Loop

end Libpgf
