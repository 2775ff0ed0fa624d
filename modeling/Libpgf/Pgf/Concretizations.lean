import Libpgf.Lib.Enum
import Libpgf.Pgf.Exploration
/-!
# The enumeration of concrete trees

`pgf_lzn_next` passes over the runs that fail and makes the first other run
twice: once for its category, and once for its tree. When all runs that are left
fail it returns nothing, but stays where the runs begin.
-/

namespace Libpgf

open GuChoice

/-- The runs of the search tree that `pgf_lzn_next` has not made yet. -/
def PgfLzn.Left (expr : PgfExpr) (s : Search (Exec (Option (PgfCCatId × Inferred Nat)))) (lzn : PgfLzn)
    (rs : List (List Nat × Exec (Option (PgfCCatId × Inferred Nat)))) : Prop :=
  (lzn.expr = none ∧ rs = []) ∨ (lzn.expr = some expr ∧ ∃ q, lzn.ch.At [] q ∧ s.After q rs)

section Enumerate
variable {lzr : PgfLzr} {fuel : Nat} {expr : PgfExpr} {s : Search (Exec (Option (PgfCCatId × Inferred Nat)))}
  {rs : List (List Nat × Exec (Option (PgfCCatId × Inferred Nat)))} {lzn : PgfLzn}

theorem PgfLzn.Left.start : PgfLzn.Left expr s (pgf_lzr_concretize expr) s.runs := .inr ⟨rfl, [], .new, .start⟩

/-! ## One call -/

theorem next_end {lzn : PgfLzn} (h : lzn.expr = none) : pgf_lzn_next lzr fuel lzn = .ok (none, lzn) := by
  rw [pgf_lzn_next, h]

theorem next_fail (hs : Explores treeOf s (pgf_lzn_infer lzr fuel expr)) (hfuel : 0 < fuel) (hexpr : lzn.expr = some expr) {q : List Nat}
    (hat : lzn.ch.At [] q) (hq : s.After q rs) (hfirst : first rs = none) :
    pgf_lzn_next lzr fuel lzn = .ok (none, pgf_lzr_concretize expr) := by
  obtain ⟨n, rfl⟩ : ∃ n, fuel = n + 1 := ⟨fuel - 1, by omega⟩
  have hfind := hs.find hat hq
  rw [hfirst] at hfind
  obtain ⟨ch, hinfer, hch⟩ := hfind
  obtain ⟨ch₁, hreset, hat₁⟩ := GuChoice.At.reset (show ch.At ([] ++ []) [] from hch)
  obtain ⟨ch₂, hadv, hpath, hidx⟩ := hat₁.advance
  rw [List.length_nil] at hreset
  have hnew : ch₂ = gu_new_choice := GuChoice.At.eq ⟨hpath, hidx⟩ .new
  simp only [pgf_lzn_next, hexpr, hat.mark, Exec.ok_bind, lzn_next_loop, hinfer, hreset, hadv, popChoices, List.append_nil,
    List.length_nil, Bool.false_eq_true, if_false, Exec.pure_eq, hnew, pgf_lzr_concretize]

theorem next_stop (hs : Explores treeOf s (pgf_lzn_infer lzr fuel expr)) (hfuel : 0 < fuel) (hexpr : lzn.expr = some expr) {q : List Nat}
    (hat : lzn.ch.At [] q) (hq : s.After q rs) {p : List Nat} {e : Halt} (hfirst : first rs = some (p, .error e)) :
    pgf_lzn_next lzr fuel lzn = .error e := by
  obtain ⟨n, rfl⟩ : ∃ n, fuel = n + 1 := ⟨fuel - 1, by omega⟩
  have hfind := hs.find hat hq
  rw [hfirst] at hfind
  simp only [pgf_lzn_next, hexpr, hat.mark, Exec.ok_bind, lzn_next_loop, show pgf_lzn_infer lzr (n + 1) expr lzn.ch = .error e from hfind,
    Exec.error_bind]

theorem next_found (hs : Explores treeOf s (pgf_lzn_infer lzr fuel expr)) (hfuel : 0 < fuel) (hexpr : lzn.expr = some expr) {q : List Nat}
    (hat : lzn.ch.At [] q) {skip rest : List (List Nat × Exec (Option (PgfCCatId × Inferred Nat)))} {p : List Nat}
    {a : PgfCCatId × Inferred Nat} (hskip : ∀ r ∈ skip, r.2 = .ok none) (hq : s.After q (skip ++ (p, .ok (some a)) :: rest)) :
    ∃ lzn', pgf_lzn_next lzr fuel lzn = .ok (some a.2.tree, lzn') ∧ lzn'.Left expr s rest := by
  obtain ⟨n, rfl⟩ : ∃ n, fuel = n + 1 := ⟨fuel - 1, by omega⟩
  have hfind := hs.find hat hq
  rw [first_append, first_skip hskip] at hfind
  obtain ⟨ch, hinfer, hch⟩ := hfind
  obtain ⟨ch₁, hreset, hat₁⟩ := GuChoice.At.reset (show ch.At ([] ++ p) [] from hch)
  have hp := after_run hq
  obtain ⟨ch₂, hinfer₂, hat₂⟩ := hs.replay (hp.suffix.mem List.mem_cons_self) hat₁
  obtain ⟨ch₃, hreset₃, hat₃⟩ := GuChoice.At.reset (show ch₂.At ([] ++ p) [] from hat₂)
  rw [List.append_nil] at hat₃
  rw [List.length_nil] at hreset hreset₃
  obtain ⟨ch₄, hadv, hpath, hidx⟩ := hat₃.advance
  obtain ⟨p', r', rest', he, -, hpop⟩ := pop_after hp
  simp only [List.cons.injEq, Prod.mk.injEq] at he
  obtain ⟨⟨rfl, rfl⟩, rfl⟩ := he
  have hnext : pgf_lzn_next lzr (n + 1) lzn = .ok (some a.2.tree,
      ⟨ch₄, if (popChoices p.length ([] ++ p)).1 then some expr else none⟩) := by
    simp only [pgf_lzn_next, hexpr, hat.mark, List.length_nil, Exec.ok_bind, lzn_next_loop, hinfer, hreset, treeOf, Exec.pure_eq, hinfer₂,
      Option.map_some, Exec.require, if_true, hreset₃, hadv]
  refine ⟨_, hnext, ?_⟩
  rcases hpop with ⟨rfl, hpop⟩ | ⟨q', hq', hpop⟩
  · rw [hpop]
    exact .inl ⟨rfl, rfl⟩
  · rw [hpop] at hpath ⊢
    exact .inr ⟨rfl, q', ⟨hpath, hidx⟩, hq'⟩

/-! ## All calls -/

/-- Runs that all end, and either all fail or have a value at the end. -/
def Ending {α : Type} (rs : List (List Nat × Exec (Option α))) : Prop := (∀ r ∈ rs, r.2 = .ok none) ∨ Uncut rs

/-- The trees of the runs come before the first time that there is none. -/
theorem left_yields (hs : Explores treeOf s (pgf_lzn_infer lzr fuel expr)) (hfuel : 0 < fuel) (hleft : lzn.Left expr s rs)
    (hok : ∀ r ∈ rs, ∃ o, r.2 = .ok o) : Yields (pgf_lzn_next lzr fuel) lzn ((found rs).map fun a => a.2.tree) := by
  induction hlen : rs.length using Nat.strongRecOn generalizing rs lzn with
  | _ n ih =>
    rcases hleft with ⟨hexpr, rfl⟩ | ⟨hexpr, q, hat, hq⟩
    · exact .nil (next_end hexpr)
    cases hfirst : first rs with
    | none =>
      rw [found_skip (first_none hfirst)]
      exact .nil (next_fail hs hfuel hexpr hat hq hfirst)
    | some r =>
      obtain ⟨p, r⟩ := r
      obtain ⟨skip, rest, rfl, hskip⟩ := first_some hfirst
      obtain ⟨o, ho⟩ := hok (p, r.map some) (by simp)
      obtain ⟨a, rfl⟩ : ∃ a, r = .ok a := by
        cases r with
        | error e => cases ho
        | ok a => exact ⟨a, rfl⟩
      obtain ⟨lzn', hnext, hleft⟩ := next_found hs hfuel hexpr hat hskip hq
      rw [List.length_append, List.length_cons] at hlen
      have htail := ih rest.length (by omega) hleft (fun r hr => hok r (by simp [hr])) rfl
      rw [found_append, found_skip hskip, List.nil_append]
      exact .cons hnext htail

theorem left_uncut (hs : Explores treeOf s (pgf_lzn_infer lzr fuel expr)) (hfuel : 0 < fuel) (hleft : lzn.Left expr s rs)
    (hrs : rs = [] ∨ Uncut rs) : EndsAfter (pgf_lzn_next lzr fuel) lzn ((found rs).map fun a => a.2.tree) := by
  induction hlen : rs.length using Nat.strongRecOn generalizing rs lzn with
  | _ n ih =>
    rcases hleft with ⟨hexpr, rfl⟩ | ⟨hexpr, q, hat, hq⟩
    · exact .nil (next_end hexpr)
    obtain ⟨p₀, r₀, rest₀, hcons, -, -⟩ := pop_after hq
    obtain ⟨skip, p, a, rest, rfl, hskip, hrest⟩ := (hrs.resolve_left (by simp [hcons])).split (by simp [hcons])
    obtain ⟨lzn', hnext, hleft⟩ := next_found hs hfuel hexpr hat hskip hq
    rw [List.length_append, List.length_cons] at hlen
    have htail := ih rest.length (by omega) hleft (.inr hrest) rfl
    rw [found_append, found_skip hskip, List.nil_append]
    exact .cons hnext htail

/-- If no call after the first of the trees starts again, the runs that are left have a tree at the end. -/
theorem uncut_of_ends (hs : Explores treeOf s (pgf_lzn_infer lzr fuel expr)) (hfuel : 0 < fuel) (hsome : first s.runs ≠ none)
    (hleft : lzn.Left expr s rs) {ts : List PgfCncTree} (hends : EndsAfter (pgf_lzn_next lzr fuel) lzn ts) : Uncut rs := by
  induction hlen : rs.length using Nat.strongRecOn generalizing rs lzn ts with
  | _ n ih =>
    rcases hleft with ⟨-, rfl⟩ | ⟨hexpr, q, hat, hq⟩
    · exact ⟨by simp, by simp⟩
    obtain ⟨lzn₁, hnext₁, hends₁⟩ := hends.call
    cases hfirst : first rs with
    | none =>
      -- the next call begins anew
      rw [next_fail hs hfuel hexpr hat hq hfirst] at hnext₁
      simp only [Except.ok.injEq, Prod.mk.injEq] at hnext₁
      obtain ⟨hhead, rfl⟩ := hnext₁
      obtain rfl : ts = [] := List.head?_eq_none_iff.1 hhead.symm
      obtain ⟨lzn₂, hnext₂, -⟩ := hends₁.call
      obtain ⟨⟨p, r⟩, hfirst⟩ := Option.ne_none_iff_exists'.1 hsome
      rcases r with e | a
      · rw [next_stop hs hfuel rfl .new .start hfirst] at hnext₂
        cases hnext₂
      · obtain ⟨skip, rest, hruns, hskip⟩ := first_some hfirst
        have hstart := Search.After.start (s := s)
        rw [hruns] at hstart
        obtain ⟨lzn₃, hnext₃, -⟩ := next_found hs hfuel (show (pgf_lzr_concretize expr).expr = _ from rfl) .new hskip hstart
        rw [hnext₃] at hnext₂
        simp at hnext₂
    | some r =>
      obtain ⟨p, e | a⟩ := r
      · rw [next_stop hs hfuel hexpr hat hq hfirst] at hnext₁
        cases hnext₁
      · obtain ⟨skip, rest, rfl, hskip⟩ := first_some hfirst
        obtain ⟨lzn', hnext, hleft⟩ := next_found hs hfuel hexpr hat hskip hq
        rw [hnext] at hnext₁
        simp only [Except.ok.injEq, Prod.mk.injEq] at hnext₁
        obtain ⟨-, rfl⟩ := hnext₁
        rw [List.length_append, List.length_cons] at hlen
        exact .join hskip (ih rest.length (by omega) hleft hends₁ rfl)

theorem concretize_ends (hs : Explores treeOf s (pgf_lzn_infer lzr fuel expr)) (hfuel : 0 < fuel) (hending : Ending s.runs) :
    EndsAfter (pgf_lzn_next lzr fuel) (pgf_lzr_concretize expr) ((found s.runs).map fun a => a.2.tree) := by
  rcases hending with hfail | huncut
  · rw [found_skip hfail]
    exact .nil (next_fail hs hfuel rfl .new .start (first_skip hfail))
  · exact left_uncut hs hfuel .start (.inr huncut)

theorem concretize_ending (hs : Explores treeOf s (pgf_lzn_infer lzr fuel expr)) (hfuel : 0 < fuel) {ts : List PgfCncTree}
    (hends : EndsAfter (pgf_lzn_next lzr fuel) (pgf_lzr_concretize expr) ts) : Ending s.runs := by
  by_cases hfirst : first s.runs = none
  · exact .inl (first_none hfirst)
  · exact .inr (uncut_of_ends hs hfuel hfirst .start hends)

end Enumerate

end Libpgf
