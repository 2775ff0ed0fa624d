import Libpgf.Pgf.Chart
/-!
# Items

How the functions that make items relate the new item to the old one.
-/

namespace Libpgf

/-- The symbol that the item remembers is the one at its position. -/
def Located (x : PgfItem) : Prop := pgf_item_base_symbol x.base x.seq_idx = .ok x.curr_sym

theorem pgf_new_item_ok {base : PgfItemBase} {x : PgfItem} (h : pgf_new_item base = .ok x) :
    Located x ∧ x.base = base ∧ x.args = prod_args base.prod ∧ x.seq_idx = 0 ∧ x.tok_idx = 0 ∧ x.alt = 0 := by
  obtain ⟨sym, hs, h⟩ := Exec.bind_ok.1 h
  simp only [Exec.pure_eq, Except.ok.injEq] at h
  subst h
  exact ⟨hs, rfl, rfl, rfl, rfl, rfl⟩

theorem pgf_item_advance_ok {x y : PgfItem} (h : pgf_item_advance x = .ok y) :
    Located y ∧ y.base = x.base ∧ y.args = x.args ∧ y.seq_idx = (x.seq_idx + 1) % 2 ^ 16 ∧ y.tok_idx = x.tok_idx ∧
      y.alt = x.alt := by
  obtain ⟨sym, hs, h⟩ := Exec.bind_ok.1 h
  simp only [Exec.pure_eq, Except.ok.injEq] at h
  subst h
  exact ⟨hs, rfl, rfl, rfl, rfl, rfl⟩

theorem combined_ok {k x : PgfItem} {g : PgfCCatId} (h : combined k g = .ok x) :
    Located x ∧ x.base = k.base ∧ x.seq_idx = (k.seq_idx + 1) % 2 ^ 16 ∧ x.tok_idx = k.tok_idx ∧ x.alt = k.alt ∧
      ∃ d r, k.curr_sym = some (.CAT d r) ∧ d < k.args.length ∧ x.args = k.args.set d ⟨[], g⟩ := by
  unfold combined at h
  split at h
  · rename_i d r hsym
    obtain ⟨_, hd, h⟩ := Exec.bind_ok.1 h
    rw [Exec.require_ok] at hd
    obtain ⟨hl, hb, ha, hs, ht, halt⟩ := pgf_item_advance_ok h
    exact ⟨hl, hb, hs, ht, halt, d, r, hsym, hd, ha⟩
  · simp at h

theorem token_at_some {toks : PgfTokens} {idx : Nat} {tok : PgfToken} : token_at toks idx = .ok (some tok) ↔ toks[idx]? = some tok := by
  unfold token_at
  cases toks[idx]? with
  | some t => simp
  | none =>
    simp only [reduceCtorEq, iff_false]
    split <;> simp

/-- The null string is read from empty forms only. -/
theorem token_at_none {toks : PgfTokens} {idx : Nat} : token_at toks idx = .ok none ↔ toks = [] ∧ idx = 0 := by
  unfold token_at
  cases htok : toks[idx]? with
  | some t =>
    simp only [Except.ok.injEq, reduceCtorEq, false_iff]
    rintro ⟨rfl, -⟩
    cases htok
  | none =>
    simp only
    split
    case isTrue h => exact ⟨fun _ => h, fun _ => rfl⟩
    case isFalse h => exact ⟨fun ha => absurd ha (Exec.abort_ne_ok none), fun ha => absurd ha h⟩

/-- Scanning a token moves an item inside a form, or past its end. -/
theorem scanned_ok {x y : PgfItem} {tok : PgfToken} {alt : Nat} {toks : PgfTokens}
    (h : scanned x tok alt toks = .ok (some y)) :
    toks[x.tok_idx]? = some tok ∧ y.base = x.base ∧ y.args = x.args ∧ y.alt = alt % 2 ^ 8 ∧
      (((x.tok_idx + 1) % 2 ^ 8 = toks.length ∧ Located y ∧ y.seq_idx = (x.seq_idx + 1) % 2 ^ 16 ∧ y.tok_idx = 0) ∨
        ((x.tok_idx + 1) % 2 ^ 8 ≠ toks.length ∧ y.curr_sym = x.curr_sym ∧ y.seq_idx = x.seq_idx ∧
          y.tok_idx = (x.tok_idx + 1) % 2 ^ 8)) := by
  obtain ⟨t, ht, h⟩ := Exec.bind_ok.1 h
  simp only at h
  split at h
  · cases h
  rename_i heq
  rw [ne_eq, not_not] at heq
  refine ⟨token_at_some.1 (heq ▸ ht), ?_⟩
  split at h
  · rename_i hlen
    obtain ⟨z, hz, h⟩ := Exec.bind_ok.1 h
    simp only [Exec.pure_eq, Except.ok.injEq, Option.some.injEq] at h
    subst h
    obtain ⟨hl, hb, ha, hs, ht, halt⟩ := pgf_item_advance_ok hz
    exact ⟨hb, ha, halt, .inl ⟨hlen, hl, hs, ht⟩⟩
  · rename_i hlen
    simp only [Exec.pure_eq, Except.ok.injEq, Option.some.injEq] at h
    subst h
    exact ⟨rfl, rfl, rfl, .inr ⟨hlen, rfl, rfl, rfl⟩⟩

theorem scanned_base {x y : PgfItem} {tok : PgfToken} {alt : Nat} {toks : PgfTokens}
    (h : scanned x tok alt toks = .ok (some y)) : y.base = x.base ∧ y.args = x.args := by
  obtain ⟨-, hb, ha, -⟩ := scanned_ok h
  exact ⟨hb, ha⟩

end Libpgf
