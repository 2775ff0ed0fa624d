import Libpgf.Pgf.Items
/-!
# Derivation trees and what they yield

A tree applies functions and coercions; a `metavar` leaf stands for a category
that has not been looked into. `Derives` says which trees a category has, by
the productions of some grammar or forest, and `Yields` what a tree says at one
of its constituents. A `KP` symbol may say its default form or any of its
alternatives.

A coercion is treated as a production with one argument and a row of one
symbol, so that most facts have one case.
-/

namespace Libpgf

inductive Tree where
  | apply (fun_ : PgfCncFun) (args : List Tree)
  | coerce (tree : Tree)
  | metavar (ccat : PgfCCatId)

/-! ## Yields -/

/-- What a symbol yields, given what the arguments yield. -/
def YieldsSym (sub : Nat → Nat → List PgfToken → Prop) : PgfSymbol → List PgfToken → Prop
  | .CAT d r, w => sub d r w
  | .LIT d r, w => sub d r w
  | .VAR d r, w => sub d r w
  | .KS tokens, w => w = tokens
  | .KP default_form alts, w => w = default_form ∨ ∃ a ∈ alts, w = a.form

inductive YieldsSeq (sub : Nat → Nat → List PgfToken → Prop) : PgfSequence → List PgfToken → Prop
  | nil : YieldsSeq sub [] []
  | cons {sym syms u v} : YieldsSym sub sym u → YieldsSeq sub syms v → YieldsSeq sub (sym :: syms) (u ++ v)

namespace YieldsSeq
variable {sub sub' : Nat → Nat → List PgfToken → Prop} {syms syms' : PgfSequence} {sym : PgfSymbol} {u v w : List PgfToken}

theorem append (h : YieldsSeq sub syms u) (h' : YieldsSeq sub syms' v) : YieldsSeq sub (syms ++ syms') (u ++ v) := by
  induction h with
  | nil => exact h'
  | cons hs _ ih =>
    rw [List.append_assoc]
    exact .cons hs ih

theorem single (h : YieldsSym sub sym u) : YieldsSeq sub [sym] u := by
  have := cons h nil
  rwa [List.append_nil] at this

theorem of_single (h : YieldsSeq sub [sym] w) : YieldsSym sub sym w := by
  cases h with
  | cons hs h =>
    cases h
    rwa [List.append_nil]

theorem mono (hsub : ∀ d r w, sub d r w → sub' d r w) (h : YieldsSeq sub syms w) : YieldsSeq sub' syms w := by
  induction h with
  | nil => exact nil
  | @cons sym syms u v hs _ ih =>
    refine cons ?_ ih
    cases sym with
    | CAT d r => exact hsub d r u hs
    | LIT d r => exact hsub d r u hs
    | VAR d r => exact hsub d r u hs
    | KS tokens => exact hs
    | KP dflt alts => exact hs

/-- One more symbol of a row. -/
theorem take_succ {n : Nat} (h : YieldsSeq sub (syms.take n) u) (hn : syms[n]? = some sym) (hs : YieldsSym sub sym v) :
    YieldsSeq sub (syms.take (n + 1)) (u ++ v) := by
  rw [List.take_add_one, hn]
  exact h.append (single hs)

end YieldsSeq

namespace Tree

/-- The tree says `w` at constituent `r`. -/
def Yields : Tree → Nat → List PgfToken → Prop
  | .apply f args, r, w => ∃ seq, f.lins[r]? = some seq ∧
      YieldsSeq (fun d q u => ∃ h : d < args.length, Yields args[d] q u) seq w
  | .coerce t, r, w => Yields t r w
  | .metavar _, _, _ => False
termination_by t => sizeOf t
decreasing_by
  · have := List.sizeOf_lt_of_mem (List.getElem_mem h)
    simp only [apply.sizeOf_spec]
    omega
  · simp only [coerce.sizeOf_spec]
    omega

end Tree

/-- What the arguments `ts` yield. -/
def argsYield (ts : List Tree) (d q : Nat) (u : List PgfToken) : Prop := ∃ t, ts[d]? = some t ∧ t.Yields q u

/-! ## Productions and their trees -/

namespace PgfProduction

/-- The symbols of constituent `r`. -/
def row : PgfProduction → Nat → Option PgfSequence
  | APPLY f _, r => f.lins[r]?
  | COERCE _, r => some [.CAT 0 r]

/-- The tree that the production makes of the trees of its arguments. -/
def tree : PgfProduction → List Tree → Tree
  | APPLY f _, ts => .apply f ts
  | COERCE c, ts => .coerce (ts.headD (.metavar c))

end PgfProduction

theorem yields_tree {p : PgfProduction} {ts : List Tree} (hn : ts.length = (prod_args p).length) {r : Nat}
    {w : List PgfToken} : (p.tree ts).Yields r w ↔ ∃ seq, p.row r = some seq ∧ YieldsSeq (argsYield ts) seq w := by
  cases p with
  | APPLY f args =>
    simp only [PgfProduction.tree, Tree.Yields, PgfProduction.row]
    refine exists_congr fun seq => and_congr_right fun _ => ⟨fun h => h.mono ?_, fun h => h.mono ?_⟩
    · rintro d q u ⟨hd, hy⟩
      exact ⟨_, List.getElem?_eq_getElem hd, hy⟩
    · rintro d q u ⟨t, ht, hy⟩
      obtain ⟨hd, rfl⟩ := List.getElem?_eq_some_iff.1 ht
      exact ⟨hd, hy⟩
  | COERCE c =>
    obtain ⟨t, rfl⟩ := List.length_eq_one_iff.1 (by simpa [prod_args] using hn)
    simp only [PgfProduction.tree, Tree.Yields, PgfProduction.row, Option.some.injEq, exists_eq_left', List.headD_cons]
    constructor
    · intro h
      exact .single ⟨t, rfl, h⟩
    · intro h
      obtain ⟨t', ht, hy⟩ := h.of_single
      cases ht
      exact hy

theorem mem_tree_lt {p : PgfProduction} {ts : List Tree} (hn : ts.length = (prod_args p).length) {t : Tree} (ht : t ∈ ts) :
    sizeOf t < sizeOf (p.tree ts) := by
  cases p with
  | APPLY f args =>
    have := List.sizeOf_lt_of_mem ht
    simp only [PgfProduction.tree, Tree.apply.sizeOf_spec]
    omega
  | COERCE c =>
    obtain ⟨t', rfl⟩ := List.length_eq_one_iff.1 (by simpa [prod_args] using hn)
    rw [List.mem_singleton] at ht
    subst ht
    simp [PgfProduction.tree]

/-- The trees of a category, by the productions `prod`. A category in `leaf`
may be left as it is. -/
inductive Derives (prod : PgfCCatId → PgfProduction → Prop) (leaf : PgfCCatId → Prop) : PgfCCatId → Tree → Prop
  | node {c p ts} : prod c p → ts.length = (prod_args p).length →
      (∀ (d : Nat) (parg : PgfPArg) (t : Tree), (prod_args p)[d]? = some parg → ts[d]? = some t →
        Derives prod leaf parg.ccat t) → Derives prod leaf c (p.tree ts)
  | leaf {c} : leaf c → Derives prod leaf c (.metavar c)

/-- The trees without `metavar`. -/
abbrev TreeOf (prod : PgfCCatId → PgfProduction → Prop) : PgfCCatId → Tree → Prop := Derives prod fun _ => False

/-- The tree `t'` has a tree of its category in the place of every `metavar` of `t`. -/
inductive Fills (prod : PgfCCatId → PgfProduction → Prop) : Tree → Tree → Prop
  | apply {f ts ts'} : ts'.length = ts.length →
      (∀ (d : Nat) (t t' : Tree), ts[d]? = some t → ts'[d]? = some t' → Fills prod t t') →
      Fills prod (.apply f ts) (.apply f ts')
  | coerce {t t'} : Fills prod t t' → Fills prod (.coerce t) (.coerce t')
  | metavar {c t} : TreeOf prod c t → Fills prod (.metavar c) t

theorem Fills.tree {prod : PgfCCatId → PgfProduction → Prop} {p : PgfProduction} {ts : List Tree} {t' : Tree}
    (hn : ts.length = (prod_args p).length) (h : Fills prod (p.tree ts) t') : ∃ ts', t' = p.tree ts' ∧
      ts'.length = ts.length ∧ ∀ (d : Nat) (t t' : Tree), ts[d]? = some t → ts'[d]? = some t' → Fills prod t t' := by
  cases p with
  | APPLY f args =>
    cases h with
    | apply hn' h' => exact ⟨_, rfl, hn', h'⟩
  | COERCE c =>
    obtain ⟨t, rfl⟩ := List.length_eq_one_iff.1 (by simpa [prod_args] using hn)
    cases h with
    | coerce h' =>
      refine ⟨[_], rfl, rfl, fun d t₁ t₁' hd hd' => ?_⟩
      rw [List.getElem?_singleton] at hd hd'
      split at hd
      · rename_i h0
        rw [if_pos h0, Option.some.injEq] at hd'
        rw [Option.some.injEq] at hd
        exact hd ▸ hd' ▸ h'
      · cases hd

theorem Derives.mono {prod prod' : PgfCCatId → PgfProduction → Prop} {leaf : PgfCCatId → Prop}
    (hp : ∀ c p, prod c p → prod' c p) {c : PgfCCatId} {t : Tree} (h : Derives prod leaf c t) : Derives prod' leaf c t := by
  induction h with
  | node hprod hn _ ih => exact .node (hp _ _ hprod) hn ih
  | leaf hc => exact .leaf hc

/-- A tree that is filled in is a tree of its category. -/
theorem Derives.fill {prod grammar : PgfCCatId → PgfProduction → Prop} {leaf : PgfCCatId → Prop}
    (hsub : ∀ c p, grammar c p → prod c p) {c : PgfCCatId} {t t' : Tree} (h : Derives prod leaf c t)
    (hf : Fills grammar t t') : TreeOf prod c t' := by
  induction h generalizing t' with
  | node hp hn _ ih =>
    obtain ⟨ts', rfl, hlen, hts⟩ := hf.tree hn
    refine .node hp (hlen.trans hn) fun d parg t' hd ht' => ?_
    have hlt := (List.getElem?_eq_some_iff.1 ht').1
    have ht := List.getElem?_eq_getElem (hlen ▸ hlt)
    exact ih d parg _ hd ht (hts d _ t' ht ht')
  | leaf hc =>
    cases hf with
    | metavar ht => exact ht.mono hsub

/-! ## Items and rows -/

theorem pgf_item_base_symbol_ok {base : PgfItemBase} {i : Nat} {sym : Option PgfSymbol} :
    pgf_item_base_symbol base i = .ok sym ↔
      ∃ seq, base.prod.row base.lin_idx = some seq ∧ i ≤ seq.length ∧ seq[i]? = sym := by
  unfold pgf_item_base_symbol
  cases hp : base.prod with
  | APPLY f args =>
    simp only [PgfProduction.row]
    constructor
    · intro h
      obtain ⟨seq, hs, h⟩ := Exec.bind_ok.1 h
      obtain ⟨_, hi, h⟩ := Exec.bind_ok.1 h
      simp only [Exec.deref_ok, Exec.require_ok, Exec.pure_eq, Except.ok.injEq] at hs hi h
      exact ⟨seq, hs, hi, h⟩
    · rintro ⟨seq, hs, hi, h⟩
      simp [hs, hi, h, Exec.deref, Exec.require]
  | COERCE c =>
    simp only [PgfProduction.row, Option.some.injEq, exists_eq_left', List.length_singleton]
    constructor
    · intro h
      obtain ⟨_, hi, h⟩ := Exec.bind_ok.1 h
      simp only [Exec.require_ok, Exec.pure_eq, Except.ok.injEq] at hi h
      refine ⟨hi, ?_⟩
      rw [← h, List.getElem?_singleton]
      rcases Nat.le_one_iff_eq_zero_or_eq_one.1 hi with rfl | rfl <;> rfl
    · rintro ⟨hi, h⟩
      rw [← h, List.getElem?_singleton]
      rcases Nat.le_one_iff_eq_zero_or_eq_one.1 hi with rfl | rfl <;> rfl

theorem located_iff {x : PgfItem} : Located x ↔
    ∃ seq, x.base.prod.row x.base.lin_idx = some seq ∧ x.seq_idx ≤ seq.length ∧ seq[x.seq_idx]? = x.curr_sym :=
  pgf_item_base_symbol_ok

theorem complete_iff {x : PgfItem} : Complete x ↔
    ∃ seq, x.base.prod.row x.base.lin_idx = some seq ∧ x.seq_idx = seq.length := by
  unfold Complete PgfProduction.row
  cases x.base.prod <;> simp

theorem completed_prod_row {x : PgfItem} {p : PgfProduction} (h : completed_prod x = .ok p) (r : Nat) :
    p.row r = x.base.prod.row r := by
  unfold completed_prod at h
  split at h
  · rename_i hp
    cases h
    rw [hp]
    rfl
  · rename_i hp
    obtain ⟨a, -, h⟩ := Exec.bind_ok.1 h
    obtain ⟨_, -, h⟩ := Exec.bind_ok.1 h
    cases h
    rw [hp]
    rfl

end Libpgf
