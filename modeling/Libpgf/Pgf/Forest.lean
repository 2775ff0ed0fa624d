import Libpgf.Pgf.Limits
import Libpgf.Pgf.Result
/-!
# Parse forests

The productions of the completed categories form a forest. A derivation chooses
one production at each category; a run of `pgf_cat_to_expr` walks through a
derivation, and gives up when it comes upon a category that it has seen before.
-/

namespace Libpgf

variable {P : PgfParser}

/-! ## Derivations -/

/-- At each category the number of the production taken, and the production. -/
inductive Deriv where
  | use (cat : PgfCCatId) (n : Nat) (prod : PgfProduction) (args : List Deriv)
  | metavar (cat : PgfCCatId)

/-- The expression that a production makes of those of its arguments. -/
def PgfProduction.expr : PgfProduction → List PgfExpr → PgfExpr
  | APPLY f _, es => es.foldl .APP (.FUN f.fun_)
  | COERCE _, es => es.headD (.META 0)

namespace Deriv

mutual

def expr : Deriv → PgfExpr
  | use _ _ prod args => prod.expr (exprs args)
  | metavar _ => .META 0

def exprs : List Deriv → List PgfExpr
  | [] => []
  | d :: ds => d.expr :: exprs ds

end

mutual

def tree : Deriv → Tree
  | use _ _ prod args => prod.tree (trees args)
  | metavar cat => .metavar cat

def trees : List Deriv → List Tree
  | [] => []
  | d :: ds => d.tree :: trees ds

end

mutual

/-- The categories met, in the order in which they are. -/
def cats : Deriv → List PgfCCatId
  | use cat _ _ args => cat :: catss args
  | metavar cat => [cat]

def catss : List Deriv → List PgfCCatId
  | [] => []
  | d :: ds => d.cats ++ catss ds

end

theorem exprs_eq (ds : List Deriv) : exprs ds = ds.map expr := by
  induction ds with
  | nil => rfl
  | cons d ds ih => rw [exprs, ih, List.map_cons]

theorem trees_eq (ds : List Deriv) : trees ds = ds.map tree := by
  induction ds with
  | nil => rfl
  | cons d ds ih => rw [trees, ih, List.map_cons]

end Deriv

/-- The derivations from a category. A category whose productions are no buffer
was never refined. -/
inductive Heap.Derivation (h : Heap P) : PgfCCatId → Deriv → Prop
  | use {c ccat ps n p ds} : h.ccats[c]? = some ccat → ccat.prods = .buf ps → ps[n]? = some p →
      ds.length = (prod_args p).length →
      (∀ (i : Nat) (parg : PgfPArg) (d : Deriv), (prod_args p)[i]? = some parg → ds[i]? = some d → Derivation h parg.ccat d) →
      Derivation h c (.use c n p ds)
  | metavar {c ccat} : h.ccats[c]? = some ccat → ccat.prods.isBuf = false → Derivation h c (.metavar c)

/-- A category that was never refined. -/
def Heap.Unrefined (h : Heap P) (c : PgfCCatId) : Prop := ∃ ccat, h.ccats[c]? = some ccat ∧ ccat.prods.isBuf = false

theorem Heap.Derivation.tree {h : Heap P} {c : PgfCCatId} {d : Deriv} (hd : h.Derivation c d) :
    Derives h.Prod h.Unrefined c d.tree := by
  induction hd with
  | @use c ccat ps n p ds hc hps hn hlen _ ih =>
    rw [Deriv.tree, Deriv.trees_eq]
    refine .node ⟨ccat, hc, ?_⟩ (by rw [List.length_map]; exact hlen) fun i parg t hi ht => ?_
    · rw [hps]
      exact List.mem_of_getElem? hn
    · rw [List.getElem?_map, Option.map_eq_some_iff] at ht
      obtain ⟨d, hd, rfl⟩ := ht
      exact ih i parg d hi hd
  | metavar hc hb => exact .leaf ⟨_, hc, hb⟩

/-! ## Walks -/

open GuChoice

section Rec
variable (walk : PgfCCatId → List PgfCCatId → Search (Exec (Option Deriv × List PgfCCatId)))

def walkArgs : List PgfPArg → List PgfCCatId → Search (Exec (Option (List Deriv) × List PgfCCatId))
  | [], seen => .done (.ok (some [], seen))
  | parg :: args, seen =>
    if parg.hypos = [] then
      andThen (walk parg.ccat seen) fun
        | (none, seen) => .done (.ok (none, seen))
        | (some d, seen) => andThen (walkArgs args seen) fun r => .done (.ok (r.1.map (d :: ·), r.2))
    else .done Exec.abort

end Rec

/-- All ways through the forest from a category, where those in `seen` have been met. -/
def walk (h : Heap P) : Nat → PgfCCatId → List PgfCCatId → Search (Exec (Option Deriv × List PgfCCatId))
  | 0, _, _ => .done (.error .fuel)
  | fuel + 1, cat, seen =>
    if cat ∈ seen then .done (.ok (none, seen))
    else
      match h.ccats[cat]? with
      | none => .done Exec.abort
      | some ccat =>
        match ccat.prods with
        | .null => .done Exec.abort
        | .seq _ => .done (.ok (some (.metavar cat), cat :: seen))
        | .buf ps => andThen (choice ps.length) fun
          | none => .done (.ok (none, cat :: seen))
          | some i =>
            match ps[i]? with
            | none => .done Exec.abort
            | some prod => andThen (walkArgs (walk h fuel) (prod_args prod) (cat :: seen)) fun r =>
              .done (.ok (r.1.map (.use cat i prod), r.2))

/-! ## The code walks through the forest -/

theorem apply_args_run {f : PgfCCatId → GuChoice → List PgfCCatId → Exec ((Option PgfExpr × List PgfCCatId) × GuChoice)}
    {w : PgfCCatId → List PgfCCatId → Search (Exec (Option Deriv × List PgfCCatId))}
    (hf : ∀ c ch seen, f c ch seen = run (w c seen) ch >>= fun r => .ok ((r.1.1.map Deriv.expr, r.1.2), r.2))
    (args : List PgfPArg) (expr : PgfExpr) (ch : GuChoice) (seen : List PgfCCatId) :
    apply_args f args expr ch seen = run (walkArgs w args seen) ch >>= fun r =>
      .ok ((r.1.1.map fun ds => (ds.map Deriv.expr).foldl .APP expr, r.1.2), r.2) := by
  induction args generalizing expr ch seen with
  | nil => rfl
  | cons parg args ih =>
    by_cases hh : parg.hypos = []
    · simp only [apply_args, walkArgs, if_pos hh, Exec.require, Exec.ok_bind, hf, run_andThen, bind_assoc]
      refine bind_congr fun r => ?_
      rcases r with ⟨⟨_ | d, seen'⟩, ch'⟩
      · rfl
      · simp only [Option.map_some, ih, run_andThen, bind_assoc]
        refine bind_congr fun r => ?_
        rcases r with ⟨⟨_ | ds, seen''⟩, ch''⟩ <;> rfl
    · simp only [apply_args, walkArgs, if_neg hh, Exec.require]
      rfl

theorem cat_to_expr_run (h : Heap P) (fuel : Nat) (c : PgfCCatId) (ch : GuChoice) (seen : List PgfCCatId) :
    pgf_cat_to_expr h fuel c ch seen =
      run (walk h fuel c seen) ch >>= fun r => .ok ((r.1.1.map Deriv.expr, r.1.2), r.2) := by
  induction fuel generalizing c ch seen with
  | zero => rfl
  | succ fuel ih =>
    unfold pgf_cat_to_expr walk
    by_cases hc : c ∈ seen
    · simp only [if_pos hc]
      rfl
    simp only [if_neg hc]
    cases hcc : h.ccats[c]? with
    | none => rfl
    | some ccat =>
      simp only [Exec.deref_some, Exec.ok_bind]
      cases hp : ccat.prods with
      | null => rfl
      | seq ps => rfl
      | buf ps =>
        simp only [gu_seq_is_buf, Exec.ok_bind, Bool.not_true, Bool.false_eq_true, if_false, PgfProductions.elems, run_andThen,
          run_choice, bind_assoc]
        refine bind_congr fun r => ?_
        rcases r with ⟨_ | i, ch'⟩
        · rfl
        cases hi : ps[i]? with
        | none => simp only [hi]; rfl
        | some prod =>
          simp only [hi, Exec.deref_some, Exec.ok_bind, run_andThen, bind_assoc]
          cases prod with
          | APPLY f args =>
            simp only [pgf_production_to_expr, prod_args, apply_args_run ih]
            refine bind_congr fun r => ?_
            rcases r with ⟨⟨_ | ds, seen'⟩, ch''⟩
            · rfl
            · simp [run, Except.map, Deriv.expr, PgfProduction.expr, Deriv.exprs_eq]
          | COERCE coerce =>
            simp only [pgf_production_to_expr, prod_args, ih, walkArgs, if_true, run_andThen, bind_assoc]
            refine bind_congr fun r => ?_
            rcases r with ⟨⟨_ | d, seen'⟩, ch''⟩
            · rfl
            · simp [run, Except.map, run_andThen, Deriv.expr, PgfProduction.expr, Deriv.exprs]

/-! ## Walks make derivations -/

/-- The derivations of the arguments in turn. -/
def Heap.Derivations (h : Heap P) (args : List PgfPArg) (ds : List Deriv) : Prop :=
  ds.length = args.length ∧ ∀ (i : Nat) (parg : PgfPArg) (d : Deriv), args[i]? = some parg → ds[i]? = some d →
    h.Derivation parg.ccat d

theorem Heap.Derivations.nil (h : Heap P) : h.Derivations [] [] := ⟨rfl, fun i parg d ha => by simp at ha⟩

theorem Heap.Derivations.cons {h : Heap P} {parg : PgfPArg} {args : List PgfPArg} {d : Deriv} {ds : List Deriv}
    (hd : h.Derivation parg.ccat d) (hds : h.Derivations args ds) : h.Derivations (parg :: args) (d :: ds) := by
  refine ⟨congrArg Nat.succ hds.1, fun i q e hq he => ?_⟩
  cases i with
  | zero =>
    cases hq
    cases he
    exact hd
  | succ i => exact hds.2 i q e hq he

/-- The categories are different from each other and from those in `seen`. -/
def Fresh (seen cats : List PgfCCatId) : Prop := cats.Nodup ∧ ∀ c ∈ cats, c ∉ seen

theorem Fresh.append {seen cs cs' : List PgfCCatId} (h : Fresh seen cs) (h' : Fresh (cs.reverse ++ seen) cs') :
    Fresh seen (cs ++ cs') := by
  refine ⟨List.nodup_append.2 ⟨h.1, h'.1, fun a ha b hb he => ?_⟩, fun c hc => ?_⟩
  · exact h'.2 b hb (List.mem_append_left _ (List.mem_reverse.2 (he ▸ ha)))
  · rcases List.mem_append.1 hc with hc | hc
    · exact h.2 c hc
    · exact fun hs => h'.2 c hc (List.mem_append_right _ hs)

theorem Fresh.of_append {seen cs cs' : List PgfCCatId} (h : Fresh seen (cs ++ cs')) :
    Fresh seen cs ∧ Fresh (cs.reverse ++ seen) cs' := by
  obtain ⟨hn, hs⟩ := h
  obtain ⟨h₁, h₂, h₃⟩ := List.nodup_append.1 hn
  refine ⟨⟨h₁, fun c hc => hs c (List.mem_append_left _ hc)⟩, h₂, fun c hc hm => ?_⟩
  rcases List.mem_append.1 hm with hm | hm
  · exact h₃ c (List.mem_reverse.1 hm) c hc rfl
  · exact hs c (List.mem_append_right _ hc) hm

theorem walkArgs_sound {h : Heap P} {w : PgfCCatId → List PgfCCatId → Search (Exec (Option Deriv × List PgfCCatId))}
    (hw : ∀ {c seen d seen'}, .ok (some d, seen') ∈ (w c seen).leaves →
      h.Derivation c d ∧ Fresh seen d.cats ∧ seen' = d.cats.reverse ++ seen)
    {args : List PgfPArg} {seen seen' : List PgfCCatId} {ds : List Deriv}
    (hds : .ok (some ds, seen') ∈ (walkArgs w args seen).leaves) :
    h.Derivations args ds ∧ Fresh seen (Deriv.catss ds) ∧ seen' = (Deriv.catss ds).reverse ++ seen := by
  induction args generalizing seen ds with
  | nil =>
    simp only [walkArgs, Search.leaves_done, List.mem_singleton, Except.ok.injEq, Prod.mk.injEq, Option.some.injEq] at hds
    obtain ⟨rfl, rfl⟩ := hds
    exact ⟨.nil h, by simp [Fresh, Deriv.catss], rfl⟩
  | cons parg args ih =>
    unfold walkArgs at hds
    split at hds
    · obtain ⟨⟨_ | d, seen₁⟩, hd, hds⟩ := ok_mem_andThen.1 hds
      · simp at hds
      · obtain ⟨⟨_ | ds', seen₂⟩, hds', hr⟩ := ok_mem_andThen.1 hds
        · simp at hr
        · simp only [Option.map_some, Search.leaves_done, List.mem_singleton, Except.ok.injEq, Prod.mk.injEq,
            Option.some.injEq] at hr
          obtain ⟨rfl, rfl⟩ := hr
          obtain ⟨hder, hfresh, rfl⟩ := hw hd
          obtain ⟨hders, hfresh', rfl⟩ := ih hds'
          exact ⟨.cons hder hders, hfresh.append hfresh', by simp [Deriv.catss]⟩
    · simp [Exec.abort] at hds

theorem walk_sound {h : Heap P} {fuel : Nat} {c : PgfCCatId} {seen seen' : List PgfCCatId} {d : Deriv}
    (hd : .ok (some d, seen') ∈ (walk h fuel c seen).leaves) :
    h.Derivation c d ∧ Fresh seen d.cats ∧ seen' = d.cats.reverse ++ seen := by
  induction fuel generalizing c seen seen' d with
  | zero => simp [walk] at hd
  | succ fuel ih =>
    unfold walk at hd
    split at hd
    · simp at hd
    rename_i hc
    split at hd
    · simp [Exec.abort] at hd
    rename_i ccat hcc
    have hfresh : Fresh seen [c] := by simp [Fresh, hc]
    split at hd
    · simp [Exec.abort] at hd
    · rename_i ps hps
      simp only [Search.leaves_done, List.mem_singleton, Except.ok.injEq, Prod.mk.injEq, Option.some.injEq] at hd
      obtain ⟨rfl, rfl⟩ := hd
      exact ⟨.metavar hcc (by simp [hps, PgfProductions.isBuf]), hfresh, rfl⟩
    · rename_i ps hps
      obtain ⟨_ | i, -, hd⟩ := ok_mem_andThen.1 hd
      · simp at hd
      simp only at hd
      split at hd
      · simp [Exec.abort] at hd
      rename_i prod hprod
      obtain ⟨⟨_ | ds, seen₁⟩, hds, hd⟩ := ok_mem_andThen.1 hd
      · simp at hd
      simp only [Option.map_some, Search.leaves_done, List.mem_singleton, Except.ok.injEq, Prod.mk.injEq,
        Option.some.injEq] at hd
      obtain ⟨rfl, rfl⟩ := hd
      obtain ⟨hders, hfresh', rfl⟩ := walkArgs_sound ih hds
      exact ⟨.use hcc hps hprod hders.1 hders.2, hfresh.append hfresh', by simp [Deriv.cats]⟩

end Libpgf
