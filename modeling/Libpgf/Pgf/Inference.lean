import Libpgf.Gu.Backtrack
import Libpgf.Pgf.Index
import Libpgf.Pgf.Spine
/-!
# The search tree of an expression

Concrete trees are inferred from the leaves up. The search tree makes one choice
for each production and each coercion, and fails where no production fits.
-/

namespace Libpgf

open GuChoice

/-! ## Derivations from the leaves up -/

/-- For each application the production, for each argument the coercions above
it; productions are named by labels. -/
inductive Inferred (ι : Type) where
  | app (x : ι) (fun_ : PgfCncFun) (chains : List (List ι)) (args : List (Inferred ι))
  | lit (lit : PgfLiteral)

namespace Inferred
variable {ι : Type}

mutual

/-- The concrete tree. -/
def tree : Inferred ι → PgfCncTree
  | app _ f _ args => .APP f (trees args)
  | lit l => .LIT l

def trees : List (Inferred ι) → List PgfCncTree
  | [] => []
  | d :: ds => d.tree :: trees ds

end

theorem trees_eq (ds : List (Inferred ι)) : trees ds = ds.map tree := by
  induction ds with
  | nil => rfl
  | cons d ds ih => rw [trees, ih, List.map_cons]

end Inferred

/-! ## Search trees -/

/-- An argument, with the coercions up to the category that a production takes. -/
structure Arg where
  cat : PgfCCatId
  chain : List Nat
  deriv : Inferred Nat

/-- The ways up from a category along coercions. -/
def superTree (l : Listing) : Nat → PgfCCatId → Search (Exec (PgfCCatId × List Nat))
  | 0, _ => .done (.error .fuel)
  | depth + 1, cat =>
    match l.select (superOf cat) with
    | [] => .done (.ok (cat, []))
    | s :: ss => andThen (choice (ss.length + 2)) fun
      | none => .done Exec.abort
      | some 0 => .done (.ok (cat, []))
      | some (k + 1) =>
        match (s :: ss)[k]? with
        | none => .done Exec.abort
        | some (x, cat) => andThen (superTree l depth cat) fun r => .done (.ok (r.1, x :: r.2))

/-- An inferred category, and a way up from it. -/
def stage (l : Listing) (depth : Nat) (s : Search (Exec (Option (PgfCCatId × Inferred Nat)))) : Search (Exec (Option Arg)) :=
  andAlso s fun a => andThen (superTree l depth a.1) fun c => .done (.ok (some ⟨c.1, c.2, a.2⟩))

/-- The productions for a function and its arguments. -/
def entryTree (l : Listing) (f : PgfCId) (args : List Arg) : Search (Exec (Option (PgfCCatId × Inferred Nat))) :=
  andThen (choice (l.select (entryOf f (args.map Arg.cat))).length) fun
    | none => .done (.ok none)
    | some k =>
      match (l.select (entryOf f (args.map Arg.cat)))[k]? with
      | none => .done Exec.abort
      | some (x, entry) => .done (.ok (some (entry.cat, .app x entry.fun_ (args.map Arg.chain) (args.map Arg.deriv))))

section Trees
variable (l : Listing) (depth : Nat) (literal_cat : PgfLiteral → PgfCCatId)

mutual

def inferTree : Spine → Search (Exec (Option (PgfCCatId × Inferred Nat)))
  | .app f args => if l.any (hasFun f) then tailTree f args [] else .done (.ok none)
  | .lit lit => .done (.ok (some (literal_cat lit, .lit lit)))
  | .other => .done (.ok none)

/-- The arguments that are left, when those in `args` have been inferred. -/
def tailTree (f : PgfCId) : List Spine → List Arg → Search (Exec (Option (PgfCCatId × Inferred Nat)))
  | [], args => entryTree l f args
  | s :: ss, args => andAlso (stage l depth (inferTree s)) fun a => tailTree f ss (args ++ [a])

end

end Trees

theorem superTree_small (l : Listing) (depth : Nat) (cat : PgfCCatId) : (superTree l depth cat).Small 255 := by
  induction depth generalizing cat with
  | zero => trivial
  | succ depth ih =>
    unfold superTree
    split
    · trivial
    · refine andThen_small (choice_small _) fun k => ?_
      split
      · trivial
      · trivial
      · split
        · trivial
        · exact andThen_small (ih _) fun _ => trivial

theorem entryTree_small (l : Listing) (f : PgfCId) (args : List Arg) : (entryTree l f args).Small 255 := by
  refine andThen_small (choice_small _) fun k => ?_
  cases k with
  | none => trivial
  | some k =>
    simp only
    split <;> trivial

/-! ## Going up -/

section Explore
variable {lzr : PgfLzr} {l : Listing}

theorem supers_of_nil (hl : Indexed lzr l) {cat : PgfCCatId} (h : l.select (superOf cat) = []) : lzr.coerce_idx cat = none := by
  rw [hl.supers, h]
  rfl

theorem supers_of_cons (hl : Indexed lzr l) {cat : PgfCCatId} {s : Nat × PgfCCatId} {ss : List (Nat × PgfCCatId)}
    (h : l.select (superOf cat) = s :: ss) : lzr.coerce_idx cat = some ((s :: ss).map Prod.snd) := by
  rw [hl.supers, h]
  rfl

theorem pick_run (hl : Indexed lzr l) (depth : Nat) (cat : PgfCCatId) (ch : GuChoice) :
    pgf_lzn_pick_supercat lzr depth cat ch = run (superTree l depth cat) ch >>= fun r => .ok (r.1.1, r.2) := by
  induction depth generalizing cat ch with
  | zero => rfl
  | succ depth ih =>
    unfold pgf_lzn_pick_supercat superTree
    cases hs : l.select (superOf cat) with
    | nil =>
      simp only [supers_of_nil hl hs]
      rfl
    | cons s ss =>
      simp only [supers_of_cons hl hs, List.length_map, List.length_cons, run_andThen, run_choice, bind_assoc]
      refine bind_congr fun r => ?_
      rcases r with ⟨_ | _ | k, ch'⟩
      · rfl
      · rfl
      · simp only [List.getElem?_map]
        cases hk : (s :: ss)[k]? with
        | none => rfl
        | some c =>
          obtain ⟨x, c⟩ := c
          simp only [Option.map_some, Exec.deref_some, Exec.ok_bind, ih, run_andThen, bind_assoc]
          rfl

/-- A bound on the depth of the ways up from each category. -/
def Ranked (l : Listing) (rank : PgfCCatId → Nat) : Prop := ∀ c, ∀ s ∈ l.select (superOf c), rank s.2 < rank c

theorem superTree_succ {rank : PgfCCatId → Nat} (hr : Ranked l rank) {depth : Nat} {cat : PgfCCatId} (hd : rank cat < depth) :
    superTree l (depth + 1) cat = superTree l depth cat := by
  induction depth generalizing cat with
  | zero => omega
  | succ depth ih =>
    rw [superTree, superTree]
    split
    · rfl
    · rename_i s ss hs
      refine andThen_congr fun k _ => ?_
      rcases k with _ | _ | k
      · rfl
      · rfl
      · simp only
        cases hk : (s :: ss)[k]? with
        | none => rfl
        | some c =>
          have hlt := hr cat c (hs ▸ List.mem_of_getElem? hk)
          simp only
          rw [ih (by omega)]

theorem superTree_deep {rank : PgfCCatId → Nat} (hr : Ranked l rank) {depth depth' : Nat} (hle : depth ≤ depth')
    {cat : PgfCCatId} (hd : rank cat < depth) : superTree l depth' cat = superTree l depth cat := by
  obtain ⟨k, rfl⟩ := Nat.exists_eq_add_of_le hle
  induction k with
  | zero => rfl
  | succ k ih => rw [← ih (by omega), ← Nat.add_assoc, superTree_succ hr (by omega)]

end Explore

end Libpgf
