import Libpgf.Gu.Choice
import Libpgf.Pgf.Linearize
/-!
# Concretization (`pgf/linearize.c`)

A linearizer indexes the productions of a concrete grammar by their functions
and arguments. `pgf_lzr_concretize` enumerates the concrete trees of an
expression: it infers a category for each argument, goes up from it along
coercions, and looks for productions that take these categories.

The maps are functions into `Option`, and `none` is a null pointer. A tree is
made in every pass; the code leaves it out where it only looks for a category.
-/

namespace Libpgf

structure PgfLinInferEntry where
  cat : PgfCCatId
  fun_ : PgfCncFun
  deriving DecidableEq

/-- A `GuBuf` of entries for each sequence of argument categories. -/
abbrev PgfInferMap := List PgfCCatId → Option (List PgfLinInferEntry)

structure PgfLzr where
  cnc : PgfConcr
  fun_indices : PgfCId → Option PgfInferMap
  /-- For a category those that it can be coerced to. -/
  coerce_idx : PgfCCatId → Option (List PgfCCatId)

/-! ## The index -/

def pgf_lzr_add_infer_entry (infer_table : PgfInferMap) (cat : PgfCCatId) (f : PgfCncFun) (args : List PgfPArg) : PgfInferMap :=
  let arg_cats := args.map PgfPArg.ccat
  let entries := (infer_table arg_cats).getD []
  Function.update infer_table arg_cats (some (entries ++ [⟨cat, f⟩]))

def pgf_lzr_index (lzr : PgfLzr) (cat : PgfCCatId) : PgfProduction → PgfLzr
  | .APPLY f args =>
    let infer := (lzr.fun_indices f.fun_).getD fun _ => none
    { lzr with fun_indices := Function.update lzr.fun_indices f.fun_ (some (pgf_lzr_add_infer_entry infer cat f args)) }
  | .COERCE coerce =>
    let cats := (lzr.coerce_idx coerce).getD []
    { lzr with coerce_idx := Function.update lzr.coerce_idx coerce (some (cats ++ [cat])) }

def pgf_lzr_index_ccat (lzr : PgfLzr) (cat : PgfCCatId) : Exec PgfLzr := do
  let ccat ← Exec.deref lzr.cnc.ccatMem[cat]?
  if ccat.prods.isNull then return lzr
  return ccat.prods.elems.foldl (fun lzr prod => pgf_lzr_index lzr cat prod) lzr

def pgf_lzr_index_cnccat_cb (lzr : PgfLzr) (cnccat : PgfCId × PgfCncCatId) : Exec PgfLzr := do
  let cnccat ← Exec.deref lzr.cnc.cnccatMem[cnccat.2]?
  forEach (fun lzr cat =>
    match cat with
    | none => .ok lzr
    | some cat => pgf_lzr_index_ccat lzr cat) cnccat.cats lzr

def pgf_new_lzr (cnc : PgfConcr) : Exec PgfLzr := do
  let lzr := { cnc, fun_indices := fun _ => none, coerce_idx := fun _ => none }
  let lzr ← forEach pgf_lzr_index_cnccat_cb cnc.cnccats lzr
  forEach pgf_lzr_index_ccat cnc.extra_ccats lzr

/-! ## Inference -/

/-- The categories of literals are static objects, which stand after those of the grammar. -/
def pgf_literal_cat (cnc : PgfConcr) : PgfLiteral → PgfCCatId
  | .STR _ => cnc.ccatMem.length
  | .INT _ => cnc.ccatMem.length + 1
  | .FLT _ => cnc.ccatMem.length + 2

/-- The `while` loop, with a bound on its rounds. -/
def pgf_lzn_pick_supercat (lzr : PgfLzr) : Nat → PgfCCatId → GuChoice → Exec (PgfCCatId × GuChoice)
  | 0, _, _ => .error .fuel
  | fuel + 1, cat, choice =>
    match lzr.coerce_idx cat with
    | none => .ok (cat, choice)
    | some supers => do
      let (ch, choice) ← choice.gu_choice_next (supers.length + 1)
      match ch with
      | none => Exec.abort
      | some 0 => return (cat, choice)
      | some (ch + 1) =>
        let cat ← Exec.deref supers[ch]?
        pgf_lzn_pick_supercat lzr fuel cat choice

/-- How far the arguments of an application have been inferred: `marks[0]` to
`marks[i]`, and the first `i` categories and trees. -/
structure PgfTrial where
  marks : List GuChoiceMark
  arg_cats : List PgfCCatId
  arg_trees : List PgfCncTree

/-- `*ip` -/
def PgfTrial.ip (t : PgfTrial) : Nat := t.arg_cats.length

/-- The assignments to `arg_cats`, the tree and `marks` that end with `++*ip`. -/
def PgfTrial.push (t : PgfTrial) (cat : PgfCCatId) (tree : PgfCncTree) (mark : GuChoiceMark) : PgfTrial :=
  ⟨t.marks ++ [mark], t.arg_cats ++ [cat], t.arg_trees ++ [tree]⟩

/-- What is left of the arrays when `i` is set back. -/
def PgfTrial.cut (t : PgfTrial) (i : Nat) : PgfTrial := ⟨t.marks.take (i + 1), t.arg_cats.take i, t.arg_trees.take i⟩

section Rec
variable (lzr : PgfLzr) (fuel : Nat) (infer : PgfExpr → GuChoice → Exec (Option (PgfCCatId × PgfCncTree) × GuChoice))

/-- One argument: a category inferred for it, and another one further up. -/
def infer_arg (arg_expr : PgfExpr) (choice : GuChoice) : Exec (Option (PgfCCatId × PgfCncTree) × GuChoice) := do
  let (arg_i, choice) ← infer arg_expr choice
  match arg_i with
  | none => return (none, choice)
  | some (arg_i, tree) =>
    let (arg_i, choice) ← pgf_lzn_pick_supercat lzr fuel arg_i choice
    return (some (arg_i, tree), choice)

/-- The `while` loop of `pgf_lzn_infer_apply_try` over the arguments from `*ip` on. -/
def infer_apply_args : List PgfExpr → PgfTrial → GuChoice → Exec (Bool × PgfTrial × GuChoice)
  | [], t, choice => .ok (true, t, choice)
  | arg_expr :: args, t, choice => do
    let (arg_i, choice) ← infer_arg lzr fuel infer arg_expr choice
    match arg_i with
    | none => return (false, t, choice)
    | some (cat, tree) =>
      let mark ← choice.gu_choice_mark
      infer_apply_args args (t.push cat tree mark) choice

def pgf_lzn_infer_apply_try (args : List PgfExpr) (infer_map : PgfInferMap) (t : PgfTrial) (choice : GuChoice) :
    Exec (Option PgfLinInferEntry × PgfTrial × GuChoice) := do
  let (all, t, choice) ← infer_apply_args lzr fuel infer (args.drop t.ip) t choice
  if !all then return (none, t, choice)
  match infer_map t.arg_cats with
  | none => return (none, t, choice)
  | some entries =>
    let (e, choice) ← choice.gu_choice_next entries.length
    match e with
    | none => return (none, t, choice)
    | some e =>
      let entry ← Exec.deref entries[e]?
      return (some entry, t, choice)

/-- The `do` loop of `pgf_lzn_infer_application`, from `i` on: back to the last argument that has another alternative. -/
def infer_back : Nat → PgfTrial → GuChoice → Exec (Option PgfTrial × GuChoice)
  | 0, _, choice => .ok (none, choice)
  | i + 1, t, choice => do
    let mark ← Exec.deref t.marks[i]?
    let choice ← choice.gu_choice_reset mark
    let (more, choice) ← choice.gu_choice_advance
    if more then return (some (t.cut i), choice)
    infer_back i (t.cut i) choice

/-- The `while` loop of `pgf_lzn_infer_application`. -/
def infer_application_loop (args : List PgfExpr) (infer_map : PgfInferMap) : Nat → PgfTrial → GuChoice →
    Exec (Option (PgfCCatId × PgfCncTree) × GuChoice)
  | 0, _, _ => .error .fuel
  | n + 1, t, choice => do
    let (ret, t, choice) ← pgf_lzn_infer_apply_try lzr fuel infer args infer_map t choice
    match ret with
    | some entry => return (some (entry.cat, .APP entry.fun_ t.arg_trees), choice)
    | none =>
      let (t, choice) ← infer_back t.ip t choice
      match t with
      | none => return (none, choice)
      | some t => infer_application_loop args infer_map n t choice

def pgf_lzn_infer_application (fun_ : PgfCId) (args : List PgfExpr) (choice : GuChoice) :
    Exec (Option (PgfCCatId × PgfCncTree) × GuChoice) :=
  match lzr.fun_indices fun_ with
  | none => .ok (none, choice)
  | some infer_map => do
    let mark ← choice.gu_choice_mark
    infer_application_loop lzr fuel infer args infer_map fuel ⟨[mark], [], []⟩ choice

end Rec

/-- `fuel` bounds the depth of the recursion, and the rounds of each loop. -/
def pgf_lzn_infer (lzr : PgfLzr) : Nat → PgfExpr → GuChoice → Exec (Option (PgfCCatId × PgfCncTree) × GuChoice)
  | 0, _, _ => .error .fuel
  | fuel + 1, expr, choice => do
    let appl ← pgf_expr_unapply expr
    match appl with
    | some appl =>
      match appl.fun_ with
      | .FUN fun_ => pgf_lzn_infer_application lzr fuel (pgf_lzn_infer lzr fuel) fun_ appl.args choice
      | _ => Exec.abort
    | none =>
      match pgf_expr_unwrap expr with
      | .LIT lit => return (some (pgf_literal_cat lzr.cnc lit, .LIT lit), choice)
      | _ => return (none, choice)

/-! ## The enumeration -/

structure PgfLzn where
  ch : GuChoice
  /-- Null after the last tree. -/
  expr : Option PgfExpr

/-- The `do` loop of `pgf_lzn_next`; the category found. -/
def lzn_next_loop (lzr : PgfLzr) (fuel : Nat) (expr : PgfExpr) (mark : GuChoiceMark) : Nat → GuChoice →
    Exec (Option PgfCCatId × GuChoice)
  | 0, _ => .error .fuel
  | n + 1, choice => do
    let (cat, choice) ← pgf_lzn_infer lzr fuel expr choice
    let choice ← choice.gu_choice_reset mark
    match cat with
    | some (cat, _) => return (some cat, choice)
    | none =>
      let (more, choice) ← choice.gu_choice_advance
      if more then lzn_next_loop lzr fuel expr mark n choice
      else return (none, choice)

def pgf_lzn_next (lzr : PgfLzr) (fuel : Nat) (lzn : PgfLzn) : Exec (Option PgfCncTree × PgfLzn) :=
  match lzn.expr with
  | none => .ok (none, lzn)
  | some expr => do
    let mark ← lzn.ch.gu_choice_mark
    let (cat, ch) ← lzn_next_loop lzr fuel expr mark fuel lzn.ch
    match cat with
    | none => return (none, { lzn with ch })
    | some cat =>
      let (cat2, ch) ← pgf_lzn_infer lzr fuel expr ch
      Exec.require (cat2.map Prod.fst = some cat)
      let ch ← ch.gu_choice_reset mark
      let (more, ch) ← ch.gu_choice_advance
      return (cat2.map Prod.snd, ⟨ch, if more then some expr else none⟩)

def pgf_lzr_concretize (expr : PgfExpr) : PgfLzn := ⟨gu_new_choice, some expr⟩

end Libpgf
