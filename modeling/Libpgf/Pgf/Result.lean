import Libpgf.Gu.ChoiceLaws
import Libpgf.Pgf.Expr
import Libpgf.Pgf.Parser
/-!
# Parse results (`pgf/parser.c`)

The enumeration of the expressions of a parse state. Each of them is one run
through the productions of the completed categories, and a `GuChoice` goes
from one run to the next.

`none` is the null variant. The set of the categories seen is a list.
-/

namespace Libpgf

variable {P : PgfParser}

/-- A null sequence has no header that could be looked at. -/
def gu_seq_is_buf : PgfProductions → Exec Bool
  | .null => Exec.abort
  | .seq _ => .ok false
  | .buf _ => .ok true

section Rec
variable (cat_to_expr : PgfCCatId → GuChoice → List PgfCCatId → Exec ((Option PgfExpr × List PgfCCatId) × GuChoice))

/-- The loop over the arguments of a function; `expr` is what has been applied so far. -/
def apply_args : List PgfPArg → PgfExpr → GuChoice → List PgfCCatId →
    Exec ((Option PgfExpr × List PgfCCatId) × GuChoice)
  | [], expr, choice, seen_cats => .ok ((some expr, seen_cats), choice)
  | parg :: args, expr, choice, seen_cats => do
    Exec.require (parg.hypos = [])
    let ((earg, seen_cats), choice) ← cat_to_expr parg.ccat choice seen_cats
    match earg with
    | none => return ((none, seen_cats), choice)
    | some earg => apply_args args (.APP expr earg) choice seen_cats

def pgf_production_to_expr (prod : PgfProduction) (choice : GuChoice) (seen_cats : List PgfCCatId) :
    Exec ((Option PgfExpr × List PgfCCatId) × GuChoice) :=
  match prod with
  | .APPLY f args => apply_args cat_to_expr args (.FUN f.fun_) choice seen_cats
  | .COERCE coerce => cat_to_expr coerce choice seen_cats

end Rec

/-- The first argument bounds the depth of the recursion. -/
def pgf_cat_to_expr (h : Heap P) : Nat → PgfCCatId → GuChoice → List PgfCCatId →
    Exec ((Option PgfExpr × List PgfCCatId) × GuChoice)
  | 0, _, _, _ => .error .fuel
  | fuel + 1, cat, choice, seen_cats => do
    -- cyclic expression
    if cat ∈ seen_cats then return ((none, seen_cats), choice)
    let seen_cats := cat :: seen_cats
    let ccat ← Exec.deref h.ccats[cat]?
    if !(← gu_seq_is_buf ccat.prods) then return ((some (.META 0), seen_cats), choice)
    let (i, choice) ← choice.gu_choice_next ccat.prods.elems.length
    match i with
    | none => return ((none, seen_cats), choice)
    | some i =>
      let prod ← Exec.deref ccat.prods.elems[i]?
      pgf_production_to_expr (pgf_cat_to_expr h fuel) prod choice seen_cats

structure PgfParseResult where
  completed : List PgfCCatId
  /-- Dropped after the last run. -/
  choice : Option GuChoice

/-- The `while` loop of `pgf_parse_result_next`. -/
def pgf_parse_result_loop (h : Heap P) (fuel : Nat) : Nat → PgfParseResult → Exec (Option PgfExpr × PgfParseResult)
  | 0, _ => .error .fuel
  | n + 1, pr => do
    let choice ← Exec.deref pr.choice
    let mark ← choice.gu_choice_mark
    let (i, choice) ← choice.gu_choice_next pr.completed.length
    match i with
    | none => return (none, { pr with choice := some choice })
    | some i =>
      let cat ← Exec.deref pr.completed[i]?
      let ((ret, _), choice) ← pgf_cat_to_expr h fuel cat choice []
      let choice ← choice.gu_choice_reset mark
      let (more, choice) ← choice.gu_choice_advance
      let pr := { pr with choice := if more then some choice else none }
      match ret with
      | some ret => return (some ret, pr)
      | none => pgf_parse_result_loop h fuel n pr

def pgf_parse_result_next (h : Heap P) (fuel : Nat) (pr : PgfParseResult) : Exec (Option PgfExpr × PgfParseResult) :=
  match pr.choice with
  | none => .ok (none, pr)
  | some _ => pgf_parse_result_loop h fuel fuel pr

def pgf_parse_result (parse : PgfParse) : PgfParseResult := ⟨parse.completed, some gu_new_choice⟩

end Libpgf
