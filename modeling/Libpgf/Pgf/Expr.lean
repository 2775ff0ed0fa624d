import Libpgf.Pgf.Data
/-!
# Expressions (`pgf/expr.c`)

Abstract syntax trees, and how an application is taken apart. The type of a
typed expression is left out: nothing here looks at it.
-/

namespace Libpgf

inductive PgfBindType where
  | EXPLICIT
  | IMPLICIT
  deriving DecidableEq, Repr

/-- A `double` is given by its bits. -/
inductive PgfLiteral where
  | STR (val : GuString)
  | INT (val : Int)
  | FLT (val : UInt64)
  deriving DecidableEq, Repr

inductive PgfExpr where
  | ABS (bind_type : PgfBindType) (id : PgfCId) (body : PgfExpr)
  | APP (fun_ arg : PgfExpr)
  | LIT (lit : PgfLiteral)
  | META (id : Int)
  | FUN (fun_ : PgfCId)
  | VAR (var : Int)
  | TYPED (expr : PgfExpr)
  | IMPL_ARG (expr : PgfExpr)
  deriving DecidableEq, Repr

def pgf_expr_unwrap : PgfExpr → PgfExpr
  | .IMPL_ARG expr => pgf_expr_unwrap expr
  | .TYPED expr => pgf_expr_unwrap expr
  | expr => expr

theorem sizeOf_unwrap_le (expr : PgfExpr) : sizeOf (pgf_expr_unwrap expr) ≤ sizeOf expr := by
  fun_induction pgf_expr_unwrap expr with
  | case1 expr ih =>
    simp only [PgfExpr.IMPL_ARG.sizeOf_spec]
    omega
  | case2 expr ih =>
    simp only [PgfExpr.TYPED.sizeOf_spec]
    omega
  | case3 expr => exact Nat.le_refl _

/-- The loop of `pgf_expr_arity`. Its `int` has no bound here: the two agree on fewer than `2 ^ 31` arguments. -/
def pgf_expr_arity_loop (expr : PgfExpr) (n : Int) : Int :=
  match h : pgf_expr_unwrap expr with
  | .APP fun_ _ => pgf_expr_arity_loop fun_ (n + 1)
  | .FUN _ => n
  | _ => -1
termination_by sizeOf expr
decreasing_by
  have := sizeOf_unwrap_le expr
  rw [h, PgfExpr.APP.sizeOf_spec] at this
  omega

def pgf_expr_arity (expr : PgfExpr) : Int := pgf_expr_arity_loop expr 0

structure PgfApplication where
  fun_ : PgfExpr
  args : List PgfExpr
  deriving DecidableEq, Repr

/-- The loop of `pgf_expr_unapply`, which fills in the arguments from the last one. -/
def pgf_expr_unapply_loop : Nat → PgfExpr → List PgfExpr → Exec (PgfExpr × List PgfExpr)
  | 0, expr, args => .ok (expr, args)
  | n + 1, expr, args =>
    match pgf_expr_unwrap expr with
    | .APP fun_ arg => pgf_expr_unapply_loop n fun_ (arg :: args)
    | _ => Exec.abort

def pgf_expr_unapply (expr : PgfExpr) : Exec (Option PgfApplication) := do
  let arity := pgf_expr_arity expr
  if arity < 0 then return none
  let (expr, args) ← pgf_expr_unapply_loop arity.toNat expr []
  match pgf_expr_unwrap expr with
  | .FUN fun_ => return some { fun_ := .FUN fun_, args }
  | _ => Exec.abort

end Libpgf
