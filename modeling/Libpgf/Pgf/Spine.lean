import Libpgf.Pgf.Expr
/-!
# Spines of expressions

An expression is a function applied to all its arguments, or a literal. Type
annotations and implicit arguments are passed through.
-/

namespace Libpgf

/-- An expression as an application to all arguments at once. -/
inductive Spine where
  | app (f : PgfCId) (args : List Spine)
  | lit (lit : PgfLiteral)
  | other

/-- The spine of an expression that is applied to `args`. -/
def PgfExpr.spine : PgfExpr → List Spine → Spine
  | .APP fun_ arg, args => fun_.spine (arg.spine [] :: args)
  | .FUN f, args => .app f args
  | .TYPED expr, args => expr.spine args
  | .IMPL_ARG expr, args => expr.spine args
  | .LIT lit, [] => .lit lit
  | _, _ => .other

/-- The function at the head, and the arguments. -/
def PgfExpr.unapplied : PgfExpr → List PgfExpr → Option (PgfCId × List PgfExpr)
  | .APP fun_ arg, args => fun_.unapplied (arg :: args)
  | .FUN f, args => some (f, args)
  | .TYPED expr, args => expr.unapplied args
  | .IMPL_ARG expr, args => expr.unapplied args
  | _, _ => none

theorem unapplied_append (expr : PgfExpr) (args args' : List PgfExpr) :
    expr.unapplied (args ++ args') = (expr.unapplied args).map fun r => (r.1, r.2 ++ args') := by
  induction expr generalizing args with
  | APP fun_ arg ih _ => exact ih (arg :: args)
  | TYPED expr ih => exact ih args
  | IMPL_ARG expr ih => exact ih args
  | FUN f => rfl
  | _ => rfl

theorem unapplied_eq (expr : PgfExpr) (args : List PgfExpr) :
    expr.unapplied args = (expr.unapplied []).map fun r => (r.1, r.2 ++ args) := unapplied_append expr [] args

theorem spine_unapplied {expr : PgfExpr} {args as : List PgfExpr} {f : PgfCId} (h : expr.unapplied args = some (f, as)) :
    expr.spine (args.map fun arg => arg.spine []) = .app f (as.map fun arg => arg.spine []) := by
  induction expr generalizing args with
  | APP fun_ arg ih _ =>
    rw [PgfExpr.spine]
    exact ih h
  | TYPED expr ih =>
    rw [PgfExpr.spine]
    exact ih h
  | IMPL_ARG expr ih =>
    rw [PgfExpr.spine]
    exact ih h
  | FUN f' =>
    simp only [PgfExpr.unapplied, Option.some.injEq, Prod.mk.injEq] at h
    obtain ⟨rfl, rfl⟩ := h
    rfl
  | _ => cases h

theorem spine_cons_other {expr : PgfExpr} (h : expr.unapplied [] = none) (arg : Spine) (args : List Spine) :
    expr.spine (arg :: args) = .other := by
  induction expr generalizing arg args with
  | APP fun_ arg' ih _ =>
    rw [PgfExpr.unapplied, unapplied_eq, Option.map_eq_none_iff] at h
    exact ih h _ _
  | TYPED expr ih => exact ih h _ _
  | IMPL_ARG expr ih => exact ih h _ _
  | FUN f => cases h
  | _ => rfl

/-- An expression without a function at its head. -/
theorem spine_none {expr : PgfExpr} (h : expr.unapplied [] = none) : expr.spine [] = match pgf_expr_unwrap expr with
    | .LIT lit => .lit lit
    | _ => .other := by
  induction expr with
  | APP fun_ arg ih _ =>
    rw [PgfExpr.unapplied, unapplied_eq, Option.map_eq_none_iff] at h
    simp only [pgf_expr_unwrap]
    exact spine_cons_other h _ _
  | TYPED expr ih =>
    simp only [pgf_expr_unwrap]
    exact ih h
  | IMPL_ARG expr ih =>
    simp only [pgf_expr_unwrap]
    exact ih h
  | FUN f => cases h
  | _ => rfl

theorem unapplied_lt {expr : PgfExpr} {args as : List PgfExpr} {f : PgfCId} (h : expr.unapplied args = some (f, as)) {e : PgfExpr}
    (he : e ∈ as) : e ∈ args ∨ sizeOf e < sizeOf expr := by
  induction expr generalizing args with
  | APP fun_ arg ih _ =>
    rcases ih h with hm | hlt
    · rcases List.mem_cons.1 hm with rfl | hm
      · right
        simp only [PgfExpr.APP.sizeOf_spec]
        omega
      · exact .inl hm
    · right
      simp only [PgfExpr.APP.sizeOf_spec]
      omega
  | TYPED expr ih =>
    rcases ih h with hm | hlt
    · exact .inl hm
    · right
      simp only [PgfExpr.TYPED.sizeOf_spec]
      omega
  | IMPL_ARG expr ih =>
    rcases ih h with hm | hlt
    · exact .inl hm
    · right
      simp only [PgfExpr.IMPL_ARG.sizeOf_spec]
      omega
  | FUN f' =>
    simp only [PgfExpr.unapplied, Option.some.injEq, Prod.mk.injEq] at h
    exact .inl (h.2 ▸ he)
  | _ => cases h

theorem unwrap_unwrap (expr : PgfExpr) : pgf_expr_unwrap (pgf_expr_unwrap expr) = pgf_expr_unwrap expr := by
  fun_induction pgf_expr_unwrap expr with
  | case1 expr ih => exact ih
  | case2 expr ih => exact ih
  | case3 expr h₁ h₂ => rw [pgf_expr_unwrap] <;> assumption

theorem arity_loop_unwrap (expr : PgfExpr) (n : Int) : pgf_expr_arity_loop expr n = match pgf_expr_unwrap expr with
    | .APP fun_ _ => pgf_expr_arity_loop fun_ (n + 1)
    | .FUN _ => n
    | _ => -1 := by
  rw [pgf_expr_arity_loop]
  split
  · rename_i fun_ arg h
    rw [h]
  · rename_i f h
    rw [h]
  · rename_i h₁ h₂
    split
    · exact absurd (by assumption) (h₁ _ _)
    · exact absurd (by assumption) (h₂ _)
    · rfl

theorem arity_unwrap (expr : PgfExpr) (n : Int) : pgf_expr_arity_loop (pgf_expr_unwrap expr) n = pgf_expr_arity_loop expr n := by
  rw [arity_loop_unwrap, arity_loop_unwrap expr, unwrap_unwrap]

theorem arity_loop_eq (expr : PgfExpr) (n : Int) : pgf_expr_arity_loop expr n = match expr.unapplied [] with
    | some (_, as) => n + as.length
    | none => -1 := by
  induction expr generalizing n with
  | APP fun_ arg ih _ =>
    rw [pgf_expr_arity_loop]
    simp only [pgf_expr_unwrap, ih, PgfExpr.unapplied]
    rw [unapplied_eq fun_ [arg]]
    cases fun_.unapplied [] with
    | none => rfl
    | some r =>
      simp only [Option.map_some, List.length_append, List.length_singleton]
      change n + 1 + (r.2.length : Int) = n + ((r.2.length + 1 : Nat) : Int)
      omega
  | TYPED expr ih => rw [← arity_unwrap, pgf_expr_unwrap, arity_unwrap, ih, PgfExpr.unapplied]
  | IMPL_ARG expr ih => rw [← arity_unwrap, pgf_expr_unwrap, arity_unwrap, ih, PgfExpr.unapplied]
  | FUN f =>
    rw [pgf_expr_arity_loop]
    simp [pgf_expr_unwrap, PgfExpr.unapplied]
  | _ =>
    rw [pgf_expr_arity_loop]
    simp [pgf_expr_unwrap, PgfExpr.unapplied]

theorem unapply_loop_unwrap (expr : PgfExpr) (n : Nat) (args : List PgfExpr) :
    (pgf_expr_unapply_loop n (pgf_expr_unwrap expr) args).map (fun r => (pgf_expr_unwrap r.1, r.2)) =
      (pgf_expr_unapply_loop n expr args).map fun r => (pgf_expr_unwrap r.1, r.2) := by
  cases n with
  | zero => simp [pgf_expr_unapply_loop, Except.map, unwrap_unwrap]
  | succ n => simp only [pgf_expr_unapply_loop, unwrap_unwrap]

theorem unapply_loop_eq {expr : PgfExpr} {f : PgfCId} {as : List PgfExpr} (h : expr.unapplied [] = some (f, as))
    (args : List PgfExpr) :
    (pgf_expr_unapply_loop as.length expr args).map (fun r => (pgf_expr_unwrap r.1, r.2)) = .ok (.FUN f, as ++ args) := by
  induction expr generalizing as args with
  | APP fun_ arg ih _ =>
    rw [PgfExpr.unapplied, unapplied_eq, Option.map_eq_some_iff] at h
    obtain ⟨⟨f', as'⟩, h, he⟩ := h
    simp only [Prod.mk.injEq] at he
    obtain ⟨rfl, rfl⟩ := he
    rw [List.length_append, List.length_singleton, pgf_expr_unapply_loop]
    simp only [pgf_expr_unwrap]
    rw [ih h, List.append_assoc]
    rfl
  | TYPED expr ih =>
    rw [← unapply_loop_unwrap, pgf_expr_unwrap, unapply_loop_unwrap]
    exact ih h args
  | IMPL_ARG expr ih =>
    rw [← unapply_loop_unwrap, pgf_expr_unwrap, unapply_loop_unwrap]
    exact ih h args
  | FUN f' =>
    simp only [PgfExpr.unapplied, Option.some.injEq, Prod.mk.injEq] at h
    obtain ⟨rfl, rfl⟩ := h
    rfl
  | _ => cases h

/-! ## The code takes an expression apart -/

/-- What `pgf_expr_unapply` returns. -/
theorem unapply_eq (expr : PgfExpr) : pgf_expr_unapply expr = .ok ((expr.unapplied []).map fun r => ⟨.FUN r.1, r.2⟩) := by
  rw [pgf_expr_unapply, pgf_expr_arity, arity_loop_eq]
  cases h : expr.unapplied [] with
  | none => rfl
  | some r =>
    obtain ⟨f, as⟩ := r
    have hloop := unapply_loop_eq h []
    have hpos : ¬ (0 + (as.length : Int) < 0) := by omega
    simp only [if_neg hpos]
    rw [show (0 + (as.length : Int)).toNat = as.length by omega]
    cases hl : pgf_expr_unapply_loop as.length expr [] with
    | error e =>
      rw [hl] at hloop
      simp [Except.map] at hloop
    | ok r =>
      rw [hl] at hloop
      simp only [Except.map, List.append_nil, Except.ok.injEq, Prod.mk.injEq] at hloop
      obtain ⟨hfun, rfl⟩ := hloop
      simp only [Exec.ok_bind, hfun]
      rfl

/-! ## Nothing is lost -/

/-- What is applied, under all the arguments and wrappers. -/
def PgfExpr.head : PgfExpr → PgfExpr
  | .APP fun_ _ => fun_.head
  | .TYPED expr => expr.head
  | .IMPL_ARG expr => expr.head
  | expr => expr

/-- The expression without the wrappers on its spine. Those within arguments stay. -/
def PgfExpr.bareSpine : PgfExpr → PgfExpr
  | .APP fun_ arg => .APP fun_.bareSpine arg
  | .TYPED expr => expr.bareSpine
  | .IMPL_ARG expr => expr.bareSpine
  | expr => expr

theorem unapplied_head {expr : PgfExpr} {args as : List PgfExpr} {f : PgfCId} (h : expr.unapplied args = some (f, as)) :
    expr.head = .FUN f := by
  induction expr generalizing args with
  | APP fun_ arg ih _ => exact ih h
  | TYPED expr ih => exact ih h
  | IMPL_ARG expr ih => exact ih h
  | FUN f' =>
    obtain ⟨rfl, -⟩ := Prod.mk.inj (Option.some.inj h)
    rfl
  | _ => cases h

theorem unapplied_of_head {expr : PgfExpr} {f : PgfCId} (h : expr.head = .FUN f) (args : List PgfExpr) :
    ∃ as, expr.unapplied args = some (f, as) := by
  induction expr generalizing args with
  | APP fun_ arg ih _ => exact ih h (arg :: args)
  | TYPED expr ih => exact ih h args
  | IMPL_ARG expr ih => exact ih h args
  | FUN f' =>
    obtain rfl : f' = f := PgfExpr.FUN.inj h
    exact ⟨args, rfl⟩
  | _ => cases h

/-- The function applied to the arguments again. -/
theorem unapplied_rebuilds {expr : PgfExpr} {args as : List PgfExpr} {f : PgfCId} (h : expr.unapplied args = some (f, as)) :
    as.foldl .APP (.FUN f) = args.foldl .APP expr.bareSpine := by
  induction expr generalizing args with
  | APP fun_ arg ih _ => exact ih h
  | TYPED expr ih => exact ih h
  | IMPL_ARG expr ih => exact ih h
  | FUN f' =>
    obtain ⟨rfl, rfl⟩ := Prod.mk.inj (Option.some.inj h)
    rfl
  | _ => cases h

theorem unapplied_none_iff (expr : PgfExpr) : expr.unapplied [] = none ↔ ∀ f, expr.head ≠ .FUN f := by
  constructor
  · intro h f hf
    obtain ⟨as, hsome⟩ := unapplied_of_head hf []
    rw [h] at hsome
    cases hsome
  · intro h
    cases hsome : expr.unapplied [] with
    | none => rfl
    | some r => exact absurd (unapplied_head hsome) (h r.1)

theorem arity_eq (expr : PgfExpr) : pgf_expr_arity expr = match expr.unapplied [] with
    | some r => (r.2.length : Int)
    | none => -1 := by
  rw [pgf_expr_arity, arity_loop_eq]
  cases expr.unapplied [] with
  | none => rfl
  | some r => exact Int.zero_add _

/-- The arity tells whether there is a function at the head, and then the expression is the function applied to as many arguments. -/
theorem unapply_faithful (expr : PgfExpr) :
    (pgf_expr_arity expr = -1 ↔ ∀ f, expr.head ≠ .FUN f) ∧
    (pgf_expr_arity expr = -1 → pgf_expr_unapply expr = .ok none) ∧
    (pgf_expr_arity expr ≠ -1 → ∃ f appl, pgf_expr_unapply expr = .ok (some appl) ∧ appl.fun_ = expr.head ∧ expr.head = .FUN f ∧
      (appl.args.length : Int) = pgf_expr_arity expr ∧ appl.args.foldl .APP appl.fun_ = expr.bareSpine) := by
  rw [← unapplied_none_iff, arity_eq, unapply_eq]
  cases h : expr.unapplied [] with
  | none =>
    refine ⟨⟨fun _ => rfl, fun _ => rfl⟩, fun _ => rfl, ?_⟩
    intro hne
    exact absurd rfl hne
  | some r =>
    obtain ⟨f, as⟩ := r
    have hne : (as.length : Int) ≠ -1 := by omega
    refine ⟨⟨fun heq => absurd heq hne, fun hnone => absurd hnone (by simp)⟩, fun heq => absurd heq hne, ?_⟩
    intro _
    refine ⟨f, ⟨.FUN f, as⟩, rfl, ?_, unapplied_head h, rfl, unapplied_rebuilds h⟩
    exact (unapplied_head h).symm

end Libpgf
