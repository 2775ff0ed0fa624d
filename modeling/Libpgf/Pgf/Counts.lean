import Libpgf.Lib.Noted
import Libpgf.Pgf.Concretize
import Libpgf.Pgf.Result
/-!
# The numbers of alternatives

The enumerations of parse results and of concrete trees, with a note of the
number of alternatives that each call of `gu_choice_next` is given. Without the
notes they are the enumerations.
-/

namespace Libpgf

open GuChoice

/-- A run that notes numbers of alternatives. -/
abbrev Counted (α : Type) : Type := Noted Nat α

def gu_choice_next_counted (choice : GuChoice) (n_choices : Nat) : Counted (Option Nat × GuChoice) :=
  ⟨choice.gu_choice_next n_choices, [n_choices]⟩

@[simp] theorem choice_next_result (choice : GuChoice) (n : Nat) :
    (gu_choice_next_counted choice n).result = choice.gu_choice_next n := rfl

theorem choice_next_all {p : Nat → Prop} {choice : GuChoice} {n : Nat} (h : p n) : (gu_choice_next_counted choice n).All p :=
  fun _ hi => List.mem_singleton.1 hi ▸ h

/-! ## Parse results -/

section Rec
variable (cat_to_expr : PgfCCatId → GuChoice → List PgfCCatId → Counted ((Option PgfExpr × List PgfCCatId) × GuChoice))

def apply_args_counted : List PgfPArg → PgfExpr → GuChoice → List PgfCCatId →
    Counted ((Option PgfExpr × List PgfCCatId) × GuChoice)
  | [], expr, choice, seen_cats => return ((some expr, seen_cats), choice)
  | parg :: args, expr, choice, seen_cats => do
    Exec.require (parg.hypos = [])
    let ((earg, seen_cats), choice) ← cat_to_expr parg.ccat choice seen_cats
    match earg with
    | none => return ((none, seen_cats), choice)
    | some earg => apply_args_counted args (.APP expr earg) choice seen_cats

def pgf_production_to_expr_counted (prod : PgfProduction) (choice : GuChoice) (seen_cats : List PgfCCatId) :
    Counted ((Option PgfExpr × List PgfCCatId) × GuChoice) :=
  match prod with
  | .APPLY f args => apply_args_counted cat_to_expr args (.FUN f.fun_) choice seen_cats
  | .COERCE coerce => cat_to_expr coerce choice seen_cats

end Rec

variable {P : PgfParser}

def pgf_cat_to_expr_counted (h : Heap P) : Nat → PgfCCatId → GuChoice → List PgfCCatId →
    Counted ((Option PgfExpr × List PgfCCatId) × GuChoice)
  | 0, _, _, _ => liftM (Except.error Halt.fuel)
  | fuel + 1, cat, choice, seen_cats => do
    if cat ∈ seen_cats then return ((none, seen_cats), choice)
    let seen_cats := cat :: seen_cats
    let ccat ← Exec.deref h.ccats[cat]?
    if !(← gu_seq_is_buf ccat.prods) then return ((some (.META 0), seen_cats), choice)
    let (i, choice) ← gu_choice_next_counted choice ccat.prods.elems.length
    match i with
    | none => return ((none, seen_cats), choice)
    | some i =>
      let prod ← Exec.deref ccat.prods.elems[i]?
      pgf_production_to_expr_counted (pgf_cat_to_expr_counted h fuel) prod choice seen_cats

def pgf_parse_result_loop_counted (h : Heap P) (fuel : Nat) : Nat → PgfParseResult → Counted (Option PgfExpr × PgfParseResult)
  | 0, _ => liftM (Except.error Halt.fuel)
  | n + 1, pr => do
    let choice ← Exec.deref pr.choice
    let mark ← choice.gu_choice_mark
    let (i, choice) ← gu_choice_next_counted choice pr.completed.length
    match i with
    | none => return (none, { pr with choice := some choice })
    | some i =>
      let cat ← Exec.deref pr.completed[i]?
      let ((ret, _), choice) ← pgf_cat_to_expr_counted h fuel cat choice []
      let choice ← choice.gu_choice_reset mark
      let (more, choice) ← choice.gu_choice_advance
      let pr := { pr with choice := if more then some choice else none }
      match ret with
      | some ret => return (some ret, pr)
      | none => pgf_parse_result_loop_counted h fuel n pr

def pgf_parse_result_next_counted (h : Heap P) (fuel : Nat) (pr : PgfParseResult) : Counted (Option PgfExpr × PgfParseResult) :=
  match pr.choice with
  | none => return (none, pr)
  | some _ => pgf_parse_result_loop_counted h fuel fuel pr

/-! ## Concrete trees -/

def pgf_lzn_pick_supercat_counted (lzr : PgfLzr) : Nat → PgfCCatId → GuChoice → Counted (PgfCCatId × GuChoice)
  | 0, _, _ => liftM (Except.error Halt.fuel)
  | fuel + 1, cat, choice =>
    match lzr.coerce_idx cat with
    | none => return (cat, choice)
    | some supers => do
      let (ch, choice) ← gu_choice_next_counted choice (supers.length + 1)
      match ch with
      | none => (Exec.abort : Exec _)
      | some 0 => return (cat, choice)
      | some (ch + 1) =>
        let cat ← Exec.deref supers[ch]?
        pgf_lzn_pick_supercat_counted lzr fuel cat choice

section Rec
variable (lzr : PgfLzr) (fuel : Nat) (infer : PgfExpr → GuChoice → Counted (Option (PgfCCatId × PgfCncTree) × GuChoice))

def infer_arg_counted (arg_expr : PgfExpr) (choice : GuChoice) : Counted (Option (PgfCCatId × PgfCncTree) × GuChoice) := do
  let (arg_i, choice) ← infer arg_expr choice
  match arg_i with
  | none => return (none, choice)
  | some (arg_i, tree) =>
    let (arg_i, choice) ← pgf_lzn_pick_supercat_counted lzr fuel arg_i choice
    return (some (arg_i, tree), choice)

def infer_apply_args_counted : List PgfExpr → PgfTrial → GuChoice → Counted (Bool × PgfTrial × GuChoice)
  | [], t, choice => return (true, t, choice)
  | arg_expr :: args, t, choice => do
    let (arg_i, choice) ← infer_arg_counted lzr fuel infer arg_expr choice
    match arg_i with
    | none => return (false, t, choice)
    | some (cat, tree) =>
      let mark ← choice.gu_choice_mark
      infer_apply_args_counted args (t.push cat tree mark) choice

def pgf_lzn_infer_apply_try_counted (args : List PgfExpr) (infer_map : PgfInferMap) (t : PgfTrial) (choice : GuChoice) :
    Counted (Option PgfLinInferEntry × PgfTrial × GuChoice) := do
  let (all, t, choice) ← infer_apply_args_counted lzr fuel infer (args.drop t.ip) t choice
  if !all then return (none, t, choice)
  match infer_map t.arg_cats with
  | none => return (none, t, choice)
  | some entries =>
    let (e, choice) ← gu_choice_next_counted choice entries.length
    match e with
    | none => return (none, t, choice)
    | some e =>
      let entry ← Exec.deref entries[e]?
      return (some entry, t, choice)

def infer_application_loop_counted (args : List PgfExpr) (infer_map : PgfInferMap) : Nat → PgfTrial → GuChoice →
    Counted (Option (PgfCCatId × PgfCncTree) × GuChoice)
  | 0, _, _ => liftM (Except.error Halt.fuel)
  | n + 1, t, choice => do
    let (ret, t, choice) ← pgf_lzn_infer_apply_try_counted lzr fuel infer args infer_map t choice
    match ret with
    | some entry => return (some (entry.cat, .APP entry.fun_ t.arg_trees), choice)
    | none =>
      let (t, choice) ← infer_back t.ip t choice
      match t with
      | none => return (none, choice)
      | some t => infer_application_loop_counted args infer_map n t choice

def pgf_lzn_infer_application_counted (fun_ : PgfCId) (args : List PgfExpr) (choice : GuChoice) :
    Counted (Option (PgfCCatId × PgfCncTree) × GuChoice) :=
  match lzr.fun_indices fun_ with
  | none => return (none, choice)
  | some infer_map => do
    let mark ← choice.gu_choice_mark
    infer_application_loop_counted lzr fuel infer args infer_map fuel ⟨[mark], [], []⟩ choice

end Rec

def pgf_lzn_infer_counted (lzr : PgfLzr) : Nat → PgfExpr → GuChoice → Counted (Option (PgfCCatId × PgfCncTree) × GuChoice)
  | 0, _, _ => liftM (Except.error Halt.fuel)
  | fuel + 1, expr, choice => do
    let appl ← pgf_expr_unapply expr
    match appl with
    | some appl =>
      match appl.fun_ with
      | .FUN fun_ => pgf_lzn_infer_application_counted lzr fuel (pgf_lzn_infer_counted lzr fuel) fun_ appl.args choice
      | _ => (Exec.abort : Exec _)
    | none =>
      match pgf_expr_unwrap expr with
      | .LIT lit => return (some (pgf_literal_cat lzr.cnc lit, .LIT lit), choice)
      | _ => return (none, choice)

def lzn_next_loop_counted (lzr : PgfLzr) (fuel : Nat) (expr : PgfExpr) (mark : GuChoiceMark) : Nat → GuChoice →
    Counted (Option PgfCCatId × GuChoice)
  | 0, _ => liftM (Except.error Halt.fuel)
  | n + 1, choice => do
    let (cat, choice) ← pgf_lzn_infer_counted lzr fuel expr choice
    let choice ← choice.gu_choice_reset mark
    match cat with
    | some (cat, _) => return (some cat, choice)
    | none =>
      let (more, choice) ← choice.gu_choice_advance
      if more then lzn_next_loop_counted lzr fuel expr mark n choice
      else return (none, choice)

def pgf_lzn_next_counted (lzr : PgfLzr) (fuel : Nat) (lzn : PgfLzn) : Counted (Option PgfCncTree × PgfLzn) :=
  match lzn.expr with
  | none => return (none, lzn)
  | some expr => do
    let mark ← lzn.ch.gu_choice_mark
    let (cat, ch) ← lzn_next_loop_counted lzr fuel expr mark fuel lzn.ch
    match cat with
    | none => return (none, { lzn with ch })
    | some cat =>
      let (cat2, ch) ← pgf_lzn_infer_counted lzr fuel expr ch
      Exec.require (cat2.map Prod.fst = some cat)
      let ch ← ch.gu_choice_reset mark
      let (more, ch) ← ch.gu_choice_advance
      return (cat2.map Prod.snd, ⟨ch, if more then some expr else none⟩)

/-! ## Without the notes -/

section Rec
variable {f : PgfCCatId → GuChoice → List PgfCCatId → Exec ((Option PgfExpr × List PgfCCatId) × GuChoice)}
  {fc : PgfCCatId → GuChoice → List PgfCCatId → Counted ((Option PgfExpr × List PgfCCatId) × GuChoice)}

theorem apply_args_result (hf : ∀ cat choice seen_cats, (fc cat choice seen_cats).result = f cat choice seen_cats) (args : List PgfPArg)
    (expr : PgfExpr) (choice : GuChoice) (seen_cats : List PgfCCatId) :
    (apply_args_counted fc args expr choice seen_cats).result = apply_args f args expr choice seen_cats := by
  induction args generalizing expr choice seen_cats with
  | nil => rfl
  | cons parg args ih =>
    simp only [apply_args_counted, apply_args, Noted.result_bind, Noted.result_lift, hf]
    refine bind_congr fun _ => bind_congr fun r => ?_
    rcases r with ⟨⟨_ | earg, seen_cats'⟩, choice'⟩
    · rfl
    · exact ih _ _ _

theorem production_to_expr_result (hf : ∀ cat choice seen_cats, (fc cat choice seen_cats).result = f cat choice seen_cats)
    (prod : PgfProduction) (choice : GuChoice) (seen_cats : List PgfCCatId) :
    (pgf_production_to_expr_counted fc prod choice seen_cats).result = pgf_production_to_expr f prod choice seen_cats := by
  cases prod with
  | APPLY f args => exact apply_args_result hf _ _ _ _
  | COERCE coerce => exact hf _ _ _

end Rec

theorem cat_to_expr_result (h : Heap P) (fuel : Nat) (cat : PgfCCatId) (choice : GuChoice) (seen_cats : List PgfCCatId) :
    (pgf_cat_to_expr_counted h fuel cat choice seen_cats).result = pgf_cat_to_expr h fuel cat choice seen_cats := by
  induction fuel generalizing cat choice seen_cats with
  | zero => rfl
  | succ fuel ih =>
    unfold pgf_cat_to_expr_counted pgf_cat_to_expr
    split
    · rfl
    · simp only [Noted.result_bind, Noted.result_lift]
      refine bind_congr fun ccat => bind_congr fun isBuf => ?_
      cases isBuf with
      | false => rfl
      | true =>
        simp only [Bool.not_true, Bool.false_eq_true, if_false, Noted.result_bind, choice_next_result]
        refine bind_congr fun r => ?_
        rcases r with ⟨_ | i, choice'⟩
        · rfl
        · simp only [Noted.result_bind, Noted.result_lift]
          exact bind_congr fun prod => production_to_expr_result ih _ _ _

theorem result_loop_result (h : Heap P) (fuel n : Nat) (pr : PgfParseResult) :
    (pgf_parse_result_loop_counted h fuel n pr).result = pgf_parse_result_loop h fuel n pr := by
  induction n generalizing pr with
  | zero => rfl
  | succ n ih =>
    simp only [pgf_parse_result_loop_counted, pgf_parse_result_loop, Noted.result_bind, Noted.result_lift, choice_next_result]
    refine bind_congr fun choice => bind_congr fun mark => bind_congr fun r => ?_
    rcases r with ⟨_ | i, choice'⟩
    · rfl
    · simp only [Noted.result_bind, Noted.result_lift, cat_to_expr_result]
      refine bind_congr fun cat => bind_congr fun r => bind_congr fun choice₁ => bind_congr fun adv => ?_
      rcases r with ⟨⟨_ | ret, _⟩, _⟩
      · exact ih _
      · rfl

theorem result_next_result (h : Heap P) (fuel : Nat) (pr : PgfParseResult) :
    (pgf_parse_result_next_counted h fuel pr).result = pgf_parse_result_next h fuel pr := by
  unfold pgf_parse_result_next_counted pgf_parse_result_next
  cases pr.choice with
  | none => rfl
  | some choice => exact result_loop_result h fuel fuel pr

theorem pick_supercat_result (lzr : PgfLzr) (fuel : Nat) (cat : PgfCCatId) (choice : GuChoice) :
    (pgf_lzn_pick_supercat_counted lzr fuel cat choice).result = pgf_lzn_pick_supercat lzr fuel cat choice := by
  induction fuel generalizing cat choice with
  | zero => rfl
  | succ fuel ih =>
    unfold pgf_lzn_pick_supercat_counted pgf_lzn_pick_supercat
    cases lzr.coerce_idx cat with
    | none => rfl
    | some supers =>
      simp only [Noted.result_bind, choice_next_result]
      refine bind_congr fun r => ?_
      rcases r with ⟨_ | _ | ch, choice'⟩
      · rfl
      · rfl
      · simp only [Noted.result_bind, Noted.result_lift]
        exact bind_congr fun cat => ih _ _

section Rec
variable {lzr : PgfLzr} {fuel : Nat} {infer : PgfExpr → GuChoice → Exec (Option (PgfCCatId × PgfCncTree) × GuChoice)}
  {inferc : PgfExpr → GuChoice → Counted (Option (PgfCCatId × PgfCncTree) × GuChoice)}

theorem infer_arg_result (hinfer : ∀ expr choice, (inferc expr choice).result = infer expr choice) (arg_expr : PgfExpr)
    (choice : GuChoice) : (infer_arg_counted lzr fuel inferc arg_expr choice).result = infer_arg lzr fuel infer arg_expr choice := by
  simp only [infer_arg_counted, infer_arg, Noted.result_bind, hinfer]
  refine bind_congr fun r => ?_
  rcases r with ⟨_ | arg_i, choice'⟩
  · rfl
  · simp only [Noted.result_bind, pick_supercat_result]
    rfl

theorem infer_apply_args_result (hinfer : ∀ expr choice, (inferc expr choice).result = infer expr choice) (args : List PgfExpr)
    (t : PgfTrial) (choice : GuChoice) :
    (infer_apply_args_counted lzr fuel inferc args t choice).result = infer_apply_args lzr fuel infer args t choice := by
  induction args generalizing t choice with
  | nil => rfl
  | cons arg_expr args ih =>
    simp only [infer_apply_args_counted, infer_apply_args, Noted.result_bind, infer_arg_result hinfer]
    refine bind_congr fun r => ?_
    rcases r with ⟨_ | arg_i, choice'⟩
    · rfl
    · simp only [Noted.result_bind, Noted.result_lift]
      exact bind_congr fun mark => ih _ _

theorem infer_apply_try_result (hinfer : ∀ expr choice, (inferc expr choice).result = infer expr choice) (args : List PgfExpr)
    (infer_map : PgfInferMap) (t : PgfTrial) (choice : GuChoice) :
    (pgf_lzn_infer_apply_try_counted lzr fuel inferc args infer_map t choice).result =
      pgf_lzn_infer_apply_try lzr fuel infer args infer_map t choice := by
  simp only [pgf_lzn_infer_apply_try_counted, pgf_lzn_infer_apply_try, Noted.result_bind, infer_apply_args_result hinfer]
  refine bind_congr fun r => ?_
  rcases r with ⟨_ | _, t', choice'⟩
  · rfl
  · simp only [Bool.not_true, Bool.false_eq_true, if_false]
    cases infer_map t'.arg_cats with
    | none => rfl
    | some entries =>
      simp only [Noted.result_bind, choice_next_result]
      refine bind_congr fun r => ?_
      rcases r with ⟨_ | e, choice''⟩
      · rfl
      · simp only [Noted.result_bind, Noted.result_lift]
        rfl

theorem infer_application_loop_result (hinfer : ∀ expr choice, (inferc expr choice).result = infer expr choice) (args : List PgfExpr)
    (infer_map : PgfInferMap) (n : Nat) (t : PgfTrial) (choice : GuChoice) :
    (infer_application_loop_counted lzr fuel inferc args infer_map n t choice).result =
      infer_application_loop lzr fuel infer args infer_map n t choice := by
  induction n generalizing t choice with
  | zero => rfl
  | succ n ih =>
    simp only [infer_application_loop_counted, infer_application_loop, Noted.result_bind, infer_apply_try_result hinfer]
    refine bind_congr fun r => ?_
    rcases r with ⟨_ | entry, t', choice'⟩
    · simp only [Noted.result_bind, Noted.result_lift]
      refine bind_congr fun r => ?_
      rcases r with ⟨_ | t'', choice''⟩
      · rfl
      · exact ih _ _
    · rfl

theorem infer_application_result (hinfer : ∀ expr choice, (inferc expr choice).result = infer expr choice) (fun_ : PgfCId)
    (args : List PgfExpr) (choice : GuChoice) :
    (pgf_lzn_infer_application_counted lzr fuel inferc fun_ args choice).result =
      pgf_lzn_infer_application lzr fuel infer fun_ args choice := by
  unfold pgf_lzn_infer_application_counted pgf_lzn_infer_application
  cases lzr.fun_indices fun_ with
  | none => rfl
  | some infer_map =>
    simp only [Noted.result_bind, Noted.result_lift, infer_application_loop_result hinfer]

end Rec

theorem infer_result (lzr : PgfLzr) (fuel : Nat) (expr : PgfExpr) (choice : GuChoice) :
    (pgf_lzn_infer_counted lzr fuel expr choice).result = pgf_lzn_infer lzr fuel expr choice := by
  induction fuel generalizing expr choice with
  | zero => rfl
  | succ fuel ih =>
    simp only [pgf_lzn_infer_counted, pgf_lzn_infer, Noted.result_bind, Noted.result_lift]
    refine bind_congr fun appl => ?_
    cases appl with
    | none =>
      simp only
      cases pgf_expr_unwrap expr <;> rfl
    | some appl =>
      simp only
      cases appl.fun_ with
      | FUN fun_ => exact infer_application_result ih _ _ _
      | _ => rfl

theorem next_loop_result (lzr : PgfLzr) (fuel : Nat) (expr : PgfExpr) (mark : GuChoiceMark) (n : Nat) (choice : GuChoice) :
    (lzn_next_loop_counted lzr fuel expr mark n choice).result = lzn_next_loop lzr fuel expr mark n choice := by
  induction n generalizing choice with
  | zero => rfl
  | succ n ih =>
    simp only [lzn_next_loop_counted, lzn_next_loop, Noted.result_bind, Noted.result_lift, infer_result]
    refine bind_congr fun r => bind_congr fun choice' => ?_
    rcases r with ⟨_ | r, _⟩
    · simp only [Noted.result_bind, Noted.result_lift]
      refine bind_congr fun adv => ?_
      rcases adv with ⟨_ | _, choice''⟩
      · rfl
      · exact ih _
    · rfl

theorem lzn_next_result (lzr : PgfLzr) (fuel : Nat) (lzn : PgfLzn) :
    (pgf_lzn_next_counted lzr fuel lzn).result = pgf_lzn_next lzr fuel lzn := by
  unfold pgf_lzn_next_counted pgf_lzn_next
  cases lzn.expr with
  | none => rfl
  | some expr =>
    simp only [Noted.result_bind, Noted.result_lift, next_loop_result]
    refine bind_congr fun mark => bind_congr fun r => ?_
    rcases r with ⟨_ | cat, ch⟩
    · rfl
    · simp only [Noted.result_bind, Noted.result_lift, infer_result]
      rfl

end Libpgf
