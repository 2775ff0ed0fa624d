import Libpgf.Pgf.Counts
import Libpgf.Pgf.Emission
import Libpgf.Pgf.Enumerations
/-!
# Choices that fit

`gu_choice_next` takes at most 255 alternatives. Nothing bounds the numbers that
it is given: those of the parse results come from the completed categories and
the productions of the chart, and those of the concrete trees from the index of
the grammar. In enumerations that meet no larger number every call fits.
-/

namespace Libpgf

open GuChoice

variable {P : PgfParser}

/-! ## Parse results -/

/-- From a category, where those in the list have been met, a walk comes to choose among the productions of `target`. -/
inductive Heap.ComesTo (h : Heap P) (target : PgfCCatId) : PgfCCatId → List PgfCCatId → Prop
  | here {seen} : target ∉ seen → ComesTo h target target seen
  | through {c seen ccat ps p i parg ds} : c ∉ seen → h.ccats[c]? = some ccat → ccat.prods = .buf ps → p ∈ ps →
      (prod_args p)[i]? = some parg → (∀ q ∈ (prod_args p).take (i + 1), q.hypos = []) → h.Derivations ((prod_args p).take i) ds →
      Fresh (c :: seen) (Deriv.catss ds) → ComesTo h target parg.ccat ((Deriv.catss ds).reverse ++ c :: seen) → ComesTo h target c seen

/-- Where a walk from the category chooses a production there are at most 255 of them. -/
def Heap.WalkFits (h : Heap P) (c : PgfCCatId) (seen : List PgfCCatId) : Prop :=
  ∀ target, h.ComesTo target c seen → ∀ ccat ps, h.ccats[target]? = some ccat → ccat.prods = .buf ps → ps.length ≤ 255

/-- There are at most 255 completed categories, and the walks from them fit. -/
def Heap.ResultFits (h : Heap P) (completed : List PgfCCatId) : Prop :=
  completed.length ≤ 255 ∧ ∀ c ∈ completed, h.WalkFits c []

/-- The states of the enumeration of a parse state. -/
inductive PgfParseResult.Reached (h : Heap P) (parse : PgfParse) : PgfParseResult → Prop
  | start : Reached h parse (pgf_parse_result parse)
  | next {fuel : Nat} {pr pr' : PgfParseResult} {expr : Option PgfExpr} :
    Reached h parse pr → pgf_parse_result_next h fuel pr = .ok (expr, pr') → Reached h parse pr'

section Walks
variable {h : Heap P}

/-- The arguments of a production, each after derivations of those before it. -/
theorem apply_args_fit {fuel : Nat}
    (hrec : ∀ c choice seen, h.WalkFits c seen → (pgf_cat_to_expr_counted h fuel c choice seen).All (· ≤ 255))
    {args : List PgfPArg} {expr : PgfExpr} {choice : GuChoice} {seen : List PgfCCatId}
    (hfit : ∀ i parg ds, args[i]? = some parg → (∀ q ∈ args.take (i + 1), q.hypos = []) → h.Derivations (args.take i) ds →
      Fresh seen (Deriv.catss ds) → h.WalkFits parg.ccat ((Deriv.catss ds).reverse ++ seen)) :
    (apply_args_counted (pgf_cat_to_expr_counted h fuel) args expr choice seen).All (· ≤ 255) := by
  induction args generalizing expr choice seen with
  | nil => exact Noted.all_pure _
  | cons parg args ih =>
    rw [apply_args_counted, Noted.all_lift_bind]
    intro _ hhypos
    rw [Exec.require_ok] at hhypos
    have hhead : h.WalkFits parg.ccat seen := hfit 0 parg [] rfl (by simpa using hhypos) (.nil h) (by simp [Fresh, Deriv.catss])
    rw [Noted.all_bind]
    refine ⟨hrec _ _ _ hhead, ?_⟩
    rintro ⟨⟨_ | earg, seen'⟩, choice'⟩ hres
    · exact Noted.all_pure _
    · rw [cat_to_expr_result, cat_to_expr_run] at hres
      obtain ⟨⟨⟨d, seen₁⟩, choice₁⟩, hrun, he⟩ := Exec.bind_ok.1 hres
      simp only [Except.ok.injEq, Prod.mk.injEq, Option.map_eq_some_iff] at he
      obtain ⟨⟨⟨d, rfl, -⟩, rfl⟩, rfl⟩ := he
      obtain ⟨hder, hfresh, rfl⟩ := walk_sound (run_mem_leaves hrun)
      refine ih fun i q ds hq hhyps hders hfr => ?_
      have hnext := hfit (i + 1) q (d :: ds) hq ?_ (hders.cons hder) ?_
      · simpa [Deriv.catss] using hnext
      · intro q' hq'
        rw [List.take_succ_cons, List.mem_cons] at hq'
        rcases hq' with rfl | hq'
        · exact hhypos
        · exact hhyps q' hq'
      · exact hfresh.append hfr

theorem cat_to_expr_fit {fuel : Nat} {c : PgfCCatId} {choice : GuChoice} {seen : List PgfCCatId} (hfit : h.WalkFits c seen) :
    (pgf_cat_to_expr_counted h fuel c choice seen).All (· ≤ 255) := by
  induction fuel generalizing c choice seen with
  | zero => exact Noted.all_lift _
  | succ fuel ih =>
    unfold pgf_cat_to_expr_counted
    split
    · exact Noted.all_pure _
    rename_i hseen
    rw [Noted.all_lift_bind]
    intro ccat hccat
    rw [Exec.deref_ok] at hccat
    rw [Noted.all_lift_bind]
    intro isBuf hbuf
    cases hprods : ccat.prods with
    | null =>
      rw [hprods] at hbuf
      cases hbuf
    | seq ps =>
      rw [hprods] at hbuf
      cases hbuf
      exact Noted.all_pure _
    | buf ps =>
      rw [hprods] at hbuf
      cases hbuf
      simp only [Bool.not_true, Bool.false_eq_true, if_false, PgfProductions.elems]
      rw [Noted.all_bind]
      refine ⟨choice_next_all (hfit c (.here hseen) ccat ps hccat hprods), ?_⟩
      rintro ⟨_ | i, choice'⟩ -
      · exact Noted.all_pure _
      · simp only
        rw [Noted.all_lift_bind]
        intro prod hprod
        rw [Exec.deref_ok] at hprod
        -- the walks from the arguments are parts of walks from the category
        have hbelow : ∀ i parg ds, (prod_args prod)[i]? = some parg → (∀ q ∈ (prod_args prod).take (i + 1), q.hypos = []) →
            h.Derivations ((prod_args prod).take i) ds → Fresh (c :: seen) (Deriv.catss ds) →
            h.WalkFits parg.ccat ((Deriv.catss ds).reverse ++ c :: seen) := by
          intro i parg ds hi hhypos hders hfresh target hcomes
          exact hfit target (.through hseen hccat hprods (List.mem_of_getElem? hprod) hi hhypos hders hfresh hcomes)
        cases prod with
        | APPLY f args => exact apply_args_fit (fun c choice seen => ih) hbelow
        | COERCE coerce => exact ih (hbelow 0 ⟨[], coerce⟩ [] rfl (by simp [prod_args]) (.nil h) (by simp [Fresh, Deriv.catss]))

theorem result_loop_fit {fuel n : Nat} {pr : PgfParseResult} (hfit : h.ResultFits pr.completed) :
    (pgf_parse_result_loop_counted h fuel n pr).All (· ≤ 255) := by
  induction n generalizing pr with
  | zero => exact Noted.all_lift _
  | succ n ih =>
    unfold pgf_parse_result_loop_counted
    rw [Noted.all_lift_bind]
    intro choice _
    rw [Noted.all_lift_bind]
    intro mark _
    rw [Noted.all_bind]
    refine ⟨choice_next_all hfit.1, ?_⟩
    rintro ⟨_ | i, choice'⟩ -
    · exact Noted.all_pure _
    · simp only
      rw [Noted.all_lift_bind]
      intro cat hcat
      rw [Exec.deref_ok] at hcat
      rw [Noted.all_bind]
      refine ⟨cat_to_expr_fit (hfit.2 cat (List.mem_of_getElem? hcat)), ?_⟩
      rintro ⟨⟨ret, _⟩, choice₁⟩ -
      simp only
      rw [Noted.all_lift_bind]
      intro choice₂ _
      rw [Noted.all_lift_bind]
      rintro ⟨more, choice₃⟩ _
      cases ret with
      | some ret => exact Noted.all_pure _
      | none => exact ih hfit

theorem result_loop_completed {fuel n : Nat} {pr pr' : PgfParseResult} {expr : Option PgfExpr}
    (hr : pgf_parse_result_loop h fuel n pr = .ok (expr, pr')) : pr'.completed = pr.completed := by
  induction n generalizing pr with
  | zero => cases hr
  | succ n ih =>
    unfold pgf_parse_result_loop at hr
    obtain ⟨choice, -, hr⟩ := Exec.bind_ok.1 hr
    obtain ⟨mark, -, hr⟩ := Exec.bind_ok.1 hr
    obtain ⟨⟨i, choice₁⟩, -, hr⟩ := Exec.bind_ok.1 hr
    cases i with
    | none =>
      simp only [Exec.pure_eq, Except.ok.injEq, Prod.mk.injEq] at hr
      rw [← hr.2]
    | some i =>
      obtain ⟨cat, -, hr⟩ := Exec.bind_ok.1 hr
      obtain ⟨⟨⟨ret, seen⟩, choice₂⟩, -, hr⟩ := Exec.bind_ok.1 hr
      obtain ⟨choice₃, -, hr⟩ := Exec.bind_ok.1 hr
      obtain ⟨⟨more, choice₄⟩, -, hr⟩ := Exec.bind_ok.1 hr
      cases ret with
      | none =>
        have hrest : pgf_parse_result_loop h fuel n ⟨pr.completed, if more = true then some choice₄ else none⟩ = .ok (expr, pr') := hr
        have hsame := ih hrest
        exact hsame
      | some ret =>
        simp only [Exec.pure_eq, Except.ok.injEq, Prod.mk.injEq] at hr
        rw [← hr.2]

theorem PgfParseResult.Reached.completed {parse : PgfParse} {pr : PgfParseResult} (hr : pr.Reached h parse) :
    pr.completed = parse.completed := by
  induction hr with
  | start => rfl
  | @next fuel pr pr' expr _ hn ih =>
    rw [← ih]
    unfold pgf_parse_result_next at hn
    split at hn
    · simp only [Except.ok.injEq, Prod.mk.injEq] at hn
      rw [hn.2]
    · exact result_loop_completed hn

theorem parse_result_fit {parse : PgfParse} (hfit : h.ResultFits parse.completed) {pr : PgfParseResult} (hr : pr.Reached h parse)
    (fuel : Nat) : (pgf_parse_result_next_counted h fuel pr).All (· ≤ 255) := by
  unfold pgf_parse_result_next_counted
  split
  · exact Noted.all_pure _
  · exact result_loop_fit (hr.completed ▸ hfit)

end Walks

/-! ## Concrete trees -/

section Fits
variable (l : Listing) (literal_cat : PgfLiteral → PgfCCatId)

mutual

/-- Where the inference of an expression makes a choice there are at most 255 alternatives. -/
def InferFits : Spine → Prop
  | .app f args => l.any (hasFun f) = true → TailFits f args []
  | .lit _ => True
  | .other => True

/-- The same for the arguments that are left, when those before them have gone up to `cats`. -/
def TailFits (f : PgfCId) : List Spine → List PgfCCatId → Prop
  | [], cats => (l.select (entryOf f cats)).length ≤ 255
  | s :: ss, cats => InferFits s ∧ ∀ c d xs a, Infers l.Has literal_cat s c d → Chain l.Has c xs a →
      (l.select (superOf a)).length + 1 ≤ 255 ∧ TailFits f ss (cats ++ [a])

end

end Fits

section Inference
variable {lzr : PgfLzr} {l : Listing} {literal_cat : PgfLiteral → PgfCCatId} {fuel : Nat}

theorem TailFits.after {f : PgfCId} {ss : List Spine} {cats : List PgfCCatId} (h : TailFits l literal_cat f ss cats) {as : List Arg}
    (has : ∀ (i : Nat) a, as[i]? = some a → ∃ s, ss[i]? = some s ∧ a.Of l literal_cat s) :
    TailFits l literal_cat f (ss.drop as.length) (cats ++ as.map Arg.cat) := by
  induction as generalizing ss cats with
  | nil => simpa using h
  | cons a as ih =>
    obtain ⟨s, hs, c, hd, hchain⟩ := has 0 a rfl
    cases ss with
    | nil => cases hs
    | cons s' ss =>
      obtain rfl : s' = s := Option.some.inj hs
      rw [TailFits] at h
      have hrest := ih (h.2 c _ _ _ hd hchain).2 fun i b hb => has (i + 1) b hb
      simpa using hrest

/-- Wherever a trial stands, what is left of it fits. -/
theorem PgfTrial.Holds.fits {f : PgfCId} {args : List PgfExpr} {t : PgfTrial} (ht : t.Holds l literal_cat (spines args))
    (h : TailFits l literal_cat f (spines args) []) : TailFits l literal_cat f (spines (args.drop t.ip)) t.arg_cats := by
  obtain ⟨as, hcats, -, has⟩ := ht
  have hfits := h.after has
  rw [List.nil_append, ← hcats] at hfits
  have hip : t.ip = as.length := by rw [PgfTrial.ip, hcats, List.length_map]
  rw [hip, spines, List.map_drop]
  exact hfits

theorem pick_supercat_fit (hl : Indexed lzr l) {c : PgfCCatId} {choice : GuChoice}
    (hfit : ∀ xs a, Chain l.Has c xs a → (l.select (superOf a)).length + 1 ≤ 255) :
    (pgf_lzn_pick_supercat_counted lzr fuel c choice).All (· ≤ 255) := by
  induction fuel generalizing c choice with
  | zero => exact Noted.all_lift _
  | succ fuel ih =>
    unfold pgf_lzn_pick_supercat_counted
    cases hs : lzr.coerce_idx c with
    | none => exact Noted.all_pure _
    | some supers =>
      simp only
      have hsupers : supers = (l.select (superOf c)).map Prod.snd := mem_bufOf ((hl.supers c).symm.trans hs)
      rw [Noted.all_bind]
      refine ⟨choice_next_all ?_, ?_⟩
      · rw [hsupers, List.length_map]
        exact hfit [] c rfl
      · rintro ⟨_ | _ | k, choice'⟩ -
        · exact Noted.all_lift _
        · exact Noted.all_pure _
        · simp only
          rw [Noted.all_lift_bind]
          intro c' hc'
          rw [Exec.deref_ok] at hc'
          have hmem := List.mem_of_getElem? hc'
          rw [hsupers] at hmem
          obtain ⟨⟨x, c''⟩, hx, rfl⟩ := List.mem_map.1 hmem
          exact ih fun xs a hchain => hfit (x :: xs) a ⟨c'', mem_supers.1 hx, hchain⟩

section Application
variable {infer : PgfExpr → GuChoice → Exec (Option (PgfCCatId × PgfCncTree) × GuChoice)}
  {inferc : PgfExpr → GuChoice → Counted (Option (PgfCCatId × PgfCncTree) × GuChoice)} {args : List PgfExpr} {infer_map : PgfInferMap}
  {f : PgfCId} {t : PgfTrial} {choice : GuChoice}

theorem infer_arg_fit (hl : Indexed lzr l) (hresult : ∀ expr choice, (inferc expr choice).result = infer expr choice) {e : PgfExpr}
    (he : ReturnsInferred l literal_cat infer e) (hfit : (inferc e choice).All (· ≤ 255))
    (hsupers : ∀ c d xs a, Infers l.Has literal_cat (e.spine []) c d → Chain l.Has c xs a → (l.select (superOf a)).length + 1 ≤ 255) :
    (infer_arg_counted lzr fuel inferc e choice).All (· ≤ 255) := by
  unfold infer_arg_counted
  rw [Noted.all_bind]
  refine ⟨hfit, ?_⟩
  rintro ⟨_ | ⟨c, tree⟩, choice'⟩ hres
  · exact Noted.all_pure _
  · rw [hresult] at hres
    obtain ⟨d, hd, -⟩ := he _ _ _ _ hres
    simp only
    rw [Noted.all_bind]
    exact ⟨pick_supercat_fit hl fun xs a hchain => hsupers c d xs a hd hchain, fun _ _ => Noted.all_pure _⟩

theorem infer_apply_args_fit (hl : Indexed lzr l) (hresult : ∀ expr choice, (inferc expr choice).result = infer expr choice)
    {rest : List PgfExpr} (hrec : ∀ e ∈ rest, ReturnsInferred l literal_cat infer e ∧
      ∀ choice, InferFits l literal_cat (e.spine []) → (inferc e choice).All (· ≤ 255))
    (hfit : TailFits l literal_cat f (spines rest) t.arg_cats) :
    (infer_apply_args_counted lzr fuel inferc rest t choice).All (· ≤ 255) := by
  induction rest generalizing t choice with
  | nil => exact Noted.all_pure _
  | cons e rest ih =>
    simp only [spines, List.map_cons, TailFits] at hfit
    obtain ⟨hret, hall⟩ := hrec e List.mem_cons_self
    unfold infer_apply_args_counted
    rw [Noted.all_bind]
    refine ⟨infer_arg_fit hl hresult hret (hall _ hfit.1) fun c d xs a hd hchain => (hfit.2 c d xs a hd hchain).1, ?_⟩
    rintro ⟨_ | ⟨cat, tree⟩, choice'⟩ hres
    · exact Noted.all_pure _
    · rw [infer_arg_result hresult] at hres
      obtain ⟨a, ⟨c, hd, hchain⟩, rfl, rfl⟩ := infer_arg_of hl hret hres
      simp only
      rw [Noted.all_lift_bind]
      intro mark _
      exact ih (fun e he => hrec e (List.mem_cons_of_mem _ he)) (hfit.2 c _ _ _ hd hchain).2

theorem infer_apply_try_fit (hl : Indexed lzr l) (hresult : ∀ expr choice, (inferc expr choice).result = infer expr choice)
    (hmap : lzr.fun_indices f = some infer_map) (hrec : ∀ e ∈ args, ReturnsInferred l literal_cat infer e ∧
      ∀ choice, InferFits l literal_cat (e.spine []) → (inferc e choice).All (· ≤ 255))
    (ht : t.Holds l literal_cat (spines args)) (hfit : TailFits l literal_cat f (spines args) []) :
    (pgf_lzn_infer_apply_try_counted lzr fuel inferc args infer_map t choice).All (· ≤ 255) := by
  unfold pgf_lzn_infer_apply_try_counted
  rw [Noted.all_bind]
  refine ⟨infer_apply_args_fit hl hresult (fun e he => hrec e (List.mem_of_mem_drop he)) (ht.fits hfit), ?_⟩
  rintro ⟨all, t', choice'⟩ hres
  rw [infer_apply_args_result hresult] at hres
  obtain ⟨ht', hall⟩ := apply_args_holds hl (fun e he => (hrec e he).1) rfl ht hres
  cases all with
  | false => exact Noted.all_pure _
  | true =>
    simp only [Bool.not_true, Bool.false_eq_true, if_false]
    cases hentries : infer_map t'.arg_cats with
    | none => exact Noted.all_pure _
    | some entries =>
      simp only
      -- all arguments have been inferred
      have hentry := ht'.fits hfit
      rw [List.drop_eq_nil_of_le (hall rfl)] at hentry
      rw [hl.entries f infer_map _ hmap] at hentries
      rw [Noted.all_bind]
      refine ⟨choice_next_all ?_, ?_⟩
      · rw [mem_bufOf hentries, List.length_map]
        exact hentry
      · rintro ⟨_ | e, choice''⟩ -
        · exact Noted.all_pure _
        · simp only
          rw [Noted.all_lift_bind]
          exact fun _ _ => Noted.all_pure _

theorem infer_application_loop_fit (hl : Indexed lzr l) (hresult : ∀ expr choice, (inferc expr choice).result = infer expr choice)
    (hmap : lzr.fun_indices f = some infer_map) (hrec : ∀ e ∈ args, ReturnsInferred l literal_cat infer e ∧
      ∀ choice, InferFits l literal_cat (e.spine []) → (inferc e choice).All (· ≤ 255))
    (hfit : TailFits l literal_cat f (spines args) []) {n : Nat} (ht : t.Holds l literal_cat (spines args)) :
    (infer_application_loop_counted lzr fuel inferc args infer_map n t choice).All (· ≤ 255) := by
  induction n generalizing t choice with
  | zero => exact Noted.all_lift _
  | succ n ih =>
    unfold infer_application_loop_counted
    rw [Noted.all_bind]
    refine ⟨infer_apply_try_fit hl hresult hmap hrec ht hfit, ?_⟩
    rintro ⟨ret, t', choice'⟩ hres
    rw [infer_apply_try_result hresult] at hres
    have ht' := (apply_try_of hl (fun e he => (hrec e he).1) hmap ht hres).1
    cases ret with
    | some entry => exact Noted.all_pure _
    | none =>
      simp only
      rw [Noted.all_lift_bind]
      rintro ⟨_ | t'', choice''⟩ hback
      · exact Noted.all_pure _
      · exact ih (back_holds ht' hback)

end Application

theorem infer_fit (hl : Indexed lzr l) {expr : PgfExpr} {choice : GuChoice}
    (hfit : InferFits l (pgf_literal_cat lzr.cnc) (expr.spine [])) : (pgf_lzn_infer_counted lzr fuel expr choice).All (· ≤ 255) := by
  induction fuel generalizing expr choice with
  | zero => exact Noted.all_lift _
  | succ fuel ih =>
    rw [pgf_lzn_infer_counted, unapply_eq, Noted.all_lift_bind]
    intro appl happl
    cases happ : expr.unapplied [] with
    | none =>
      rw [happ, Except.ok.injEq] at happl
      subst happl
      simp only [Option.map_none]
      cases pgf_expr_unwrap expr <;> exact Noted.all_pure _
    | some r =>
      obtain ⟨f, args⟩ := r
      rw [happ, Except.ok.injEq] at happl
      subst happl
      have hspine : expr.spine [] = .app f (spines args) := spine_unapplied happ
      rw [hspine, InferFits] at hfit
      simp only [Option.map_some, pgf_lzn_infer_application_counted]
      cases hmap : lzr.fun_indices f with
      | none => exact Noted.all_pure _
      | some infer_map =>
        have hknown : l.any (hasFun f) = true := by
          rw [← Bool.not_eq_false, ← hl.known f, hmap]
          simp
        simp only
        rw [Noted.all_lift_bind]
        intro mark _
        exact infer_application_loop_fit hl (infer_result lzr fuel) hmap
          (fun e _ => ⟨infer_returns hl fuel e, fun choice hfits => ih hfits⟩) (hfit hknown) (.start _)

theorem next_loop_fit (hl : Indexed lzr l) {expr : PgfExpr} {mark : GuChoiceMark} {n : Nat} {choice : GuChoice}
    (hfit : InferFits l (pgf_literal_cat lzr.cnc) (expr.spine [])) : (lzn_next_loop_counted lzr fuel expr mark n choice).All (· ≤ 255) := by
  induction n generalizing choice with
  | zero => exact Noted.all_lift _
  | succ n ih =>
    unfold lzn_next_loop_counted
    rw [Noted.all_bind]
    refine ⟨infer_fit hl hfit, ?_⟩
    rintro ⟨cat, choice₁⟩ -
    simp only
    rw [Noted.all_lift_bind]
    intro choice₂ _
    cases cat with
    | some cat => exact Noted.all_pure _
    | none =>
      simp only
      rw [Noted.all_lift_bind]
      rintro ⟨_ | _, choice₃⟩ _
      · exact Noted.all_pure _
      · exact ih

theorem lzn_next_fit (hl : Indexed lzr l) {expr : PgfExpr} (hfit : InferFits l (pgf_literal_cat lzr.cnc) (expr.spine [])) {lzn : PgfLzn}
    (hr : lzn.Reached lzr expr) (fuel : Nat) : (pgf_lzn_next_counted lzr fuel lzn).All (· ≤ 255) := by
  unfold pgf_lzn_next_counted
  cases hexpr : lzn.expr with
  | none => exact Noted.all_pure _
  | some e =>
    obtain rfl := hr.expr hexpr
    simp only
    rw [Noted.all_lift_bind]
    intro mark _
    rw [Noted.all_bind]
    refine ⟨next_loop_fit hl hfit, ?_⟩
    rintro ⟨_ | cat, ch⟩ -
    · exact Noted.all_pure _
    · simp only
      rw [Noted.all_bind]
      refine ⟨infer_fit hl hfit, ?_⟩
      rintro ⟨cat2, ch₁⟩ -
      simp only
      rw [Noted.all_lift_bind]
      intro _ _
      rw [Noted.all_lift_bind]
      intro ch₂ _
      rw [Noted.all_lift_bind]
      rintro ⟨more, ch₃⟩ _
      exact Noted.all_pure _

end Inference

/-! ## Enumerations that end -/

theorem le_of_safe_choice {n : Nat} (h : Safe (choice n)) : n ≤ 255 := by
  by_contra hn
  refine h .abort ?_
  rw [leaves_choice, if_neg (by omega), if_neg hn]
  exact List.mem_singleton_self _

section Safe
variable {h : Heap P}

/-- Where no walk through the arguments stops, none from an argument does, after derivations of those before it. -/
theorem walkArgs_safe {fuel : Nat} {args : List PgfPArg} {seen : List PgfCCatId} (hsafe : Safe (walkArgs (walk h fuel) args seen))
    {i : Nat} {parg : PgfPArg} (hi : args[i]? = some parg) (hhypos : ∀ q ∈ args.take (i + 1), q.hypos = []) {ds : List Deriv}
    (hds : h.Derivations (args.take i) ds) (hfresh : Fresh seen (Deriv.catss ds)) :
    Safe (walk h fuel parg.ccat ((Deriv.catss ds).reverse ++ seen)) := by
  induction args generalizing i ds seen with
  | nil => cases hi
  | cons q args ih =>
    rw [walkArgs, if_pos (hhypos q (by simp)), safe_andThen] at hsafe
    cases i with
    | zero =>
      obtain rfl : q = parg := Option.some.inj hi
      obtain rfl := List.length_eq_zero_iff.1 hds.1
      exact hsafe.1
    | succ i =>
      cases ds with
      | nil =>
        have hlen := hds.1
        simp at hlen
      | cons d ds =>
        obtain ⟨hd, hrest⟩ := hfresh.of_append
        have hleaf := walk_complete (hds.2 0 q d rfl rfl) hsafe.1 hd
        have htail := ih (safe_andThen.1 (hsafe.2 _ hleaf)).1 hi (fun q' hq' => hhypos q' (List.mem_cons_of_mem _ hq'))
          ⟨Nat.succ.inj hds.1, fun j => hds.2 (j + 1)⟩ hrest
        simpa [Deriv.catss] using htail

theorem safe_walkFits {fuel : Nat} {c : PgfCCatId} {seen : List PgfCCatId} (hsafe : Safe (walk h fuel c seen)) : h.WalkFits c seen := by
  intro target hcomes
  induction hcomes generalizing fuel with
  | @here seen hseen =>
    intro ccat ps hcc hps
    cases fuel with
    | zero => exact absurd (List.mem_singleton_self _) (hsafe .fuel)
    | succ fuel =>
      simp only [walk, if_neg hseen, hcc, hps] at hsafe
      exact le_of_safe_choice (safe_andThen.1 hsafe).1
  | @through c seen ccat ps p i parg ds hseen hcc hps hp hi hhypos hds hfresh _ ih =>
    cases fuel with
    | zero => exact absurd (List.mem_singleton_self _) (hsafe .fuel)
    | succ fuel =>
      simp only [walk, if_neg hseen, hcc, hps] at hsafe
      obtain ⟨hchoice, hsafe⟩ := safe_andThen.1 hsafe
      obtain ⟨n, hn⟩ := List.getElem?_of_mem hp
      have hsafe := hsafe _ (mem_choice hchoice (List.getElem?_eq_some_iff.1 hn).1)
      simp only [hn] at hsafe
      exact ih (walkArgs_safe (safe_andThen.1 hsafe).1 hi hhypos hds hfresh)

theorem safe_resultFits {completed : List PgfCCatId} (hsafe : Safe (h.walks completed)) : h.ResultFits completed := by
  obtain ⟨hchoice, hsafe⟩ := safe_andThen.1 hsafe
  refine ⟨le_of_safe_choice hchoice, fun c hc => ?_⟩
  obtain ⟨k, hk⟩ := List.getElem?_of_mem hc
  have hsafe := hsafe _ (mem_choice hchoice (List.getElem?_eq_some_iff.1 hk).1)
  simp only [hk] at hsafe
  exact safe_walkFits (safe_andThen.1 hsafe).1

end Safe

theorem Ending.safe {α : Type} {s : Search (Exec (Option α))} (h : Ending s.runs) : Safe s := by
  intro e he
  obtain ⟨r, hr, he⟩ := List.mem_map.1 he
  rcases h with hnone | huncut
  · rw [hnone r hr] at he
    cases he
  · obtain ⟨o, ho⟩ := huncut.1 r hr
    rw [ho] at he
    cases he

section Safe
variable {l : Listing} {literal_cat : PgfLiteral → PgfCCatId} {depth : Nat} {rank : PgfCCatId → Nat}

theorem safe_supers {c a : PgfCCatId} {xs : List Nat} (hr : Ranked l rank) (hd : rank c < depth) (hsafe : Safe (superTree l depth c))
    (hchain : Chain l.Has c xs a) : (l.select (superOf a)).length + 1 ≤ 255 := by
  induction xs generalizing depth c with
  | nil =>
    obtain rfl : c = a := hchain
    cases depth with
    | zero => omega
    | succ depth =>
      unfold superTree at hsafe
      cases hs : l.select (superOf c) with
      | nil => simp
      | cons s ss =>
        simp only [hs] at hsafe
        exact le_of_safe_choice (safe_andThen.1 hsafe).1
  | cons x xs ih =>
    obtain ⟨c', hx, hchain⟩ := hchain
    cases depth with
    | zero => omega
    | succ depth =>
      have hmem := mem_supers.2 hx
      have hlt := hr c _ hmem
      unfold superTree at hsafe
      cases hs : l.select (superOf c) with
      | nil => simp [hs] at hmem
      | cons s ss =>
        rw [hs] at hmem
        simp only [hs] at hsafe
        obtain ⟨hchoice, hsafe⟩ := safe_andThen.1 hsafe
        obtain ⟨k, hk⟩ := List.getElem?_of_mem hmem
        have hkl : k < ss.length + 1 := (List.getElem?_eq_some_iff.1 hk).1
        have hsafe := hsafe _ (mem_choice hchoice (show k + 1 < ss.length + 2 by omega))
        simp only [hk] at hsafe
        exact ih (by simp only at hlt; omega) (safe_andThen.1 hsafe).1 hchain

mutual

theorem safe_inferFits (hr : Ranked l rank) (hd : ∀ c, rank c < depth) : (s : Spine) → Safe (inferTree l depth literal_cat s) →
    InferFits l literal_cat s
  | .app f ss, hsafe => by
    rw [InferFits]
    intro hany
    rw [inferTree, if_pos hany] at hsafe
    exact safe_tailFits hr hd ss f [] hsafe
  | .lit lit, _ => by
    rw [InferFits]
    trivial
  | .other, _ => by
    rw [InferFits]
    trivial

theorem safe_tailFits (hr : Ranked l rank) (hd : ∀ c, rank c < depth) : (ss : List Spine) → (f : PgfCId) → (done : List Arg) →
    Safe (tailTree l depth literal_cat f ss done) → TailFits l literal_cat f ss (done.map Arg.cat)
  | [], f, done, hsafe => by
    rw [tailTree] at hsafe
    exact le_of_safe_choice (safe_andThen.1 hsafe).1
  | s :: ss, f, done, hsafe => by
    rw [tailTree] at hsafe
    obtain ⟨hstage, htail⟩ := safe_andAlso.1 hsafe
    obtain ⟨hinfer, hsuper⟩ := safe_andAlso.1 hstage
    rw [TailFits]
    refine ⟨safe_inferFits hr hd s hinfer, fun c d xs a hinfers hchain => ?_⟩
    have hleaf := infer_complete hr hd s hinfer hinfers
    refine ⟨safe_supers hr (hd c) (safe_andThen.1 (hsuper _ hleaf)).1 hchain, ?_⟩
    have hrest := safe_tailFits hr hd ss f (done ++ [⟨a, xs, d⟩]) (htail _ (stage_complete hr hd hstage hleaf hchain))
    rwa [List.map_append] at hrest

end

end Safe

/-! ## The calls of the enumerations -/

/-- In every enumeration of parse results from a state that fits, and of the concrete trees of an expression that fits, no call
of `gu_choice_next` is given more than 255 alternatives. An enumeration that ends does fit. -/
theorem choice_counts_fit (h : Heap P) (parse : PgfParse) {cnc : PgfConcr} {lzr : PgfLzr} (hlzr : pgf_new_lzr cnc = .ok lzr)
    (expr : PgfExpr) :
    (h.ResultFits parse.completed → ∀ pr : PgfParseResult, pr.Reached h parse → ∀ fuel,
      (pgf_parse_result_next_counted h fuel pr).All (· ≤ 255)) ∧
    (InferFits cnc.listing (pgf_literal_cat cnc) (expr.spine []) → ∀ lzn : PgfLzn, lzn.Reached lzr expr → ∀ fuel,
      (pgf_lzn_next_counted lzr fuel lzn).All (· ≤ 255)) ∧
    (h.ResultEnds parse → h.ResultFits parse.completed) ∧
    (cnc.Acyclic → lzr.ConcretizeEnds expr → InferFits cnc.listing (pgf_literal_cat cnc) (expr.spine [])) := by
  obtain ⟨rfl, hl⟩ := new_lzr_indexed hlzr
  refine ⟨fun hfit pr hr => parse_result_fit hfit hr, fun hfit lzn hr => lzn_next_fit hl hfit hr, fun hends => ?_, fun hacyc hends => ?_⟩
  · exact safe_resultFits ((h.resultEnds_iff parse).1 hends).safe
  · exact safe_inferFits hacyc.ranked lzr.cnc.height_lt _ ((PgfLzr.concretizeEnds_iff hlzr hacyc expr).1 hends).safe

theorem Heap.resultFits_of_lengths {h : Heap P} {completed : List PgfCCatId} (hlen : completed.length ≤ 255)
    (hprods : ∀ ccat ∈ h.ccats, ccat.prods.elems.length ≤ 255) : h.ResultFits completed := by
  refine ⟨hlen, fun c _ target _ ccat ps hccat hps => ?_⟩
  have hle := hprods ccat (List.mem_of_getElem? hccat)
  rwa [hps] at hle

theorem PgfConcr.SmallChoices.inferFits {cnc : PgfConcr} (hsmall : cnc.SmallChoices) (hacyc : cnc.Acyclic) (s : Spine) :
    InferFits cnc.listing (pgf_literal_cat cnc) s :=
  safe_inferFits hacyc.ranked cnc.height_lt s (infer_safe hsmall (fun c => super_safe hsmall hacyc.ranked (cnc.height_lt c)) s)

/-- A state in which a category is used twice, and an expression whose argument is coerced. -/
theorem choice_counts_fit_twice : ∃ (l : List (Call Twice.parser)) (parse : PgfParse) (lzr : PgfLzr), Session Twice.parser l ∧
    (heapAfter l).parses[1]? = some parse ∧ pgf_new_lzr Chained.concr = .ok lzr ∧
    (∀ pr : PgfParseResult, pr.Reached (heapAfter l) parse → ∀ fuel,
      (pgf_parse_result_next_counted (heapAfter l) fuel pr).All (· ≤ 255)) ∧
    ∀ lzn : PgfLzn, lzn.Reached lzr (.APP (.FUN [102]) (.FUN [97])) → ∀ fuel, (pgf_lzn_next_counted lzr fuel lzn).All (· ≤ 255) := by
  obtain ⟨l, hl, hcheck⟩ := Session.of_check 20 [.parse [83] 0, .token 0 [120]] (fun l : List (Call Twice.parser) =>
    ((heapAfter l).parses[1]?).any fun parse : PgfParse => decide (parse.completed.length ≤ 255) &&
      decide (∀ ccat ∈ (heapAfter l).ccats, ccat.prods.elems.length ≤ 255)) (by decide +kernel)
  obtain ⟨parse, hp, hcheck⟩ := (Option.any_eq_true _ _).1 hcheck
  simp only [Bool.and_eq_true, decide_eq_true_eq] at hcheck
  obtain ⟨hresult, hconcr, -, -⟩ :=
    @choice_counts_fit Twice.parser (heapAfter l) parse Chained.concr _ rfl (.APP (.FUN [102]) (.FUN [97]))
  refine ⟨l, parse, _, hl, hp, rfl, hresult (Heap.resultFits_of_lengths hcheck.1 hcheck.2), hconcr ?_⟩
  exact (PgfConcr.smallChoices_of_length (by decide)).inferFits (PgfConcr.acyclic_of_coercesUp (by decide)) _

namespace Ambiguous

/-- `A → a[]`, 256 times. -/
def ccats : List CCatEntry := [{ fid := 0, prods := List.replicate 256 (.APPLY Chained.a []) }]

def cnccats : List CncCatEntry := [{ cid := [65], first := 0, last := 0, ctnts := [[115]] }]

def concr : PgfConcr where
  ccatMem := [⟨some 0, .seq (List.replicate 256 (.APPLY Chained.a [])), 0⟩]
  cnccatMem := [⟨[65], [some 0], 1, [[115]]⟩]
  cnccats := [([65], 0)]
  extra_ccats := []
  prods_fixed := by decide
  prods_valid := by decide +kernel
  cats_valid := by decide

end Ambiguous

/-- The reader accepts the grammar, and the first call for the expression `a` gives `gu_choice_next` 256 alternatives. -/
theorem choice_overflows : ∃ lzr, Ambiguous.concr.ReadFrom Ambiguous.ccats Ambiguous.cnccats ∧ pgf_new_lzr Ambiguous.concr = .ok lzr ∧
    256 ∈ (pgf_lzn_next_counted lzr 2 (pgf_lzr_concretize (.FUN [97]))).notes ∧
    ¬ (pgf_lzn_next_counted lzr 2 (pgf_lzr_concretize (.FUN [97]))).All (· ≤ 255) := by
  have hcheck : ((pgf_new_lzr Ambiguous.concr).toOption.any fun lzr =>
      decide (256 ∈ (pgf_lzn_next_counted lzr 2 (pgf_lzr_concretize (.FUN [97]))).notes)) = true := by decide +kernel
  cases hlzr : pgf_new_lzr Ambiguous.concr with
  | error e => simp [hlzr, Except.toOption] at hcheck
  | ok lzr =>
    simp only [hlzr, Except.toOption, Option.any_some, decide_eq_true_eq] at hcheck
    refine ⟨lzr, PgfConcr.readFrom_of_check 5 (by decide +kernel), rfl, hcheck, fun hall => ?_⟩
    have hle := hall 256 hcheck
    omega

end Libpgf
