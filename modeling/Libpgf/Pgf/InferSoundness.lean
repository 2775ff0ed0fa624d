import Libpgf.Pgf.Derivations
/-!
# What inference returns

Coercions may run in circles, and choices may stand anywhere: what
`pgf_lzn_infer` returns is the tree of a derivation. The places in the arrays of
an application hold derivations of its arguments, also when it goes back.
-/

namespace Libpgf

open GuChoice

variable {lzr : PgfLzr} {l : Listing} {literal_cat : PgfLiteral → PgfCCatId} {fuel : Nat}

theorem mem_bufOf {α : Type} {as bs : List α} (h : bufOf as = some bs) : bs = as := by
  unfold bufOf at h
  split at h
  · cases h
  · exact (Option.some.inj h).symm

/-- The way up that was picked. -/
theorem pick_chain (hl : Indexed lzr l) {c a : PgfCCatId} {ch ch' : GuChoice}
    (h : pgf_lzn_pick_supercat lzr fuel c ch = .ok (a, ch')) : ∃ xs, Chain l.Has c xs a := by
  induction fuel generalizing c ch with
  | zero => cases h
  | succ fuel ih =>
    unfold pgf_lzn_pick_supercat at h
    cases hs : lzr.coerce_idx c with
    | none =>
      simp only [hs, Except.ok.injEq, Prod.mk.injEq] at h
      exact ⟨[], h.1⟩
    | some supers =>
      simp only [hs] at h
      obtain ⟨⟨k, ch₁⟩, -, h⟩ := Exec.bind_ok.1 h
      rcases k with _ | _ | k
      · cases h
      · simp only [Exec.pure_eq, Except.ok.injEq, Prod.mk.injEq] at h
        exact ⟨[], h.1⟩
      · obtain ⟨c', hc', h⟩ := Exec.bind_ok.1 h
        rw [Exec.deref_ok] at hc'
        obtain ⟨xs, hxs⟩ := ih h
        rw [hl.supers] at hs
        have hmem := List.mem_of_getElem? hc'
        rw [mem_bufOf hs] at hmem
        obtain ⟨⟨x, c''⟩, hx, rfl⟩ := List.mem_map.1 hmem
        exact ⟨x :: xs, c'', mem_supers.1 hx, hxs⟩

/-! ## The arguments of an application -/

/-- A derivation of an argument, with the way up. -/
def Arg.Of (l : Listing) (literal_cat : PgfLiteral → PgfCCatId) (s : Spine) (a : Arg) : Prop :=
  ∃ c, Infers l.Has literal_cat s c a.deriv ∧ Chain l.Has c a.chain a.cat

theorem infersArgs_of : ∀ {ss : List Spine} {as : List Arg}, as.length = ss.length →
    (∀ (i : Nat) a, as[i]? = some a → ∃ s, ss[i]? = some s ∧ a.Of l literal_cat s) →
    InfersArgs l.Has literal_cat ss (as.map Arg.cat) (as.map Arg.chain) (as.map Arg.deriv)
  | [], [], _, _ => trivial
  | s :: ss, a :: as, hlen, h => by
    obtain ⟨s', hs, ha⟩ := h 0 a rfl
    obtain rfl : s = s' := Option.some.inj hs
    exact ⟨ha, infersArgs_of (Nat.succ.inj hlen) fun i b hb => h (i + 1) b hb⟩
  | [], _ :: _, hlen, _ => by cases hlen
  | _ :: _, [], hlen, _ => by cases hlen

/-- The arrays hold derivations of the first arguments. -/
def PgfTrial.Holds (l : Listing) (literal_cat : PgfLiteral → PgfCCatId) (ss : List Spine) (t : PgfTrial) : Prop :=
  ∃ as : List Arg, t.arg_cats = as.map Arg.cat ∧ t.arg_trees = as.map (fun a => a.deriv.tree) ∧
    ∀ (i : Nat) a, as[i]? = some a → ∃ s, ss[i]? = some s ∧ a.Of l literal_cat s

namespace PgfTrial.Holds
variable {ss : List Spine} {t : PgfTrial}

theorem start (marks : List GuChoiceMark) : (⟨marks, [], []⟩ : PgfTrial).Holds l literal_cat ss :=
  ⟨[], rfl, rfl, fun i a h => by simp at h⟩

theorem cut (h : t.Holds l literal_cat ss) (i : Nat) : (t.cut i).Holds l literal_cat ss := by
  obtain ⟨as, hcats, htrees, has⟩ := h
  refine ⟨as.take i, by simp [PgfTrial.cut, hcats], by simp [PgfTrial.cut, htrees], fun j a hj => has j a ?_⟩
  rw [List.getElem?_take] at hj
  split at hj
  · exact hj
  · cases hj

theorem push (h : t.Holds l literal_cat ss) {s : Spine} (hs : ss[t.ip]? = some s) {a : Arg} (ha : a.Of l literal_cat s)
    (mark : GuChoiceMark) : (t.push a.cat a.deriv.tree mark).Holds l literal_cat ss := by
  obtain ⟨as, hcats, htrees, has⟩ := h
  have hip : t.ip = as.length := by rw [PgfTrial.ip, hcats, List.length_map]
  refine ⟨as ++ [a], by simp [PgfTrial.push, hcats], by simp [PgfTrial.push, htrees], fun j b hb => ?_⟩
  rcases Nat.lt_trichotomy j as.length with hlt | rfl | hgt
  · rw [List.getElem?_append_left hlt] at hb
    exact has j b hb
  · rw [List.getElem?_concat_length, Option.some.injEq] at hb
    subst hb
    exact ⟨s, hip ▸ hs, ha⟩
  · rw [List.getElem?_eq_none (by simp; omega)] at hb
    cases hb

theorem infersArgs (h : t.Holds l literal_cat ss) (hip : ss.length ≤ t.ip) :
    ∃ chains ds, InfersArgs l.Has literal_cat ss t.arg_cats chains ds ∧ t.arg_trees = Inferred.trees ds := by
  obtain ⟨as, hcats, htrees, has⟩ := h
  have hlen : as.length = ss.length := by
    rw [PgfTrial.ip, hcats, List.length_map] at hip
    refine Nat.le_antisymm (Nat.le_of_not_lt fun hlt => ?_) hip
    obtain ⟨s, hs, -⟩ := has ss.length _ (List.getElem?_eq_getElem hlt)
    simp at hs
  refine ⟨as.map Arg.chain, as.map Arg.deriv, hcats ▸ infersArgs_of hlen has, ?_⟩
  rw [htrees, Inferred.trees_eq, List.map_map]
  rfl

end PgfTrial.Holds

section Application
variable {infer : PgfExpr → GuChoice → Exec (Option (PgfCCatId × PgfCncTree) × GuChoice)} {args : List PgfExpr}
  {t t' : PgfTrial} {ch ch' : GuChoice}

/-- What inference returns for `e` is a derivation. -/
def ReturnsInferred (l : Listing) (literal_cat : PgfLiteral → PgfCCatId)
    (infer : PgfExpr → GuChoice → Exec (Option (PgfCCatId × PgfCncTree) × GuChoice)) (e : PgfExpr) : Prop :=
  ∀ ch c tree ch', infer e ch = .ok (some (c, tree), ch') →
    ∃ d : Inferred Nat, Infers l.Has literal_cat (e.spine []) c d ∧ d.tree = tree

abbrev spines (args : List PgfExpr) : List Spine := args.map fun arg => arg.spine []

theorem infer_arg_of (hl : Indexed lzr l) {e : PgfExpr} (he : ReturnsInferred l literal_cat infer e) {cat : PgfCCatId} {tree : PgfCncTree}
    (h : infer_arg lzr fuel infer e ch = .ok (some (cat, tree), ch')) :
    ∃ a : Arg, a.Of l literal_cat (e.spine []) ∧ a.cat = cat ∧ a.deriv.tree = tree := by
  obtain ⟨⟨r, ch₁⟩, h₁, h⟩ := Exec.bind_ok.1 h
  cases r with
  | none => cases h
  | some r =>
    obtain ⟨c, tree'⟩ := r
    obtain ⟨⟨a, ch₂⟩, h₂, h⟩ := Exec.bind_ok.1 h
    simp only [Exec.pure_eq, Except.ok.injEq, Prod.mk.injEq, Option.some.injEq] at h
    obtain ⟨⟨rfl, rfl⟩, rfl⟩ := h
    obtain ⟨d, hd, rfl⟩ := he _ _ _ _ h₁
    obtain ⟨xs, hxs⟩ := pick_chain hl h₂
    exact ⟨⟨a, xs, d⟩, ⟨c, hd, hxs⟩, rfl, rfl⟩

theorem apply_args_holds (hl : Indexed lzr l) (hrec : ∀ e ∈ args, ReturnsInferred l literal_cat infer e) :
    ∀ {rest : List PgfExpr} {t : PgfTrial} {ch : GuChoice} {b : Bool}, args.drop t.ip = rest → t.Holds l literal_cat (spines args) →
      infer_apply_args lzr fuel infer rest t ch = .ok (b, t', ch') →
      t'.Holds l literal_cat (spines args) ∧ (b = true → args.length ≤ t'.ip) := by
  intro rest
  induction rest with
  | nil =>
    intro t ch b hdrop ht h
    simp only [infer_apply_args, Except.ok.injEq, Prod.mk.injEq] at h
    obtain ⟨rfl, rfl, rfl⟩ := h
    exact ⟨ht, fun _ => List.drop_eq_nil_iff.1 hdrop⟩
  | cons e rest ih =>
    intro t ch b hdrop ht h
    obtain ⟨⟨r, ch₁⟩, h₁, h⟩ := Exec.bind_ok.1 h
    cases r with
    | none =>
      simp only [Exec.pure_eq, Except.ok.injEq, Prod.mk.injEq] at h
      obtain ⟨rfl, rfl, rfl⟩ := h
      exact ⟨ht, fun hb => by cases hb⟩
    | some r =>
      obtain ⟨cat, tree⟩ := r
      obtain ⟨mark, -, h⟩ := Exec.bind_ok.1 h
      have hget : args[t.ip]? = some e := by
        rw [← List.head?_drop, hdrop]
        rfl
      obtain ⟨a, ha, rfl, rfl⟩ := infer_arg_of hl (hrec e (List.mem_of_getElem? hget)) h₁
      refine ih ?_ (ht.push (by rw [List.getElem?_map, hget]; rfl) ha mark) h
      have hip : (t.push a.cat a.deriv.tree mark).ip = t.ip + 1 := by simp [PgfTrial.ip, PgfTrial.push]
      rw [hip, ← List.drop_drop, hdrop]
      rfl

theorem back_holds {ss : List Spine} : ∀ {i : Nat} {t t' : PgfTrial} {ch : GuChoice}, t.Holds l literal_cat ss →
    infer_back i t ch = .ok (some t', ch') → t'.Holds l literal_cat ss := by
  intro i
  induction i with
  | zero => intro t t' ch _ h; cases h
  | succ i ih =>
    intro t t' ch ht h
    obtain ⟨mark, -, h⟩ := Exec.bind_ok.1 h
    obtain ⟨ch₁, -, h⟩ := Exec.bind_ok.1 h
    obtain ⟨⟨more, ch₂⟩, -, h⟩ := Exec.bind_ok.1 h
    simp only at h
    split at h
    · simp only [Exec.pure_eq, Except.ok.injEq, Prod.mk.injEq, Option.some.injEq] at h
      exact h.1 ▸ ht.cut i
    · exact ih (ht.cut i) h

variable {infer_map : PgfInferMap} {f : PgfCId}

theorem apply_try_of (hl : Indexed lzr l) (hrec : ∀ e ∈ args, ReturnsInferred l literal_cat infer e)
    (hmap : lzr.fun_indices f = some infer_map) (ht : t.Holds l literal_cat (spines args)) {r : Option PgfLinInferEntry}
    (h : pgf_lzn_infer_apply_try lzr fuel infer args infer_map t ch = .ok (r, t', ch')) : t'.Holds l literal_cat (spines args) ∧
      ∀ entry, r = some entry → ∃ d : Inferred Nat, Infers l.Has literal_cat (.app f (spines args)) entry.cat d ∧
        d.tree = .APP entry.fun_ t'.arg_trees := by
  obtain ⟨⟨all, t₁, ch₁⟩, h₁, h⟩ := Exec.bind_ok.1 h
  obtain ⟨ht₁, hall⟩ := apply_args_holds hl hrec rfl ht h₁
  cases all with
  | false =>
    simp only [Bool.not_false, if_true, Exec.pure_eq, Except.ok.injEq, Prod.mk.injEq] at h
    obtain ⟨rfl, rfl, rfl⟩ := h
    exact ⟨ht₁, fun entry he => by cases he⟩
  | true =>
    simp only [Bool.not_true, Bool.false_eq_true, if_false] at h
    cases hentries : infer_map t₁.arg_cats with
    | none =>
      simp only [hentries, Exec.pure_eq, Except.ok.injEq, Prod.mk.injEq] at h
      obtain ⟨rfl, rfl, rfl⟩ := h
      exact ⟨ht₁, fun entry he => by cases he⟩
    | some entries =>
      simp only [hentries] at h
      obtain ⟨⟨k, ch₂⟩, -, h⟩ := Exec.bind_ok.1 h
      cases k with
      | none =>
        simp only [Exec.pure_eq, Except.ok.injEq, Prod.mk.injEq] at h
        obtain ⟨rfl, rfl, rfl⟩ := h
        exact ⟨ht₁, fun entry he => by cases he⟩
      | some k =>
        obtain ⟨entry, hk, h⟩ := Exec.bind_ok.1 h
        rw [Exec.deref_ok] at hk
        simp only [Exec.pure_eq, Except.ok.injEq, Prod.mk.injEq] at h
        obtain ⟨rfl, rfl, rfl⟩ := h
        refine ⟨ht₁, ?_⟩
        rintro _ ⟨⟩
        obtain ⟨chains, ds, hargs, htrees⟩ := ht₁.infersArgs (by simpa using hall rfl)
        -- the entry is that of a production with these argument categories
        have hmem := List.mem_of_getElem? hk
        rw [hl.entries f infer_map _ hmap] at hentries
        rw [mem_bufOf hentries] at hmem
        obtain ⟨⟨x, entry'⟩, hx, rfl⟩ := List.mem_map.1 hmem
        obtain ⟨pargs, hx, hf, hcats⟩ := mem_entries.1 hx
        refine ⟨.app x entry'.fun_ chains ds, ⟨pargs, hx, hf, hcats ▸ hargs⟩, ?_⟩
        rw [Inferred.tree, htrees]

theorem application_of (hl : Indexed lzr l) (hrec : ∀ e ∈ args, ReturnsInferred l literal_cat infer e)
    (hmap : lzr.fun_indices f = some infer_map) : ∀ {n : Nat} {t : PgfTrial} {ch : GuChoice} {c : PgfCCatId} {tree : PgfCncTree},
      t.Holds l literal_cat (spines args) → infer_application_loop lzr fuel infer args infer_map n t ch = .ok (some (c, tree), ch') →
        ∃ d : Inferred Nat, Infers l.Has literal_cat (.app f (spines args)) c d ∧ d.tree = tree := by
  intro n
  induction n with
  | zero => intro t ch c tree _ h; cases h
  | succ n ih =>
    intro t ch c tree ht h
    obtain ⟨⟨ret, t₁, ch₁⟩, h₁, h⟩ := Exec.bind_ok.1 h
    obtain ⟨ht₁, hret⟩ := apply_try_of hl hrec hmap ht h₁
    cases ret with
    | some entry =>
      simp only [Exec.pure_eq, Except.ok.injEq, Prod.mk.injEq, Option.some.injEq] at h
      obtain ⟨⟨rfl, rfl⟩, rfl⟩ := h
      exact hret entry rfl
    | none =>
      obtain ⟨⟨t₂, ch₂⟩, h₂, h⟩ := Exec.bind_ok.1 h
      cases t₂ with
      | none => cases h
      | some t₂ => exact ih (back_holds ht₁ h₂) h

end Application

/-- Whatever the choices, `pgf_lzn_infer` returns trees of derivations. -/
theorem infer_returns (hl : Indexed lzr l) : ∀ (fuel : Nat) (expr : PgfExpr),
    ReturnsInferred l (pgf_literal_cat lzr.cnc) (pgf_lzn_infer lzr fuel) expr := by
  intro fuel
  induction fuel with
  | zero => intro expr ch c tree ch' h; cases h
  | succ fuel ih =>
    intro expr ch c tree ch' h
    rw [pgf_lzn_infer, unapply_eq, Exec.ok_bind] at h
    cases happ : expr.unapplied [] with
    | none =>
      rw [spine_none happ]
      rw [happ] at h
      simp only [Option.map_none] at h
      cases hun : pgf_expr_unwrap expr with
      | LIT lit =>
        simp only [hun, Exec.pure_eq, Except.ok.injEq, Prod.mk.injEq, Option.some.injEq] at h
        obtain ⟨⟨rfl, rfl⟩, rfl⟩ := h
        exact ⟨.lit lit, ⟨rfl, rfl⟩, rfl⟩
      | _ =>
        simp only [hun] at h
        cases h
    | some r =>
      obtain ⟨f, args⟩ := r
      have hspine : expr.spine [] = .app f (spines args) := spine_unapplied happ
      rw [hspine]
      rw [happ] at h
      simp only [Option.map_some, pgf_lzn_infer_application] at h
      cases hmap : lzr.fun_indices f with
      | none =>
        rw [hmap] at h
        cases h
      | some infer_map =>
        rw [hmap] at h
        obtain ⟨mark, -, h⟩ := Exec.bind_ok.1 h
        exact application_of hl (fun e _ => ih e) hmap (.start _) h

/-! ## What the enumeration returns -/

/-- The calls of `pgf_lzn_next` on the enumeration of an expression, one after the other. -/
inductive PgfLzn.Reached (lzr : PgfLzr) (expr : PgfExpr) : PgfLzn → Prop
  | start : Reached lzr expr (pgf_lzr_concretize expr)
  | next {fuel : Nat} {lzn lzn' : PgfLzn} {tree : Option PgfCncTree} :
    Reached lzr expr lzn → pgf_lzn_next lzr fuel lzn = .ok (tree, lzn') → Reached lzr expr lzn'

/-- The category that the next call infers. -/
def PgfLzn.Category (lzr : PgfLzr) (fuel : Nat) (lzn : PgfLzn) (c : PgfCCatId) : Prop :=
  ∃ expr mark ch, lzn.expr = some expr ∧ lzn.ch.gu_choice_mark = .ok mark ∧
    lzn_next_loop lzr fuel expr mark fuel lzn.ch = .ok (some c, ch)

theorem PgfLzn.Reached.expr {expr e : PgfExpr} {lzn : PgfLzn} (h : PgfLzn.Reached lzr expr lzn) (he : lzn.expr = some e) : e = expr := by
  induction h generalizing e with
  | start => exact (Option.some.inj he).symm
  | @next fuel lzn lzn' tree _ hn ih =>
    unfold pgf_lzn_next at hn
    cases hexpr : lzn.expr with
    | none =>
      rw [hexpr] at hn
      simp only [Except.ok.injEq, Prod.mk.injEq] at hn
      rw [← hn.2, hexpr] at he
      cases he
    | some e' =>
      obtain rfl := ih hexpr
      simp only [hexpr] at hn
      obtain ⟨mark, -, hn⟩ := Exec.bind_ok.1 hn
      obtain ⟨⟨cat, ch⟩, -, hn⟩ := Exec.bind_ok.1 hn
      cases cat with
      | none =>
        simp only [Exec.pure_eq, Except.ok.injEq, Prod.mk.injEq] at hn
        rw [← hn.2] at he
        exact (Option.some.inj he).symm
      | some cat =>
        obtain ⟨⟨cat₂, ch₂⟩, -, hn⟩ := Exec.bind_ok.1 hn
        obtain ⟨_, -, hn⟩ := Exec.bind_ok.1 hn
        obtain ⟨ch₃, -, hn⟩ := Exec.bind_ok.1 hn
        obtain ⟨⟨more, ch₄⟩, -, hn⟩ := Exec.bind_ok.1 hn
        simp only [Exec.pure_eq, Except.ok.injEq, Prod.mk.injEq] at hn
        rw [← hn.2] at he
        simp only at he
        split at he
        · exact (Option.some.inj he).symm
        · cases he

/-- A tree that is enumerated is one of a derivation in the category that was inferred. -/
theorem next_derivation (hl : Indexed lzr l) {expr : PgfExpr} {lzn lzn' : PgfLzn} {tree : PgfCncTree}
    (hr : PgfLzn.Reached lzr expr lzn) (hn : pgf_lzn_next lzr fuel lzn = .ok (some tree, lzn')) :
    ∃ c, lzn.Category lzr fuel c ∧
      ∃ d : Inferred Nat, Infers l.Has (pgf_literal_cat lzr.cnc) (expr.spine []) c d ∧ d.tree = tree := by
  unfold pgf_lzn_next at hn
  cases hexpr : lzn.expr with
  | none =>
    rw [hexpr] at hn
    cases hn
  | some e =>
    obtain rfl := hr.expr hexpr
    simp only [hexpr] at hn
    obtain ⟨mark, hmark, hn⟩ := Exec.bind_ok.1 hn
    obtain ⟨⟨cat, ch⟩, hloop, hn⟩ := Exec.bind_ok.1 hn
    cases cat with
    | none => cases hn
    | some cat =>
      obtain ⟨⟨cat₂, ch₂⟩, hinfer, hn⟩ := Exec.bind_ok.1 hn
      obtain ⟨_, hsame, hn⟩ := Exec.bind_ok.1 hn
      obtain ⟨ch₃, -, hn⟩ := Exec.bind_ok.1 hn
      obtain ⟨⟨more, ch₄⟩, -, hres⟩ := Exec.bind_ok.1 hn
      simp only [Exec.pure_eq, Except.ok.injEq, Prod.mk.injEq] at hres
      rw [Exec.require_ok] at hsame
      obtain ⟨⟨c, tree'⟩, rfl, hc⟩ := Option.map_eq_some_iff.1 hsame
      obtain rfl : c = cat := hc
      obtain rfl : tree' = tree := Option.some.inj hres.1
      exact ⟨c, ⟨_, mark, ch, hexpr, hmark, hloop⟩, infer_returns hl fuel _ _ _ _ _ hinfer⟩

end Libpgf
