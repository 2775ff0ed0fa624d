import Libpgf.Pgf.Accepted
import Libpgf.Pgf.ConcreteTrees
import Libpgf.Pgf.InferSoundness
/-!
# What linearization emits

`pgf_lzr_linearize` checks a constituent against the function of the tree at
hand, and that function was chosen under coercions from the category of the
argument. In a grammar that is accepted it has the constituents that the
argument's category promises, so no check fails at any depth.
-/

namespace Libpgf

def pgf_cnc_tree_n_ctnts : PgfCncTree → Nat
  | .LIT _ => 1
  | .APP fun_ _ => fun_.lins.length

/-- The token lists among the calls of a presenter. -/
def tokenLists (events : List PgfEvent) : List PgfTokens :=
  events.flatMap fun
    | .symbol_tokens toks => [toks]
    | _ => []

theorem tokenLists_append (es es' : List PgfEvent) : tokenLists (es ++ es') = tokenLists es ++ tokenLists es' :=
  List.flatMap_append

namespace PgfSymbol

/-- The argument and the constituent that a symbol `<d,r>` names. -/
def place : PgfSymbol → Option (Nat × Nat)
  | CAT d r => some (d, r)
  | LIT d r => some (d, r)
  | VAR d r => some (d, r)
  | KS _ => none
  | KP _ _ => none

/-- What a symbol stands for, where constituent `r` of argument `d` is `arg d r`. -/
def emission (arg : Nat → Nat → List PgfTokens) : PgfSymbol → List PgfTokens
  | CAT d r => arg d r
  | LIT d r => arg d r
  | VAR d r => arg d r
  | KS tokens => [tokens]
  | KP default_form _ => [default_form]

end PgfSymbol

/-- The sequence of the function at `lin_idx`, with every `<d,r>` replaced by the
emission of argument `d` at `r`. -/
def PgfCncTree.emission : PgfCncTree → Nat → List PgfTokens
  | .LIT _, _ => []
  | .APP fun_ args, lin_idx =>
    (fun_.lins[lin_idx]?.getD []).flatMap
      (PgfSymbol.emission fun d r => if h : d < args.length then args[d].emission r else [])
termination_by ctree => sizeOf ctree
decreasing_by
  have := List.sizeOf_lt_of_mem (List.getElem_mem h)
  simp only [PgfCncTree.APP.sizeOf_spec]
  omega

/-- Every constituent of the tree is linearized, to its emission. -/
def PgfCncTree.Emits (tree : PgfCncTree) : Prop :=
  ∀ lin_idx < pgf_cnc_tree_n_ctnts tree,
    ∃ events, pgf_lzr_linearize tree lin_idx = .ok events ∧ tokenLists events = tree.emission lin_idx

/-! ## Trees -/

theorem linearize_syms_emits {lin : Nat → Nat → Exec (List PgfEvent)} {arg : Nat → Nat → List PgfTokens} {seq : PgfSequence}
    (h : ∀ sym ∈ seq, ∀ d r, sym.place = some (d, r) → ∃ events, lin d r = .ok events ∧ tokenLists events = arg d r) :
    ∃ events, linearize_syms lin seq = .ok events ∧ tokenLists events = seq.flatMap (PgfSymbol.emission arg) := by
  induction seq with
  | nil => exact ⟨[], rfl, rfl⟩
  | cons sym seq ih =>
    obtain ⟨rest, hrest, htoks⟩ := ih fun s hs => h s (List.mem_cons_of_mem _ hs)
    obtain ⟨es, hes, hsym⟩ : ∃ es, linearize_sym lin sym = .ok es ∧ tokenLists es = sym.emission arg := by
      have hsym := h sym List.mem_cons_self
      cases sym with
      | CAT d r => exact hsym d r rfl
      | LIT d r => exact hsym d r rfl
      | VAR d r => exact hsym d r rfl
      | KS tokens => exact ⟨_, rfl, rfl⟩
      | KP default_form alts => exact ⟨_, rfl, rfl⟩
    refine ⟨es ++ rest, ?_, ?_⟩
    · rw [linearize_syms, hes, hrest]
      rfl
    · rw [tokenLists_append, hsym, htoks, List.flatMap_cons]

theorem emits_lit (lit : PgfLiteral) : (PgfCncTree.LIT lit).Emits := by
  intro lin_idx hlt
  obtain rfl : lin_idx = 0 := Nat.lt_one_iff.1 hlt
  refine ⟨[.expr_literal lit], ?_, ?_⟩
  · rw [pgf_lzr_linearize]
    rfl
  · rw [PgfCncTree.emission]
    rfl

theorem emits_app {f : PgfCncFun} {args : List PgfCncTree} (hargs : ∀ t ∈ args, t.Emits)
    (h : ∀ seq ∈ f.lins, ∀ sym ∈ seq, ∀ d r, sym.place = some (d, r) → ∃ t, args[d]? = some t ∧ r < pgf_cnc_tree_n_ctnts t) :
    (PgfCncTree.APP f args).Emits := by
  intro lin_idx hlt
  have hseq : f.lins[lin_idx]? = some f.lins[lin_idx] := List.getElem?_eq_getElem hlt
  have hsyms := @linearize_syms_emits (fun d r => if h : d < args.length then pgf_lzr_linearize args[d] r else Exec.abort)
    (fun d r => if h : d < args.length then args[d].emission r else []) f.lins[lin_idx] ?_
  · obtain ⟨events, hev, htoks⟩ := hsyms
    refine ⟨.expr_apply f.fun_ args.length :: events, ?_, ?_⟩
    · rw [pgf_lzr_linearize, hseq, Exec.deref_some, Exec.ok_bind, hev]
      rfl
    · rw [PgfCncTree.emission, hseq, Option.getD_some]
      exact htoks
  · intro sym hsym d r hplace
    obtain ⟨t, ht, hr⟩ := h _ (List.getElem_mem hlt) sym hsym d r hplace
    obtain ⟨hd, rfl⟩ := List.getElem?_eq_some_iff.1 ht
    obtain ⟨events, hev, htoks⟩ := hargs _ (List.getElem_mem hd) r hr
    exact ⟨events, by rw [dif_pos hd]; exact hev, by rw [dif_pos hd]; exact htoks⟩

/-! ## Derivations -/

/-- Every `<d,r>` of a production names an argument, and a constituent that the
concrete category of the argument has. -/
def PgfConcr.PlacesFit (concr : PgfConcr) : Prop :=
  ∀ ccat ∈ concr.ccatMem, ∀ f args, .APPLY f args ∈ ccat.prods.elems → ∀ seq ∈ f.lins, ∀ sym ∈ seq, ∀ d r,
    sym.place = some (d, r) → ∃ arg, args[d]? = some arg ∧
      ∀ k cnccat, cnccatOf concr.ccatMem arg.ccat = some k → concr.cnccatMem[k]? = some cnccat → r < cnccat.n_ctnts

/-- The tree has the constituents of the concrete category of `c`. -/
def PgfConcr.Suits (concr : PgfConcr) (c : PgfCCatId) (tree : PgfCncTree) : Prop :=
  ∃ k cnccat, cnccatOf concr.ccatMem c = some k ∧ concr.cnccatMem[k]? = some cnccat ∧
    pgf_cnc_tree_n_ctnts tree = cnccat.n_ctnts

section Derived
variable {concr : PgfConcr} {ccats : List CCatEntry} {cnccats : List CncCatEntry} {a c : PgfCCatId} {f : PgfCncFun} {x : Nat}
  {xs : List Nat}

theorem PgfConcr.listed_mem {prod : PgfProduction} (h : concr.listing.Has x c prod) :
    ∃ ccat, concr.ccatMem[c]? = some ccat ∧ prod ∈ ccat.prods.elems := by
  obtain ⟨n, hx⟩ := h
  obtain ⟨-, -, ccat, hc, hp⟩ := PgfConcr.mem_listing.1 (List.mem_of_getElem? hx)
  exact ⟨ccat, hc, List.mem_of_getElem? hp⟩

/-- Further up along coercions there are the same functions. -/
theorem under_chain (h : Chain concr.listing.Has c xs a) (hf : Under concr.ccatMem c f) : Under concr.ccatMem a f := by
  induction xs generalizing c with
  | nil =>
    obtain rfl : c = a := h
    exact hf
  | cons x xs ih =>
    obtain ⟨c', hx, h⟩ := h
    obtain ⟨ccat, hc, hp⟩ := PgfConcr.listed_mem hx
    exact ih h (.through ⟨ccat, hc, hp⟩ hf)

/-- Coercions lead from a category of the grammar, unless there are none. -/
theorem chain_lt (h : Chain concr.listing.Has c xs a) (ha : a < concr.ccatMem.length) : c < concr.ccatMem.length := by
  cases xs with
  | nil =>
    obtain rfl : c = a := h
    exact ha
  | cons x xs =>
    obtain ⟨c', hx, -⟩ := h
    obtain ⟨ccat, hc, hp⟩ := PgfConcr.listed_mem hx
    exact concr.prods_valid ccat (List.mem_of_getElem? hc) _ hp c (List.mem_singleton_self c)

theorem literal_cat_ge (lit : PgfLiteral) : concr.ccatMem.length ≤ pgf_literal_cat concr lit := by
  cases lit with
  | STR => exact Nat.le_refl _
  | INT => exact Nat.le_add_right _ 1
  | FLT => exact Nat.le_add_right _ 2

/-- The derivations of arguments, by place. -/
theorem InfersArgs.get {ι : Type} {has : ι → PgfCCatId → PgfProduction → Prop} {literal_cat : PgfLiteral → PgfCCatId}
    {ss : List Spine} {cats : List PgfCCatId} {chains : List (List ι)} {ds : List (Inferred ι)}
    (h : InfersArgs has literal_cat ss cats chains ds) : ds.length = cats.length ∧
      ∀ (i : Nat) d, ds[i]? = some d → ∃ s ∈ ss, ∃ a c xs, cats[i]? = some a ∧ Infers has literal_cat s c d ∧ Chain has c xs a := by
  induction ss generalizing cats chains ds with
  | nil =>
    cases cats with
    | cons a cats => simp [InfersArgs] at h
    | nil =>
      cases ds with
      | cons d ds => cases chains <;> simp [InfersArgs] at h
      | nil => exact ⟨rfl, fun i d hd => by simp at hd⟩
  | cons s ss ih =>
    cases cats with
    | nil => simp [InfersArgs] at h
    | cons a cats =>
      cases chains with
      | nil => simp [InfersArgs] at h
      | cons xs chains =>
        cases ds with
        | nil => simp [InfersArgs] at h
        | cons d ds =>
          obtain ⟨⟨c, hd, hchain⟩, hargs⟩ := h
          obtain ⟨hlen, hget⟩ := ih hargs
          refine ⟨congrArg Nat.succ hlen, fun i e he => ?_⟩
          cases i with
          | zero =>
            cases he
            exact ⟨s, List.mem_cons_self, a, c, xs, rfl, hd, hchain⟩
          | succ i =>
            obtain ⟨s', hs', h⟩ := hget i e he
            exact ⟨s', List.mem_cons_of_mem s hs', h⟩

/-- A derivation ends with a function of its category, or is that of a literal. -/
theorem infers_under {s : Spine} {d : Inferred Nat} (h : Infers concr.listing.Has (pgf_literal_cat concr) s c d) :
    (∃ f ts, d.tree = .APP f ts ∧ Under concr.ccatMem c f) ∨ ∃ lit, d.tree = .LIT lit ∧ c = pgf_literal_cat concr lit := by
  cases s with
  | app f ss =>
    cases d with
    | app x fn chains ds =>
      obtain ⟨pargs, hx, -, -⟩ := h
      obtain ⟨ccat, hc, hp⟩ := PgfConcr.listed_mem hx
      exact .inl ⟨fn, _, by rw [Inferred.tree], .here hc hp⟩
    | lit l => simp [Infers] at h
  | lit l =>
    cases d with
    | app => simp [Infers] at h
    | lit l' =>
      obtain ⟨rfl, rfl⟩ := h
      exact .inr ⟨l', rfl, rfl⟩
  | other => cases d <;> simp [Infers] at h

theorem Under.fits (hr : concr.ReadFrom ccats cnccats) (hf : Under concr.ccatMem c f) (ts : List PgfCncTree) :
    concr.Suits c (.APP f ts) := by
  obtain ⟨k, cnccat, hk, hget, hlen⟩ := hr.counts hf
  exact ⟨k, cnccat, hk, hget, hlen⟩

/-- The tree of an argument has the constituents of the category that the production names. -/
theorem argument_fits (hr : concr.ReadFrom ccats cnccats) {s : Spine} {d : Inferred Nat}
    (h : Infers concr.listing.Has (pgf_literal_cat concr) s c d) (hchain : Chain concr.listing.Has c xs a)
    (ha : a < concr.ccatMem.length) : concr.Suits a d.tree := by
  rcases infers_under h with ⟨f, ts, htree, hf⟩ | ⟨lit, -, rfl⟩
  · rw [htree]
    exact (under_chain hchain hf).fits hr ts
  · -- no category of the grammar is above that of a literal
    exact absurd (chain_lt hchain ha) (Nat.not_lt.2 (literal_cat_ge lit))

/-- The tree of a derivation is linearized to its emission. -/
theorem infers_emits (hr : concr.ReadFrom ccats cnccats) (hfit : concr.PlacesFit) : ∀ (s : Spine) {c : PgfCCatId} {d : Inferred Nat},
    Infers concr.listing.Has (pgf_literal_cat concr) s c d → d.tree.Emits
  | .app f ss, c, .app x fn chains ds, h => by
    obtain ⟨pargs, hx, -, hargs⟩ := h
    obtain ⟨ccat, hc, hp⟩ := PgfConcr.listed_mem hx
    obtain ⟨hlen, hget⟩ := hargs.get
    rw [Inferred.tree, Inferred.trees_eq]
    refine emits_app (fun t ht => ?_) fun seq hseq sym hsym d r hplace => ?_
    · obtain ⟨d, hd, rfl⟩ := List.mem_map.1 ht
      obtain ⟨i, hi⟩ := List.mem_iff_getElem?.1 hd
      obtain ⟨s, hs, _, c', _, -, hinf, -⟩ := hget i d hi
      have := List.sizeOf_lt_of_mem hs
      exact infers_emits hr hfit s hinf
    · obtain ⟨arg, harg, hcount⟩ := hfit ccat (List.mem_of_getElem? hc) fn pargs hp seq hseq sym hsym d r hplace
      have hdlt : d < ds.length := by
        rw [hlen, List.length_map]
        exact (List.getElem?_eq_some_iff.1 harg).1
      obtain ⟨s, -, a, c', xs, hcat, hinf, hchain⟩ := hget d _ (List.getElem?_eq_getElem hdlt)
      rw [List.getElem?_map, harg, Option.map_some, Option.some.injEq] at hcat
      subst hcat
      have ha : arg.ccat < concr.ccatMem.length := by
        refine concr.prods_valid ccat (List.mem_of_getElem? hc) _ hp _ ?_
        exact List.mem_flatMap.2 ⟨arg, List.mem_of_getElem? harg, List.mem_cons_self⟩
      obtain ⟨k, cnccat, hk, hgetk, hn⟩ := argument_fits hr hinf hchain ha
      exact ⟨ds[d].tree, by rw [List.getElem?_map, List.getElem?_eq_getElem hdlt]; rfl, hn ▸ hcount k cnccat hk hgetk⟩
  | .lit lit, c, .lit lit', _ => emits_lit lit'
  | .app f ss, c, .lit lit, h => by simp [Infers] at h
  | .lit lit, c, .app x fn chains ds, h => by simp [Infers] at h
  | .other, c, d, h => by simp [Infers] at h

end Derived

/-- In a grammar that the reader accepts and whose symbols name constituents of
their arguments, a tree that is enumerated has the constituents of the category
inferred for it, or it is a literal and has one; and each of them is linearized,
to the tree's emission. -/
theorem concretize_emits {concr : PgfConcr} {lzr : PgfLzr} {ccats : List CCatEntry} {cnccats : List CncCatEntry}
    (hr : concr.ReadFrom ccats cnccats) (hfit : concr.PlacesFit) (hnew : pgf_new_lzr concr = .ok lzr) {fuel : Nat} {expr : PgfExpr}
    {lzn lzn' : PgfLzn} {tree : PgfCncTree} (hlzn : lzn.Reached lzr expr)
    (hnext : pgf_lzn_next lzr fuel lzn = .ok (some tree, lzn')) :
    ∃ c, lzn.Category lzr fuel c ∧
      (concr.Suits c tree ∨ ∃ lit, tree = .LIT lit ∧ c = pgf_literal_cat concr lit ∧ pgf_cnc_tree_n_ctnts tree = 1) ∧ tree.Emits := by
  obtain ⟨rfl, hl⟩ := new_lzr_indexed hnew
  obtain ⟨c, hc, d, hd, rfl⟩ := next_derivation hl hlzn hnext
  refine ⟨c, hc, ?_, infers_emits hr hfit _ hd⟩
  rcases infers_under hd with ⟨f, ts, htree, hf⟩ | ⟨lit, htree, rfl⟩
  · rw [htree]
    exact .inl (hf.fits hr ts)
  · rw [htree]
    exact .inr ⟨lit, rfl, rfl, rfl⟩

/-! ## A grammar with a category outside the ranges -/

namespace Outside

/-- `A → a[]`, `_ → _[A]`, `S → f[_]` -/
def ccats : List CCatEntry :=
  [{ fid := 0, prods := [.APPLY Chained.a []] }, { fid := 1, prods := [.COERCE 0] },
    { fid := 2, prods := [.APPLY Chained.f [{ hypos := [], ccat := 1 }]] }]

def cnccats : List CncCatEntry :=
  [{ cid := [65], first := 0, last := 0, ctnts := [[115]] }, { cid := [83], first := 2, last := 2, ctnts := [[115]] }]

def concr : PgfConcr where
  ccatMem := [⟨some 0, .seq [.APPLY Chained.a []], 0⟩, ⟨some 0, .seq [.COERCE 0], 1⟩, ⟨some 1, .seq [.APPLY Chained.f [⟨[], 1⟩]], 2⟩]
  cnccatMem := [⟨[65], [some 0], 1, [[115]]⟩, ⟨[83], [some 2], 1, [[115]]⟩]
  cnccats := [([65], 0), ([83], 1)]
  extra_ccats := [1]
  prods_fixed := by decide
  prods_valid := by decide
  cats_valid := by decide

theorem concr_read : concr.ReadFrom ccats cnccats := PgfConcr.readFrom_of_check 5 (by decide +kernel)

theorem concr_placesFit : concr.PlacesFit := by
  intro ccat hc f args hp seq hseq sym hsym d r hplace
  simp only [concr, List.mem_cons, List.not_mem_nil, or_false] at hc
  rcases hc with rfl | rfl | rfl
  · obtain ⟨rfl, rfl⟩ : f = Chained.a ∧ args = [] := by simpa [PgfProductions.elems] using hp
    obtain rfl : seq = [.KS [[97]]] := by simpa [Chained.a] using hseq
    obtain rfl := List.mem_singleton.1 hsym
    cases hplace
  · simp [PgfProductions.elems] at hp
  · obtain ⟨rfl, rfl⟩ : f = Chained.f ∧ args = [⟨[], 1⟩] := by simpa [PgfProductions.elems] using hp
    obtain rfl : seq = [.CAT 0 0] := by simpa [Chained.f] using hseq
    obtain rfl := List.mem_singleton.1 hsym
    cases hplace
    refine ⟨⟨[], 1⟩, rfl, fun k cnccat hk hget => ?_⟩
    cases hk
    cases hget
    exact Nat.one_pos

end Outside

/-- The tree of `f a`, where the argument comes through the category outside. -/
theorem concretize_emits_outside : ∃ lzr tree lzn', pgf_new_lzr Outside.concr = .ok lzr ∧
    pgf_lzn_next lzr 5 (pgf_lzr_concretize (.APP (.FUN [102]) (.FUN [97]))) = .ok (some tree, lzn') ∧ tree.Emits := by
  obtain ⟨lzr, hlzr⟩ : ∃ lzr, pgf_new_lzr Outside.concr = .ok lzr := ⟨_, rfl⟩
  have hnext : ((pgf_new_lzr Outside.concr).toOption.bind fun lzr =>
      (pgf_lzn_next lzr 5 (pgf_lzr_concretize (.APP (.FUN [102]) (.FUN [97])))).toOption.bind Prod.fst).isSome = true := by
    decide +kernel
  cases h : pgf_lzn_next lzr 5 (pgf_lzr_concretize (.APP (.FUN [102]) (.FUN [97]))) with
  | error e => simp [hlzr, h, Except.toOption] at hnext
  | ok r =>
    obtain ⟨tree, lzn'⟩ := r
    cases tree with
    | none => simp [hlzr, h, Except.toOption] at hnext
    | some tree =>
      obtain ⟨c, -, -, hemits⟩ := concretize_emits Outside.concr_read Outside.concr_placesFit hlzr .start h
      exact ⟨lzr, tree, lzn', hlzr, h, hemits⟩

theorem next_literal (lzr : PgfLzr) (lit : PgfLiteral) : ∃ lzn',
    pgf_lzn_next lzr 1 (pgf_lzr_concretize (.LIT lit)) = .ok (some (.LIT lit), lzn') ∧
      (pgf_lzr_concretize (.LIT lit)).Category lzr 1 (pgf_literal_cat lzr.cnc lit) := by
  have hinfer : ∀ ch, pgf_lzn_infer lzr 1 (.LIT lit) ch = .ok (some (pgf_literal_cat lzr.cnc lit, .LIT lit), ch) := by
    intro ch
    simp only [pgf_lzn_infer, unapply_eq, PgfExpr.unapplied, Option.map_none, Exec.ok_bind, pgf_expr_unwrap, Exec.pure_eq]
  have hloop : lzn_next_loop lzr 1 (.LIT lit) 0 1 gu_new_choice =
      .ok (some (pgf_literal_cat lzr.cnc lit), gu_new_choice) := by
    rw [lzn_next_loop, hinfer]
    rfl
  refine ⟨⟨gu_new_choice, none⟩, ?_, _, 0, _, rfl, rfl, hloop⟩
  show (lzn_next_loop lzr 1 (.LIT lit) 0 1 gu_new_choice >>= _) = _
  rw [hloop, Exec.ok_bind]
  simp only [hinfer, Exec.ok_bind, Option.map_some, Exec.require, if_true]
  rfl

/-- The category of a literal has no concrete category. -/
theorem literal_unfit : ∃ lzr lzn' c, pgf_new_lzr Outside.concr = .ok lzr ∧ Outside.concr.ReadFrom Outside.ccats Outside.cnccats ∧
    Outside.concr.PlacesFit ∧ pgf_lzn_next lzr 1 (pgf_lzr_concretize (.LIT (.INT 5))) = .ok (some (.LIT (.INT 5)), lzn') ∧
    (pgf_lzr_concretize (.LIT (.INT 5))).Category lzr 1 c ∧ ¬ Outside.concr.Suits c (.LIT (.INT 5)) := by
  obtain ⟨lzr, hlzr⟩ : ∃ lzr, pgf_new_lzr Outside.concr = .ok lzr := ⟨_, rfl⟩
  obtain ⟨lzn', hnext, hcat⟩ := next_literal lzr (.INT 5)
  refine ⟨lzr, lzn', _, hlzr, Outside.concr_read, Outside.concr_placesFit, hnext, hcat, ?_⟩
  rintro ⟨k, cnccat, hk, -⟩
  rw [(new_lzr_indexed hlzr).1] at hk
  cases hk

end Libpgf
