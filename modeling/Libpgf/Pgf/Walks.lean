import Libpgf.Pgf.Forest
/-!
# Which derivations are walked

When every run of choices comes to its end, the walks from a category make each
derivation without repeated categories, and each of them once. A walk meets
every category once, so a recursion that is deeper than the memory is long is
deep enough.
-/

namespace Libpgf

variable {P : PgfParser}

open GuChoice

/-! ## Depth -/

/-- Different categories of the memory. -/
def Heap.Known (h : Heap P) (seen : List PgfCCatId) : Prop := seen.Nodup ∧ ∀ c ∈ seen, c < h.ccats.length

theorem Heap.Known.length_le {h : Heap P} {seen : List PgfCCatId} (hs : h.Known seen) : seen.length ≤ h.ccats.length := by
  have := (List.subperm_of_subset hs.1 fun c hc => List.mem_range.2 (hs.2 c hc)).length_le
  rwa [List.length_range] at this

theorem Heap.Known.cons {h : Heap P} {seen : List PgfCCatId} {c : PgfCCatId} {ccat : PgfCCat} (hs : h.Known seen)
    (hc : c ∉ seen) (hcc : h.ccats[c]? = some ccat) : h.Known (c :: seen) := by
  refine ⟨List.nodup_cons.2 ⟨hc, hs.1⟩, fun a ha => ?_⟩
  rcases List.mem_cons.1 ha with rfl | ha
  · exact (List.getElem?_eq_some_iff.1 hcc).1
  · exact hs.2 a ha

section Args
variable {w w' : PgfCCatId → List PgfCCatId → Search (Exec (Option Deriv × List PgfCCatId))} {I : List PgfCCatId → Prop}

theorem walkArgs_inv (hw : ∀ c seen o seen', I seen → .ok (o, seen') ∈ (w c seen).leaves → I seen') {args : List PgfPArg}
    {seen seen' : List PgfCCatId} {o : Option (List Deriv)} (hs : I seen) (h : .ok (o, seen') ∈ (walkArgs w args seen).leaves) :
    I seen' := by
  induction args generalizing seen seen' o with
  | nil =>
    simp only [walkArgs, Search.leaves_done, List.mem_singleton, Except.ok.injEq, Prod.mk.injEq] at h
    exact h.2 ▸ hs
  | cons parg args ih =>
    unfold walkArgs at h
    split at h
    · obtain ⟨⟨_ | d, seen₁⟩, hd, h⟩ := ok_mem_andThen.1 h
      · simp only [Search.leaves_done, List.mem_singleton, Except.ok.injEq, Prod.mk.injEq] at h
        exact h.2 ▸ hw _ _ _ _ hs hd
      · obtain ⟨⟨o', seen₂⟩, hds, h⟩ := ok_mem_andThen.1 h
        simp only [Search.leaves_done, List.mem_singleton, Except.ok.injEq, Prod.mk.injEq] at h
        exact h.2 ▸ ih (hw _ _ _ _ hs hd) hds
    · simp [Exec.abort] at h

theorem walkArgs_congr (hw : ∀ c seen o seen', I seen → .ok (o, seen') ∈ (w c seen).leaves → I seen')
    (heq : ∀ c seen, I seen → w c seen = w' c seen) (args : List PgfPArg) {seen : List PgfCCatId} (hs : I seen) :
    walkArgs w args seen = walkArgs w' args seen := by
  induction args generalizing seen with
  | nil => rfl
  | cons parg args ih =>
    simp only [walkArgs, ← heq _ _ hs]
    split
    · refine andThen_congr fun r hr => ?_
      rcases r with ⟨_ | d, seen₁⟩
      · rfl
      · simp only [ih (hw _ _ _ _ hs hr)]
    · rfl

end Args

/-- A walk only adds categories that it has not met before. -/
theorem walk_known {h : Heap P} {k fuel : Nat} {c : PgfCCatId} {seen seen' : List PgfCCatId} {o : Option Deriv}
    (hs : h.Known seen ∧ k ≤ seen.length) (hw : .ok (o, seen') ∈ (walk h fuel c seen).leaves) :
    h.Known seen' ∧ k ≤ seen'.length := by
  induction fuel generalizing c seen seen' o with
  | zero => simp [walk] at hw
  | succ fuel ih =>
    unfold walk at hw
    split at hw
    · simp only [Search.leaves_done, List.mem_singleton, Except.ok.injEq, Prod.mk.injEq] at hw
      exact hw.2 ▸ hs
    rename_i hc
    split at hw
    · simp [Exec.abort] at hw
    rename_i ccat hcc
    have hs' : h.Known (c :: seen) ∧ k ≤ (c :: seen).length := ⟨hs.1.cons hc hcc, by rw [List.length_cons]; omega⟩
    split at hw
    · simp [Exec.abort] at hw
    · simp only [Search.leaves_done, List.mem_singleton, Except.ok.injEq, Prod.mk.injEq] at hw
      exact hw.2 ▸ hs'
    · obtain ⟨_ | i, -, hw⟩ := ok_mem_andThen.1 hw
      · simp only [Search.leaves_done, List.mem_singleton, Except.ok.injEq, Prod.mk.injEq] at hw
        exact hw.2 ▸ hs'
      simp only at hw
      split at hw
      · simp [Exec.abort] at hw
      obtain ⟨⟨o', seen₁⟩, hds, hw⟩ := ok_mem_andThen.1 hw
      simp only [Search.leaves_done, List.mem_singleton, Except.ok.injEq, Prod.mk.injEq] at hw
      have hinv : h.Known seen₁ ∧ k ≤ seen₁.length :=
        walkArgs_inv (I := fun s => h.Known s ∧ k ≤ s.length) (fun c seen o seen' => ih) hs' hds
      exact hw.2 ▸ hinv

/-- A deeper recursion walks no further. -/
theorem walk_succ {h : Heap P} {fuel : Nat} {c : PgfCCatId} {seen : List PgfCCatId} (hs : h.Known seen)
    (hfuel : h.ccats.length < fuel + seen.length) : walk h (fuel + 1) c seen = walk h fuel c seen := by
  induction fuel generalizing c seen with
  | zero =>
    have := hs.length_le
    omega
  | succ fuel ih =>
    rw [walk, walk]
    split
    · rfl
    rename_i hc
    split
    · rfl
    rename_i ccat hcc
    split
    · rfl
    · rfl
    · refine andThen_congr fun i _ => ?_
      cases i with
      | none => rfl
      | some i =>
        simp only
        split
        · rfl
        · rename_i prod _
          have hs' : h.Known (c :: seen) ∧ seen.length + 1 ≤ (c :: seen).length := ⟨hs.cons hc hcc, Nat.le_refl _⟩
          have hargs : walkArgs (walk h (fuel + 1)) (prod_args prod) (c :: seen) =
              walkArgs (walk h fuel) (prod_args prod) (c :: seen) := by
            refine walkArgs_congr (I := fun s => h.Known s ∧ seen.length + 1 ≤ s.length) (fun c seen o seen' => walk_known)
              (fun c s hs => ih hs.1 ?_) (prod_args prod) hs'
            have := hs.2
            omega
          rw [hargs]

theorem walk_deep {h : Heap P} {fuel : Nat} (hfuel : h.ccats.length < fuel) (c : PgfCCatId) :
    walk h fuel c [] = walk h (h.ccats.length + 1) c [] := by
  obtain ⟨k, rfl⟩ := Nat.exists_eq_add_of_lt hfuel
  induction k with
  | zero => rfl
  | succ k ih =>
    rw [← ih (by omega)]
    exact walk_succ ⟨List.nodup_nil, fun c hc => by simp at hc⟩ (by simp only [List.length_nil]; omega)

/-! ## Every derivation is walked -/

theorem walkArgs_complete {w : PgfCCatId → List PgfCCatId → Search (Exec (Option Deriv × List PgfCCatId))} {args : List PgfPArg}
    {ds : List Deriv} {seen : List PgfCCatId} (hlen : ds.length = args.length)
    (hw : ∀ (i : Nat) (parg : PgfPArg) (d : Deriv), args[i]? = some parg → ds[i]? = some d → ∀ seen, Safe (w parg.ccat seen) →
      Fresh seen d.cats → .ok (some d, d.cats.reverse ++ seen) ∈ (w parg.ccat seen).leaves)
    (hsafe : Safe (walkArgs w args seen)) (hfresh : Fresh seen (Deriv.catss ds)) :
    .ok (some ds, (Deriv.catss ds).reverse ++ seen) ∈ (walkArgs w args seen).leaves := by
  induction args generalizing ds seen with
  | nil =>
    obtain rfl := List.length_eq_zero_iff.1 hlen
    exact List.mem_singleton_self _
  | cons parg args ih =>
    cases ds with
    | nil => simp at hlen
    | cons d ds =>
      obtain ⟨hd, hds⟩ := hfresh.of_append
      unfold walkArgs at hsafe ⊢
      by_cases hh : parg.hypos = []
      · simp only [if_pos hh] at hsafe ⊢
        have hleaf := hw 0 parg d rfl rfl seen (safe_andThen.1 hsafe).1 hd
        have hrest := safe_andThen.1 ((safe_andThen.1 hsafe).2 _ hleaf)
        have hleaf' := ih (Nat.succ.inj hlen) (fun i => hw (i + 1)) hrest.1 hds
        refine ok_mem_andThen.2 ⟨_, hleaf, ok_mem_andThen.2 ⟨_, hleaf', ?_⟩⟩
        simp [Deriv.catss]
      · simp only [if_neg hh] at hsafe
        exact absurd (List.mem_singleton_self _) (hsafe .abort)

theorem walk_complete {h : Heap P} {c : PgfCCatId} {d : Deriv} (hd : h.Derivation c d) {fuel : Nat} {seen : List PgfCCatId}
    (hsafe : Safe (walk h fuel c seen)) (hfresh : Fresh seen d.cats) :
    .ok (some d, d.cats.reverse ++ seen) ∈ (walk h fuel c seen).leaves := by
  induction hd generalizing fuel seen with
  | @use c ccat ps n p ds hcc hps hn hlen hargs ih =>
    cases fuel with
    | zero => exact absurd (List.mem_singleton_self _) (hsafe .fuel)
    | succ fuel =>
      have hc : c ∉ seen := hfresh.2 c List.mem_cons_self
      unfold walk at hsafe ⊢
      simp only [if_neg hc, hcc, hps] at hsafe ⊢
      obtain ⟨hchoice, hsafe⟩ := safe_andThen.1 hsafe
      have hmem := mem_choice hchoice (List.getElem?_eq_some_iff.1 hn).1
      have hsafe := hsafe _ hmem
      simp only [hn] at hsafe
      have hfresh' : Fresh ([c].reverse ++ seen) (Deriv.catss ds) := hfresh.of_append.2
      have hleaf := walkArgs_complete hlen (fun i parg d hp hd seen => ih i parg d hp hd) (safe_andThen.1 hsafe).1 hfresh'
      refine ok_mem_andThen.2 ⟨_, hmem, ?_⟩
      simp only [hn]
      refine ok_mem_andThen.2 ⟨_, hleaf, ?_⟩
      simp [Deriv.cats]
  | @metavar c ccat hcc hb =>
    cases fuel with
    | zero => exact absurd (List.mem_singleton_self _) (hsafe .fuel)
    | succ fuel =>
      have hc : c ∉ seen := hfresh.2 c List.mem_cons_self
      unfold walk at hsafe ⊢
      simp only [if_neg hc, hcc] at hsafe ⊢
      cases hps : ccat.prods with
      | null =>
        simp only [hps] at hsafe
        exact absurd (List.mem_singleton_self _) (hsafe .abort)
      | seq ps => exact List.mem_singleton_self _
      | buf ps => simp [hps, PgfProductions.isBuf] at hb

/-! ## No derivation is walked twice -/

namespace Deriv

/-- The number of the production at the root. -/
def rootUse : Deriv → Nat
  | use _ n _ _ => n
  | metavar _ => 0

/-- The derivations of the arguments of the root. -/
def rootArgs : Deriv → List Deriv
  | use _ _ _ args => args
  | metavar _ => []

end Deriv

theorem walkArgs_nodup {w : PgfCCatId → List PgfCCatId → Search (Exec (Option Deriv × List PgfCCatId))}
    (hw : ∀ c seen, (yielded Prod.fst (w c seen)).Nodup) (args : List PgfPArg) (seen : List PgfCCatId) :
    (yielded Prod.fst (walkArgs w args seen)).Nodup := by
  induction args generalizing seen with
  | nil => simp [walkArgs, yielded]
  | cons parg args ih =>
    unfold walkArgs
    split
    · refine nodup_andThen (k := Prod.fst) (fun ds => ds.headD (.metavar 0)) (hw _ _) (fun r _ => ?_) fun r ds _ hds => ?_
      · rcases r with ⟨_ | d, seen'⟩
        · simp [yielded]
        refine nodup_andThen (k := Prod.fst) List.tail (ih seen') (fun r _ => ?_) fun r ds _ hds => ?_
        · rcases r with ⟨_ | ds, seen''⟩ <;> simp [yielded]
        · obtain ⟨a, ha, he⟩ := mem_yielded.1 hds
          simp only [Search.leaves_done, List.mem_singleton, Except.ok.injEq] at ha
          rcases r with ⟨_ | ds', seen''⟩
          · simp [ha] at he
          · simp only [ha, Option.map_some, Option.some.injEq] at he
            rw [← he, List.tail_cons]
      · rcases r with ⟨_ | d, seen'⟩
        · simp [yielded] at hds
        · obtain ⟨a, ha, he⟩ := mem_yielded.1 hds
          obtain ⟨⟨o, seen''⟩, -, ha⟩ := ok_mem_andThen.1 ha
          simp only [Search.leaves_done, List.mem_singleton, Except.ok.injEq] at ha
          cases o with
          | none => simp [ha] at he
          | some ds' =>
            simp only [ha, Option.map_some, Option.some.injEq] at he
            rw [← he]
            rfl
    · simp [yielded, Exec.abort]

theorem walk_nodup (h : Heap P) (fuel : Nat) (c : PgfCCatId) (seen : List PgfCCatId) :
    (yielded Prod.fst (walk h fuel c seen)).Nodup := by
  induction fuel generalizing c seen with
  | zero => simp [walk, yielded]
  | succ fuel ih =>
    unfold walk
    split
    · simp [yielded]
    split
    · simp [yielded, Exec.abort]
    split
    · simp [yielded, Exec.abort]
    · simp [yielded]
    · refine nodup_andThen (k := id) Deriv.rootUse (nodup_choice _) (fun i _ => ?_) fun i d _ hd => ?_
      · cases i with
        | none => simp [yielded]
        | some i =>
          simp only
          split
          · simp [yielded, Exec.abort]
          refine nodup_andThen (k := Prod.fst) Deriv.rootArgs (walkArgs_nodup ih _ _) (fun r _ => ?_) fun r d _ hd => ?_
          · rcases r with ⟨_ | ds, seen'⟩ <;> simp [yielded]
          · obtain ⟨a, ha, he⟩ := mem_yielded.1 hd
            simp only [Search.leaves_done, List.mem_singleton, Except.ok.injEq] at ha
            rcases r with ⟨_ | ds, seen'⟩
            · simp [ha] at he
            · simp only [ha, Option.map_some, Option.some.injEq] at he
              rw [← he]
              rfl
      · cases i with
        | none => simp [yielded] at hd
        | some i =>
          simp only at hd
          split at hd
          · simp [yielded, Exec.abort] at hd
          obtain ⟨a, ha, he⟩ := mem_yielded.1 hd
          obtain ⟨⟨o, seen'⟩, -, ha⟩ := ok_mem_andThen.1 ha
          simp only [Search.leaves_done, List.mem_singleton, Except.ok.injEq] at ha
          cases o with
          | none => simp [ha] at he
          | some ds =>
            simp only [ha, Option.map_some, Option.some.injEq] at he
            rw [← he]
            rfl

end Libpgf
