import Libpgf.Pgf.Inference
/-!
# Derivations from the leaves up

A derivation of an expression has a production for each application, and for
each argument a way up along coercions to the category that the production
takes. The search tree of the expression finds each derivation once.
-/

namespace Libpgf

open GuChoice

section Infers
variable {ι : Type} (has : ι → PgfCCatId → PgfProduction → Prop) (literal_cat : PgfLiteral → PgfCCatId)

/-- The coercions lead from one category up to another. -/
def Chain : PgfCCatId → List ι → PgfCCatId → Prop
  | c, [], a => c = a
  | c, x :: xs, a => ∃ c', has x c' (.COERCE c) ∧ Chain c' xs a

mutual

/-- A derivation of an expression in a category. -/
def Infers : Spine → PgfCCatId → Inferred ι → Prop
  | .app f args, cat, .app x fn chains ds =>
    ∃ pargs, has x cat (.APPLY fn pargs) ∧ fn.fun_ = f ∧ InfersArgs args (pargs.map PgfPArg.ccat) chains ds
  | .lit l, cat, .lit l' => l' = l ∧ cat = literal_cat l
  | _, _, _ => False

/-- For each argument a derivation, and coercions from its category up to that of the argument. -/
def InfersArgs : List Spine → List PgfCCatId → List (List ι) → List (Inferred ι) → Prop
  | [], [], [], [] => True
  | s :: ss, a :: as, xs :: chains, d :: ds => (∃ c, Infers s c d ∧ Chain has c xs a) ∧ InfersArgs ss as chains ds
  | _, _, _, _ => False

end

end Infers

/-- A production of the listing. -/
def Listing.Has (l : Listing) (x : Nat) (cat : PgfCCatId) (prod : PgfProduction) : Prop := ∃ n, l[x]? = some (cat, n, prod)

section Leaves
variable {l : Listing} {depth : Nat} {literal_cat : PgfLiteral → PgfCCatId}

/-! ## Ways up -/

theorem mem_supers {c a : PgfCCatId} {x : Nat} : (x, a) ∈ l.select (superOf c) ↔ l.Has x a (.COERCE c) := by
  rw [Listing.mem_select]
  constructor
  · rintro ⟨⟨cat, n, prod⟩, hx, hs⟩
    unfold superOf at hs
    split at hs
    · cases hs
    · rename_i coerce hprod
      split at hs
      · rename_i hc
        simp only [Option.some.injEq] at hs
        obtain rfl : cat = a := hs
        obtain rfl : prod = .COERCE coerce := hprod
        subst hc
        exact ⟨n, hx⟩
      · cases hs
  · rintro ⟨n, hx⟩
    exact ⟨_, hx, by simp [superOf]⟩

theorem super_sound {c a : PgfCCatId} {xs : List Nat} (h : .ok (a, xs) ∈ (superTree l depth c).leaves) : Chain l.Has c xs a := by
  induction depth generalizing c xs with
  | zero => simp [superTree] at h
  | succ depth ih =>
    unfold superTree at h
    split at h
    · simp only [Search.leaves_done, List.mem_singleton, Except.ok.injEq, Prod.mk.injEq] at h
      obtain ⟨rfl, rfl⟩ := h
      rfl
    · rename_i s ss hs
      obtain ⟨k, -, h⟩ := ok_mem_andThen.1 h
      rcases k with _ | _ | k
      · simp [Exec.abort] at h
      · simp only [Search.leaves_done, List.mem_singleton, Except.ok.injEq, Prod.mk.injEq] at h
        obtain ⟨rfl, rfl⟩ := h
        rfl
      · simp only at h
        split at h
        · simp [Exec.abort] at h
        · rename_i x c' hk
          obtain ⟨⟨a', xs'⟩, hrec, h⟩ := ok_mem_andThen.1 h
          simp only [Search.leaves_done, List.mem_singleton, Except.ok.injEq, Prod.mk.injEq] at h
          obtain ⟨rfl, rfl⟩ := h
          exact ⟨c', mem_supers.1 (hs ▸ List.mem_of_getElem? hk), ih hrec⟩

theorem super_complete {rank : PgfCCatId → Nat} (hr : Ranked l rank) {c a : PgfCCatId} {xs : List Nat} (hd : rank c < depth)
    (hsafe : Safe (superTree l depth c)) (h : Chain l.Has c xs a) : .ok (a, xs) ∈ (superTree l depth c).leaves := by
  induction depth generalizing c xs with
  | zero => omega
  | succ depth ih =>
    unfold superTree at hsafe ⊢
    split
    · rename_i hnil
      cases xs with
      | nil =>
        obtain rfl : c = a := h
        exact List.mem_singleton_self _
      | cons x xs =>
        obtain ⟨c', hx, -⟩ := h
        have hmem := mem_supers.2 hx
        simp [hnil] at hmem
    · rename_i s ss hs
      simp only [hs] at hsafe
      obtain ⟨hchoice, hsafe⟩ := safe_andThen.1 hsafe
      cases xs with
      | nil =>
        obtain rfl : c = a := h
        exact ok_mem_andThen.2 ⟨some 0, mem_choice hchoice (by omega), List.mem_singleton_self _⟩
      | cons x xs =>
        obtain ⟨c', hx, hchain⟩ := h
        have hmem := mem_supers.2 hx
        have hlt := hr c _ hmem
        rw [hs] at hmem
        obtain ⟨k, hk⟩ := List.getElem?_of_mem hmem
        have hkl : k < ss.length + 1 := (List.getElem?_eq_some_iff.1 hk).1
        have hmem := mem_choice hchoice (show k + 1 < ss.length + 2 by omega)
        have hsafe := hsafe _ hmem
        refine ok_mem_andThen.2 ⟨_, hmem, ?_⟩
        simp only [hk] at hsafe ⊢
        exact ok_mem_andThen.2 ⟨_, ih (by simp only at hlt; omega) (safe_andThen.1 hsafe).1 hchain, List.mem_singleton_self _⟩

theorem super_nodup (c : PgfCCatId) : (yielded (fun r => some r.2) (superTree l depth c)).Nodup := by
  induction depth generalizing c with
  | zero => simp [superTree, yielded]
  | succ depth ih =>
    unfold superTree
    split
    · simp [yielded]
    · rename_i s ss hs
      have hplaces := l.select_nodup (superOf c)
      rw [hs] at hplaces
      refine nodup_andThen (k := id) (fun xs => xs.head?.elim 0 fun x => ((s :: ss).map Prod.fst).idxOf x + 1) (nodup_choice _) (fun k _ => ?_) fun k xs _ hxs => ?_
      · rcases k with _ | _ | k
        · simp [yielded, Exec.abort]
        · simp [yielded]
        · simp only
          split
          · simp [yielded, Exec.abort]
          · refine nodup_andThen (k := fun r => some r.2) List.tail (ih _) (fun _ _ => by simp [yielded]) fun r xs _ hxs => ?_
            simp only [yielded, Search.leaves_done, List.filterMap_cons, List.filterMap_nil, List.mem_singleton] at hxs
            rw [hxs, List.tail_cons]
      · rcases k with _ | _ | k
        · simp [yielded, Exec.abort] at hxs
        · simp only [yielded, Search.leaves_done, List.filterMap_cons, List.filterMap_nil, List.mem_singleton] at hxs
          rw [hxs]
          rfl
        · simp only at hxs
          split at hxs
          · simp [yielded, Exec.abort] at hxs
          · rename_i x c' hk
            obtain ⟨r, hr, hxs⟩ := mem_yielded.1 hxs
            obtain ⟨_, -, hr⟩ := ok_mem_andThen.1 hr
            simp only [Search.leaves_done, List.mem_singleton, Except.ok.injEq] at hr
            simp only [hr, Option.some.injEq] at hxs
            obtain ⟨hlt, hget⟩ := List.getElem?_eq_some_iff.1 hk
            have hidx := hplaces.idxOf_getElem k (by simpa using hlt)
            rw [List.getElem_map, hget] at hidx
            rw [← hxs]
            simp only [List.head?_cons, Option.elim_some, hidx, id_eq]

/-! ## Applications -/

theorem mem_entries {f : PgfCId} {cats : List PgfCCatId} {x : Nat} {entry : PgfLinInferEntry} :
    (x, entry) ∈ l.select (entryOf f cats) ↔
      ∃ pargs, l.Has x entry.cat (.APPLY entry.fun_ pargs) ∧ entry.fun_.fun_ = f ∧ pargs.map PgfPArg.ccat = cats := by
  rw [Listing.mem_select]
  constructor
  · rintro ⟨⟨cat, n, prod⟩, hx, hs⟩
    unfold entryOf at hs
    split at hs
    · rename_i fn pargs hprod
      split at hs
      · rename_i hf
        simp only [Option.some.injEq] at hs
        subst hs
        obtain rfl : prod = .APPLY fn pargs := hprod
        exact ⟨pargs, ⟨n, hx⟩, hf.1, hf.2⟩
      · cases hs
    · cases hs
  · rintro ⟨pargs, ⟨n, hx⟩, hf, hcats⟩
    exact ⟨_, hx, by simp [entryOf, hf, hcats]⟩

theorem any_hasFun {f : PgfCId} {x : Nat} {cat : PgfCCatId} {fn : PgfCncFun} {pargs : List PgfPArg}
    (h : l.Has x cat (.APPLY fn pargs)) (hf : fn.fun_ = f) : l.any (hasFun f) = true := by
  obtain ⟨n, hx⟩ := h
  exact List.any_eq_true.2 ⟨_, List.mem_of_getElem? hx, by simp [hasFun, hf]⟩

theorem entry_sound {f : PgfCId} {args : List Arg} {cat : PgfCCatId} {d : Inferred Nat}
    (h : .ok (some (cat, d)) ∈ (entryTree l f args).leaves) : ∃ x fn pargs, l.Has x cat (.APPLY fn pargs) ∧ fn.fun_ = f ∧
      pargs.map PgfPArg.ccat = args.map Arg.cat ∧ d = .app x fn (args.map Arg.chain) (args.map Arg.deriv) := by
  obtain ⟨k, -, h⟩ := ok_mem_andThen.1 h
  cases k with
  | none => simp at h
  | some k =>
    simp only at h
    split at h
    · simp [Exec.abort] at h
    · rename_i x entry hk
      simp only [Search.leaves_done, List.mem_singleton, Except.ok.injEq, Option.some.injEq, Prod.mk.injEq] at h
      obtain ⟨rfl, rfl⟩ := h
      obtain ⟨pargs, hx, hf, hcats⟩ := mem_entries.1 (List.mem_of_getElem? hk)
      exact ⟨x, _, pargs, hx, hf, hcats, rfl⟩

theorem entry_complete {f : PgfCId} {args : List Arg} (hsafe : Safe (entryTree l f args)) {x : Nat} {cat : PgfCCatId}
    {fn : PgfCncFun} {pargs : List PgfPArg} (hx : l.Has x cat (.APPLY fn pargs)) (hf : fn.fun_ = f)
    (hcats : pargs.map PgfPArg.ccat = args.map Arg.cat) :
    .ok (some (cat, .app x fn (args.map Arg.chain) (args.map Arg.deriv))) ∈ (entryTree l f args).leaves := by
  have hmem : (x, (⟨cat, fn⟩ : PgfLinInferEntry)) ∈ l.select (entryOf f (args.map Arg.cat)) := mem_entries.2 ⟨pargs, hx, hf, hcats⟩
  obtain ⟨k, hk⟩ := List.getElem?_of_mem hmem
  have hlt := (List.getElem?_eq_some_iff.1 hk).1
  refine ok_mem_andThen.2 ⟨some k, mem_choice (safe_andThen.1 hsafe).1 hlt, ?_⟩
  simp only [hk]
  exact List.mem_singleton_self _

mutual

/-- What the search tree finds is a derivation. -/
theorem infer_sound : (s : Spine) → {cat : PgfCCatId} → {d : Inferred Nat} →
    .ok (some (cat, d)) ∈ (inferTree l depth literal_cat s).leaves → Infers l.Has literal_cat s cat d
  | .app f ss, cat, d, h => by
    rw [inferTree] at h
    split at h
    · obtain ⟨args, hargs, h⟩ := tail_sound ss h
      obtain ⟨x, fn, pargs, hx, hf, hcats, rfl⟩ := entry_sound h
      exact ⟨pargs, hx, hf, hcats ▸ hargs⟩
    · simp at h
  | .lit lit, cat, d, h => by
    simp only [inferTree, Search.leaves_done, List.mem_singleton, Except.ok.injEq, Option.some.injEq, Prod.mk.injEq] at h
    obtain ⟨rfl, rfl⟩ := h
    exact ⟨rfl, rfl⟩
  | .other, cat, d, h => by simp [inferTree] at h

/-- The arguments that are left have been found before the production. -/
theorem tail_sound : (ss : List Spine) → {f : PgfCId} → {done : List Arg} → {cat : PgfCCatId} → {d : Inferred Nat} →
    .ok (some (cat, d)) ∈ (tailTree l depth literal_cat f ss done).leaves →
    ∃ args, InfersArgs l.Has literal_cat ss (args.map Arg.cat) (args.map Arg.chain) (args.map Arg.deriv) ∧
      .ok (some (cat, d)) ∈ (entryTree l f (done ++ args)).leaves
  | [], f, done, cat, d, h => by
    rw [tailTree] at h
    exact ⟨[], trivial, by rwa [List.append_nil]⟩
  | s :: ss, f, done, cat, d, h => by
    rw [tailTree] at h
    obtain ⟨a, ha, h⟩ := ok_mem_andAlso.1 h
    obtain ⟨args, hargs, h⟩ := tail_sound ss h
    obtain ⟨⟨c, d'⟩, hd', ha⟩ := ok_mem_andAlso.1 ha
    obtain ⟨⟨cat', xs⟩, hxs, ha⟩ := ok_mem_andThen.1 ha
    simp only [Search.leaves_done, List.mem_singleton, Except.ok.injEq, Option.some.injEq] at ha
    subst ha
    rw [List.append_assoc] at h
    exact ⟨_ :: args, ⟨⟨c, infer_sound s hd', super_sound hxs⟩, hargs⟩, h⟩

end

section Complete
variable {rank : PgfCCatId → Nat}

theorem stage_complete {s : Search (Exec (Option (PgfCCatId × Inferred Nat)))}
    (hr : Ranked l rank) (hd : ∀ c, rank c < depth) (hsafe : Safe (stage l depth s)) {c a : PgfCCatId} {xs : List Nat} {d : Inferred Nat}
    (hmem : .ok (some (c, d)) ∈ s.leaves) (hchain : Chain l.Has c xs a) : .ok (some ⟨a, xs, d⟩) ∈ (stage l depth s).leaves := by
  have hsafe := (safe_andAlso.1 hsafe).2 _ hmem
  exact ok_mem_andAlso.2 ⟨_, hmem, ok_mem_andThen.2 ⟨_, super_complete hr (hd c) (safe_andThen.1 hsafe).1 hchain, List.mem_singleton_self _⟩⟩

mutual

/-- When no run stops the search tree finds every derivation. -/
theorem infer_complete (hr : Ranked l rank) (hd : ∀ c, rank c < depth) : (s : Spine) → {cat : PgfCCatId} → {d : Inferred Nat} →
    Safe (inferTree l depth literal_cat s) → Infers l.Has literal_cat s cat d →
    .ok (some (cat, d)) ∈ (inferTree l depth literal_cat s).leaves
  | .app f ss, cat, .app x fn chains ds, hsafe, h => by
    obtain ⟨pargs, hx, hf, hargs⟩ := h
    rw [inferTree, if_pos (any_hasFun hx hf)] at hsafe ⊢
    exact tail_complete hr hd ss hsafe hargs hx hf rfl
  | .lit lit, cat, .lit lit', _, h => by
    obtain ⟨rfl, rfl⟩ := h
    rw [inferTree]
    exact List.mem_singleton_self _
  | .app f ss, cat, .lit lit, _, h => by simp [Infers] at h
  | .lit lit, cat, .app x fn chains ds, _, h => by simp [Infers] at h
  | .other, cat, d, _, h => by simp [Infers] at h

theorem tail_complete (hr : Ranked l rank) (hd : ∀ c, rank c < depth) : (ss : List Spine) → {f : PgfCId} → {done : List Arg} →
    {cats : List PgfCCatId} → {chains : List (List Nat)} → {ds : List (Inferred Nat)} → Safe (tailTree l depth literal_cat f ss done) →
    InfersArgs l.Has literal_cat ss cats chains ds → {x : Nat} → {cat : PgfCCatId} → {fn : PgfCncFun} → {pargs : List PgfPArg} →
    l.Has x cat (.APPLY fn pargs) → fn.fun_ = f → pargs.map PgfPArg.ccat = done.map Arg.cat ++ cats →
    .ok (some (cat, .app x fn (done.map Arg.chain ++ chains) (done.map Arg.deriv ++ ds))) ∈
      (tailTree l depth literal_cat f ss done).leaves
  | [], f, done, [], [], [], hsafe, _, x, cat, fn, pargs, hx, hf, hcats => by
    rw [tailTree] at hsafe ⊢
    simp only [List.append_nil] at hcats ⊢
    exact entry_complete hsafe hx hf hcats
  | s :: ss, f, done, a :: cats, xs :: chains, d :: ds, hsafe, h, x, cat, fn, pargs, hx, hf, hcats => by
    obtain ⟨⟨c, hinf, hchain⟩, hargs⟩ := h
    rw [tailTree] at hsafe ⊢
    obtain ⟨hstage, hsafe⟩ := safe_andAlso.1 hsafe
    have hmem := stage_complete hr hd hstage (infer_complete hr hd s (safe_andAlso.1 hstage).1 hinf) hchain
    have hleaf := tail_complete hr hd ss (hsafe _ hmem) hargs hx hf (by rw [hcats]; simp)
    refine ok_mem_andAlso.2 ⟨_, hmem, ?_⟩
    simpa using hleaf
  | [], _, _, _ :: _, _, _, _, h, _, _, _, _, _, _, _ => by simp [InfersArgs] at h
  | [], _, _, [], _ :: _, _, _, h, _, _, _, _, _, _, _ => by simp [InfersArgs] at h
  | [], _, _, [], [], _ :: _, _, h, _, _, _, _, _, _, _ => by simp [InfersArgs] at h
  | _ :: _, _, _, [], _, _, _, h, _, _, _, _, _, _, _ => by simp [InfersArgs] at h
  | _ :: _, _, _, _ :: _, [], _, _, h, _, _, _, _, _, _, _ => by simp [InfersArgs] at h
  | _ :: _, _, _, _ :: _, _ :: _, [], _, h, _, _, _, _, _, _, _ => by simp [InfersArgs] at h

end

end Complete

/-! ## No derivation is found twice -/

theorem stage_nodup {s : Search (Exec (Option (PgfCCatId × Inferred Nat)))} (hs : (yielded (fun o => o.map Prod.snd) s).Nodup) :
    (yielded (fun o => o.map fun a => (a.chain, a.deriv)) (stage l depth s)).Nodup := by
  refine nodup_andThen (k := fun o => o.map Prod.snd) Prod.snd hs (fun o _ => ?_) fun o c _ hc => ?_
  · rcases o with _ | a
    · simp [yielded]
    · refine nodup_andThen (k := fun r => some r.2) Prod.fst (super_nodup a.1) (fun _ _ => by simp [yielded]) fun r c _ hc => ?_
      simp only [yielded, Search.leaves_done, List.filterMap_cons, List.filterMap_nil, Option.map_some, List.mem_singleton] at hc
      rw [hc]
  · rcases o with _ | a
    · simp [yielded] at hc
    · obtain ⟨o, ho, hc⟩ := mem_yielded.1 hc
      obtain ⟨r, -, ho⟩ := ok_mem_andThen.1 ho
      simp only [Search.leaves_done, List.mem_singleton, Except.ok.injEq] at ho
      simp only [ho, Option.map_some, Option.some.injEq] at hc
      rw [← hc]
      rfl

theorem entry_nodup (f : PgfCId) (args : List Arg) : (yielded (fun o => o.map Prod.snd) (entryTree l f args)).Nodup := by
  refine nodup_andThen (k := id) (fun
    | .app x _ _ _ => ((l.select (entryOf f (args.map Arg.cat))).map Prod.fst).idxOf x
    | .lit _ => 0) (nodup_choice _) (fun k _ => ?_) fun k d _ hd => ?_
  · cases k with
    | none => simp [yielded]
    | some k =>
      simp only
      split <;> simp [yielded, Exec.abort]
  · cases k with
    | none => simp [yielded] at hd
    | some k =>
      simp only at hd
      split at hd
      · simp [yielded, Exec.abort] at hd
      · rename_i x entry hk
        simp only [yielded, Search.leaves_done, List.filterMap_cons, List.filterMap_nil, Option.map_some, List.mem_singleton] at hd
        obtain ⟨hlt, hget⟩ := List.getElem?_eq_some_iff.1 hk
        have hidx := (l.select_nodup (entryOf f (args.map Arg.cat))).idxOf_getElem k (by simpa using hlt)
        rw [List.getElem_map, hget] at hidx
        rw [hd]
        simp only [hidx, id_eq]

mutual

theorem infer_nodup : (s : Spine) → (yielded (fun o => o.map Prod.snd) (inferTree l depth literal_cat s)).Nodup
  | .app f ss => by
    rw [inferTree]
    split
    · exact tail_nodup ss f []
    · simp [yielded]
  | .lit lit => by simp [inferTree, yielded]
  | .other => by simp [inferTree, yielded]

theorem tail_nodup : (ss : List Spine) → (f : PgfCId) → (done : List Arg) →
    (yielded (fun o => o.map Prod.snd) (tailTree l depth literal_cat f ss done)).Nodup
  | [], f, done => by
    rw [tailTree]
    exact entry_nodup f done
  | s :: ss, f, done => by
    rw [tailTree]
    -- the next argument is the one behind those in `done`
    refine nodup_andThen (k := fun o => o.map fun a => (a.chain, a.deriv)) (fun
      | .app x fn chains ds => (chains.getD done.length [], ds.getD done.length (.app x fn chains ds))
      | .lit lit => ([], .lit lit)) (stage_nodup (infer_nodup s)) (fun o _ => ?_) fun o d _ hd => ?_
    · rcases o with _ | a
      · simp [yielded]
      · exact tail_nodup ss f (done ++ [a])
    · rcases o with _ | a
      · simp [yielded] at hd
      · obtain ⟨o, ho, hd⟩ := mem_yielded.1 hd
        obtain ⟨⟨cat, d'⟩, rfl, rfl⟩ := Option.map_eq_some_iff.1 hd
        obtain ⟨args, -, hleaf⟩ := tail_sound ss ho
        obtain ⟨x, fn, pargs, -, -, -, rfl⟩ := entry_sound hleaf
        simp

end

end Leaves

end Libpgf
