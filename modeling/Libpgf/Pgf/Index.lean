import Libpgf.Pgf.Concretize
/-!
# The index of a linearizer

The index is built from the productions of the categories that the grammar
lists, one after the other. What it holds for a function and the categories of
its arguments, or for a category that is coerced, is a part of that listing.
-/

namespace Libpgf

/-! ## What a grammar lists -/

/-- Productions, each with its category and its number there. -/
abbrev Listing := List (PgfCCatId × Nat × PgfProduction)

namespace PgfConcr

/-- The categories of the ranges, and the others. -/
def listedCats (cnc : PgfConcr) : List PgfCCatId :=
  (cnc.cnccats.flatMap fun entry =>
    match cnc.cnccatMem[entry.2]? with
    | some cnccat => cnccat.cats.filterMap id
    | none => []) ++ cnc.extra_ccats

def prodsOf (cnc : PgfConcr) (cat : PgfCCatId) : Listing :=
  match cnc.ccatMem[cat]? with
  | some ccat => ccat.prods.elems.zipIdx.map fun p => (cat, p.2, p.1)
  | none => []

def listing (cnc : PgfConcr) : Listing := cnc.listedCats.flatMap cnc.prodsOf

theorem mem_prodsOf {cnc : PgfConcr} {cat c : PgfCCatId} {n : Nat} {p : PgfProduction} :
    (c, n, p) ∈ cnc.prodsOf cat ↔ c = cat ∧ ∃ ccat, cnc.ccatMem[cat]? = some ccat ∧ ccat.prods.elems[n]? = some p := by
  unfold prodsOf
  split
  · rename_i ccat hcc
    simp only [List.mem_map, Prod.exists, Prod.mk.injEq, List.mem_zipIdx_iff_getElem?, hcc, Option.some.injEq, exists_eq_left']
    constructor
    · rintro ⟨p, n, hp, rfl, rfl, rfl⟩
      exact ⟨rfl, hp⟩
    · rintro ⟨rfl, hp⟩
      exact ⟨p, n, hp, rfl, rfl, rfl⟩
  · rename_i hcc
    simp [hcc]

end PgfConcr

/-! ## The productions with a function and arguments -/

/-- The entry of a production for a function and argument categories. -/
def entryOf (f : PgfCId) (cats : List PgfCCatId) (e : PgfCCatId × Nat × PgfProduction) : Option PgfLinInferEntry :=
  match e.2.2 with
  | .APPLY fn args => if fn.fun_ = f ∧ args.map PgfPArg.ccat = cats then some ⟨e.1, fn⟩ else none
  | .COERCE _ => none

/-- The category of a production that coerces `c`. -/
def superOf (c : PgfCCatId) (e : PgfCCatId × Nat × PgfProduction) : Option PgfCCatId :=
  match e.2.2 with
  | .APPLY _ _ => none
  | .COERCE coerce => if coerce = c then some e.1 else none

def hasFun (f : PgfCId) (e : PgfCCatId × Nat × PgfProduction) : Bool :=
  match e.2.2 with
  | .APPLY fn _ => decide (fn.fun_ = f)
  | .COERCE _ => false

namespace Listing

/-- The elements for which `g` has a value, with their places. -/
def select {α : Type} (l : Listing) (g : PgfCCatId × Nat × PgfProduction → Option α) : List (Nat × α) :=
  l.zipIdx.filterMap fun e => (g e.1).map (e.2, ·)

theorem mem_select {α : Type} {l : Listing} {g : PgfCCatId × Nat × PgfProduction → Option α} {x : Nat} {a : α} :
    (x, a) ∈ l.select g ↔ ∃ e, l[x]? = some e ∧ g e = some a := by
  simp only [select, List.mem_filterMap, Option.map_eq_some_iff, Prod.mk.injEq]
  constructor
  · rintro ⟨⟨e, x'⟩, he, a', hg, rfl, rfl⟩
    exact ⟨e, List.mem_zipIdx_iff_getElem?.1 he, hg⟩
  · rintro ⟨e, he, hg⟩
    exact ⟨(e, x), List.mem_zipIdx_iff_getElem?.2 he, a, hg, rfl, rfl⟩

/-- No place is selected twice. -/
theorem select_nodup {α : Type} (l : Listing) (g : PgfCCatId × Nat × PgfProduction → Option α) :
    ((l.select g).map Prod.fst).Nodup := by
  have hsub : (l.select g).map Prod.fst = l.zipIdx.filterMap fun e => (g e.1).map fun _ => e.2 := by
    rw [select, List.map_filterMap]
    congr 1
    funext e
    cases g e.1 <;> rfl
  have hplaces : (l.zipIdx.map Prod.snd).Nodup := by
    rw [List.zipIdx_map_snd]
    exact List.nodup_range'
  rw [hsub]
  refine List.pairwise_filterMap.2 ((List.pairwise_map.1 hplaces).imp fun {e e'} hne a ha a' ha' => ?_)
  simp only [Option.map_eq_some_iff] at ha ha'
  obtain ⟨_, -, rfl⟩ := ha
  obtain ⟨_, -, rfl⟩ := ha'
  exact hne

theorem select_concat {α : Type} (l : Listing) (e : PgfCCatId × Nat × PgfProduction)
    (g : PgfCCatId × Nat × PgfProduction → Option α) :
    (Listing.select (l ++ [e]) g).map Prod.snd = (l.select g).map Prod.snd ++ (g e).toList := by
  rw [select, List.zipIdx_append, List.filterMap_append, List.map_append]
  congr 1
  cases h : g e <;> simp [h]

end Listing

/-- A null pointer for an empty buffer, which the index does not hold. -/
def bufOf {α : Type} (as : List α) : Option (List α) := if as = [] then none else some as

theorem bufOf_concat {α : Type} (as : List α) (a : α) : some ((bufOf as).getD [] ++ [a]) = bufOf (as ++ [a]) := by
  unfold bufOf
  split
  · simp_all
  · simp

/-- The index is that of the listing. -/
structure Indexed (lzr : PgfLzr) (l : Listing) : Prop where
  known : ∀ f, lzr.fun_indices f = none ↔ l.any (hasFun f) = false
  entries : ∀ f m cats, lzr.fun_indices f = some m → m cats = bufOf ((l.select (entryOf f cats)).map Prod.snd)
  supers : ∀ c, lzr.coerce_idx c = bufOf ((l.select (superOf c)).map Prod.snd)

theorem entryOf_none {l : Listing} {f : PgfCId} (h : l.any (hasFun f) = false) (cats : List PgfCCatId) :
    l.select (entryOf f cats) = [] := by
  refine List.eq_nil_iff_forall_not_mem.2 fun r hr => ?_
  obtain ⟨e, he, hent⟩ := Listing.mem_select.1 (show (r.1, r.2) ∈ _ from hr)
  have := List.any_eq_false.1 h e (List.mem_of_getElem? he)
  unfold entryOf at hent
  unfold hasFun at this
  split at hent
  · simp_all
  · cases hent

theorem Indexed.index {lzr : PgfLzr} {l : Listing} (h : Indexed lzr l) (cat : PgfCCatId) (n : Nat) (prod : PgfProduction) :
    Indexed (pgf_lzr_index lzr cat prod) (l ++ [(cat, n, prod)]) := by
  cases prod with
  | APPLY fn args =>
    refine ⟨fun f => ?_, fun f m cats hm => ?_, fun c => ?_⟩
    · simp only [pgf_lzr_index, List.any_append, List.any_cons, List.any_nil, Bool.or_false, Bool.or_eq_false_iff, ← h.known f,
        hasFun, decide_eq_false_iff_not]
      by_cases hf : fn.fun_ = f
      · simp [hf]
      · rw [Function.update_of_ne (Ne.symm hf)]
        simp [hf]
    · simp only [pgf_lzr_index] at hm
      rw [Listing.select_concat]
      by_cases hf : fn.fun_ = f
      · subst hf
        rw [Function.update_self, Option.some.injEq] at hm
        -- what the index has held for the function
        have hold : ((lzr.fun_indices fn.fun_).getD fun _ => none) cats =
            bufOf ((l.select (entryOf fn.fun_ cats)).map Prod.snd) := by
          cases hi : lzr.fun_indices fn.fun_ with
          | none =>
            rw [entryOf_none ((h.known _).1 hi)]
            rfl
          | some m' => exact h.entries _ _ _ hi
        subst hm
        unfold pgf_lzr_add_infer_entry
        by_cases hc : args.map PgfPArg.ccat = cats
        · subst hc
          rw [Function.update_self, hold]
          simp only [entryOf, and_self, if_true, Option.toList_some]
          exact bufOf_concat _ _
        · rw [Function.update_of_ne (Ne.symm hc), hold]
          simp [entryOf, hc]
      · rw [Function.update_of_ne (Ne.symm hf)] at hm
        simp [entryOf, hf, h.entries f m cats hm]
    · rw [Listing.select_concat]
      simp [pgf_lzr_index, h.supers c, superOf]
  | COERCE coerce =>
    refine ⟨fun f => ?_, fun f m cats hm => ?_, fun c => ?_⟩
    · simp [pgf_lzr_index, h.known f, hasFun]
    · rw [Listing.select_concat]
      simp [entryOf, h.entries f m cats hm]
    · rw [Listing.select_concat]
      simp only [pgf_lzr_index]
      by_cases hc : coerce = c
      · subst hc
        rw [Function.update_self, h.supers]
        simp only [superOf, if_true, Option.toList_some]
        exact bufOf_concat _ _
      · rw [Function.update_of_ne (Ne.symm hc)]
        simp [h.supers c, superOf, hc]

theorem Indexed.foldl {lzr : PgfLzr} {l : Listing} (h : Indexed lzr l) (l' : Listing) :
    Indexed (l'.foldl (fun lzr e => pgf_lzr_index lzr e.1 e.2.2) lzr) (l ++ l') := by
  induction l' generalizing lzr l with
  | nil => rwa [List.append_nil]
  | cons e l' ih =>
    rw [List.foldl_cons, List.append_cons]
    exact ih (h.index e.1 e.2.1 e.2.2)

/-! ## The index is built from the listing -/

theorem index_cnc (lzr : PgfLzr) (l : Listing) : (l.foldl (fun lzr e => pgf_lzr_index lzr e.1 e.2.2) lzr).cnc = lzr.cnc := by
  induction l generalizing lzr with
  | nil => rfl
  | cons e l ih =>
    rw [List.foldl_cons, ih]
    cases he : e.2.2 <;> rfl

/-- A loop whose rounds index productions indexes those of all rounds. -/
theorem forEach_index {α : Type} {cnc : PgfConcr} {f : PgfLzr → α → Exec PgfLzr} {g : α → Listing}
    (hf : ∀ lzr a lzr', lzr.cnc = cnc → f lzr a = .ok lzr' → lzr' = (g a).foldl (fun lzr e => pgf_lzr_index lzr e.1 e.2.2) lzr)
    {as : List α} {lzr lzr' : PgfLzr} (hc : lzr.cnc = cnc) (h : forEach f as lzr = .ok lzr') :
    lzr' = (as.flatMap g).foldl (fun lzr e => pgf_lzr_index lzr e.1 e.2.2) lzr := by
  induction as generalizing lzr with
  | nil =>
    simp only [forEach_nil, Except.ok.injEq] at h
    exact h.symm
  | cons a as ih =>
    obtain ⟨lzr₁, h₁, h₂⟩ := Exec.bind_ok.1 h
    have he := hf _ _ _ hc h₁
    rw [List.flatMap_cons, List.foldl_append, ← he]
    refine ih ?_ h₂
    rw [he, index_cnc, hc]

theorem index_ccat {cnc : PgfConcr} {lzr lzr' : PgfLzr} {cat : PgfCCatId} (hc : lzr.cnc = cnc)
    (h : pgf_lzr_index_ccat lzr cat = .ok lzr') :
    lzr' = (cnc.prodsOf cat).foldl (fun lzr e => pgf_lzr_index lzr e.1 e.2.2) lzr := by
  obtain ⟨ccat, hcc, h⟩ := Exec.bind_ok.1 h
  rw [Exec.deref_ok, hc] at hcc
  have hprods : (cnc.prodsOf cat).foldl (fun lzr e => pgf_lzr_index lzr e.1 e.2.2) lzr =
      ccat.prods.elems.foldl (fun lzr prod => pgf_lzr_index lzr cat prod) lzr := by
    simp only [PgfConcr.prodsOf, hcc, List.foldl_map]
    conv_rhs => rw [← List.zipIdx_map_fst 0 ccat.prods.elems, List.foldl_map]
  rw [hprods]
  split at h
  · rename_i hnull
    have helems : ccat.prods.elems = [] := by
      cases hp : ccat.prods <;> simp_all [PgfProductions.isNull, PgfProductions.elems]
    simp only [Exec.pure_eq, Except.ok.injEq] at h
    rw [helems, ← h, List.foldl_nil]
  · simp only [Exec.pure_eq, Except.ok.injEq] at h
    exact h.symm

theorem new_lzr_indexed {cnc : PgfConcr} {lzr : PgfLzr} (h : pgf_new_lzr cnc = .ok lzr) :
    lzr.cnc = cnc ∧ Indexed lzr cnc.listing := by
  obtain ⟨lzr₁, h₁, h₂⟩ := Exec.bind_ok.1 h
  have hr₁ := forEach_index (g := fun entry : PgfCId × PgfCncCatId => (match cnc.cnccatMem[entry.2]? with
    | some cnccat => cnccat.cats.filterMap id
    | none => []).flatMap cnc.prodsOf) ?_ rfl h₁
  · have hc₁ : lzr₁.cnc = cnc := by rw [hr₁, index_cnc]
    have hr₂ := forEach_index (f := pgf_lzr_index_ccat) (fun lzr a lzr' => index_ccat) hc₁ h₂
    have hr : lzr = cnc.listing.foldl (fun lzr e => pgf_lzr_index lzr e.1 e.2.2) ⟨cnc, fun _ => none, fun _ => none⟩ := by
      rw [hr₂, hr₁, ← List.foldl_append, PgfConcr.listing, PgfConcr.listedCats, List.flatMap_append, List.flatMap_assoc]
    have h0 : Indexed ⟨cnc, fun _ => none, fun _ => none⟩ [] := ⟨by simp, by simp, by simp [bufOf, Listing.select]⟩
    rw [hr]
    exact ⟨index_cnc _ _, h0.foldl _⟩
  · intro lzr entry lzr' hc hcb
    obtain ⟨cnccat, hcnc, hcb⟩ := Exec.bind_ok.1 hcb
    rw [Exec.deref_ok, hc] at hcnc
    have hcats := forEach_index (g := fun cat : Option PgfCCatId => cat.toList.flatMap cnc.prodsOf) ?_ hc hcb
    · rw [hcats, hcnc]
      congr 1
      simp only [List.filterMap_eq_flatMap_toList, List.flatMap_assoc, id_eq]
    · intro lzr cat lzr' hc hcat
      cases cat with
      | none =>
        simp only [Except.ok.injEq] at hcat
        simp [hcat]
      | some cat => simpa using index_ccat hc hcat

end Libpgf
