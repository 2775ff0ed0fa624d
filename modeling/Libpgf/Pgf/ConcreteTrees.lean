import Libpgf.Pgf.Concretizations
import Libpgf.Pgf.Derivations
/-!
# Which concrete trees are enumerated

`pgf_lzr_concretize` enumerates the derivations of an expression by places in
the listing of the grammar. Where a category is listed twice its productions
have two places, and derivations come more than once.
-/

namespace Libpgf

open GuChoice

/-! ## Labels of derivations -/

namespace Inferred
variable {ι κ : Type}

mutual

def map (g : ι → κ) : Inferred ι → Inferred κ
  | app x f chains args => app (g x) f (chains.map (List.map g)) (maps g args)
  | lit l => lit l

def maps (g : ι → κ) : List (Inferred ι) → List (Inferred κ)
  | [] => []
  | d :: ds => d.map g :: maps g ds

end

mutual

/-- The productions that a derivation uses. -/
def labels : Inferred ι → List ι
  | app x _ chains args => x :: (chains.flatten ++ labelss args)
  | lit _ => []

def labelss : List (Inferred ι) → List ι
  | [] => []
  | d :: ds => d.labels ++ labelss ds

end

mutual

theorem map_tree (g : ι → κ) : (d : Inferred ι) → (d.map g).tree = d.tree
  | app x f chains args => by rw [map, tree, tree, maps_trees g args]
  | lit l => rfl

theorem maps_trees (g : ι → κ) : (ds : List (Inferred ι)) → trees (maps g ds) = trees ds
  | [] => rfl
  | d :: ds => by rw [maps, trees, trees, map_tree g d, maps_trees g ds]

end

mutual

theorem map_map {μ : Type} (g : ι → κ) (h : κ → μ) : (d : Inferred ι) → (d.map g).map h = d.map (h ∘ g)
  | app x f chains args => by
    simp only [map, maps_maps g h args, List.map_map, Function.comp_apply, app.injEq, true_and, and_true]
    exact List.map_congr_left fun xs _ => List.map_map
  | lit l => rfl

theorem maps_maps {μ : Type} (g : ι → κ) (h : κ → μ) : (ds : List (Inferred ι)) → maps h (maps g ds) = maps (h ∘ g) ds
  | [] => rfl
  | d :: ds => by rw [maps, maps, maps, map_map g h d, maps_maps g h ds]

end

mutual

theorem labels_map (g : ι → κ) : (d : Inferred ι) → (d.map g).labels = d.labels.map g
  | app x f chains args => by
    simp only [map, labels, labelss_maps g args, List.map_cons, List.map_append, List.map_flatten]
  | lit l => rfl

theorem labelss_maps (g : ι → κ) : (ds : List (Inferred ι)) → labelss (maps g ds) = (labelss ds).map g
  | [] => rfl
  | d :: ds => by rw [maps, labelss, labelss, labels_map g d, labelss_maps g ds, List.map_append]

end

/-- Lists are equal when a map that does not confuse their elements makes them equal. -/
theorem list_inj {α β : Type} {g : α → β} : {xs ys : List α} → (∀ x ∈ xs, ∀ y ∈ ys, g x = g y → x = y) → xs.map g = ys.map g → xs = ys
  | [], [], _, _ => rfl
  | x :: xs, y :: ys, hg, h => by
    simp only [List.map_cons, List.cons.injEq] at h
    rw [hg x List.mem_cons_self y List.mem_cons_self h.1,
      list_inj (fun x hx y hy => hg x (List.mem_cons_of_mem _ hx) y (List.mem_cons_of_mem _ hy)) h.2]

mutual

theorem map_inj {g : ι → κ} : (d d' : Inferred ι) → (∀ x ∈ d.labels, ∀ y ∈ d'.labels, g x = g y → x = y) →
    d.map g = d'.map g → d = d'
  | app x f chains args, app x' f' chains' args', hg, h => by
    simp only [map, app.injEq] at h
    obtain ⟨hx, rfl, hchains, hargs⟩ := h
    simp only [labels, List.mem_cons, List.mem_append] at hg
    have hchains : chains = chains' := by
      refine list_inj (fun xs hxs ys hys hmap => list_inj (fun x hx y hy => ?_) hmap) hchains
      exact hg x (.inr (.inl (List.mem_flatten_of_mem hxs hx))) y (.inr (.inl (List.mem_flatten_of_mem hys hy)))
    rw [hg x (.inl rfl) x' (.inl rfl) hx, hchains,
      maps_inj args args' (fun x hx y hy => hg x (.inr (.inr hx)) y (.inr (.inr hy))) hargs]
  | lit l, lit l', _, h => by simpa only [map, lit.injEq] using h
  | app _ _ _ _, lit _, _, h => by simp [map] at h
  | lit _, app _ _ _ _, _, h => by simp [map] at h

theorem maps_inj {g : ι → κ} : (ds ds' : List (Inferred ι)) → (∀ x ∈ labelss ds, ∀ y ∈ labelss ds', g x = g y → x = y) →
    maps g ds = maps g ds' → ds = ds'
  | [], [], _, _ => rfl
  | d :: ds, d' :: ds', hg, h => by
    simp only [maps, List.cons.injEq] at h
    simp only [labelss, List.mem_append] at hg
    rw [map_inj d d' (fun x hx y hy => hg x (.inl hx) y (.inl hy)) h.1,
      maps_inj ds ds' (fun x hx y hy => hg x (.inr hx) y (.inr hy)) h.2]
  | [], _ :: _, _, h => by simp [maps] at h
  | _ :: _, [], _, h => by simp [maps] at h

end

end Inferred

/-! ## The same derivation under other labels -/

section Relabel
variable {ι κ : Type} {has : ι → PgfCCatId → PgfProduction → Prop} {has' : κ → PgfCCatId → PgfProduction → Prop}
  {literal_cat : PgfLiteral → PgfCCatId} {g : ι → κ}

theorem Chain.map (hg : ∀ x cat prod, has x cat prod → has' (g x) cat prod) {c a : PgfCCatId} {xs : List ι} (h : Chain has c xs a) :
    Chain has' c (xs.map g) a := by
  induction xs generalizing c with
  | nil => exact h
  | cons x xs ih =>
    obtain ⟨c', hx, h⟩ := h
    exact ⟨c', hg _ _ _ hx, ih h⟩

theorem Chain.lift (hg : ∀ y cat prod, has' y cat prod → ∃ x, g x = y ∧ has x cat prod) {c a : PgfCCatId} {ys : List κ}
    (h : Chain has' c ys a) : ∃ xs, xs.map g = ys ∧ Chain has c xs a := by
  induction ys generalizing c with
  | nil => exact ⟨[], rfl, h⟩
  | cons y ys ih =>
    obtain ⟨c', hy, h⟩ := h
    obtain ⟨x, rfl, hx⟩ := hg _ _ _ hy
    obtain ⟨xs, rfl, hxs⟩ := ih h
    exact ⟨x :: xs, rfl, c', hx, hxs⟩

theorem Chain.label {c a : PgfCCatId} {xs : List ι} (h : Chain has c xs a) {x : ι} (hx : x ∈ xs) : ∃ cat prod, has x cat prod := by
  induction xs generalizing c with
  | nil => cases hx
  | cons x' xs ih =>
    obtain ⟨c', hx', h⟩ := h
    rcases List.mem_cons.1 hx with rfl | hx
    · exact ⟨_, _, hx'⟩
    · exact ih h hx

mutual

theorem infers_map (hg : ∀ x cat prod, has x cat prod → has' (g x) cat prod) : (s : Spine) → {cat : PgfCCatId} → {d : Inferred ι} →
    Infers has literal_cat s cat d → Infers has' literal_cat s cat (d.map g)
  | .app f ss, cat, .app x fn chains ds, h => by
    obtain ⟨pargs, hx, hf, hargs⟩ := h
    exact ⟨pargs, hg _ _ _ hx, hf, infersArgs_map hg ss hargs⟩
  | .lit lit, cat, .lit lit', h => h
  | .app f ss, cat, .lit lit, h => by simp [Infers] at h
  | .lit lit, cat, .app x fn chains ds, h => by simp [Infers] at h
  | .other, cat, d, h => by simp [Infers] at h

theorem infersArgs_map (hg : ∀ x cat prod, has x cat prod → has' (g x) cat prod) : (ss : List Spine) → {cats : List PgfCCatId} →
    {chains : List (List ι)} → {ds : List (Inferred ι)} → InfersArgs has literal_cat ss cats chains ds →
    InfersArgs has' literal_cat ss cats (chains.map (List.map g)) (Inferred.maps g ds)
  | [], [], [], [], _ => trivial
  | s :: ss, a :: cats, xs :: chains, d :: ds, h => by
    obtain ⟨⟨c, hd, hchain⟩, hargs⟩ := h
    exact ⟨⟨c, infers_map hg s hd, hchain.map hg⟩, infersArgs_map hg ss hargs⟩
  | [], _ :: _, _, _, h => by simp [InfersArgs] at h
  | [], [], _ :: _, _, h => by simp [InfersArgs] at h
  | [], [], [], _ :: _, h => by simp [InfersArgs] at h
  | _ :: _, [], _, _, h => by simp [InfersArgs] at h
  | _ :: _, _ :: _, [], _, h => by simp [InfersArgs] at h
  | _ :: _, _ :: _, _ :: _, [], h => by simp [InfersArgs] at h

end

mutual

theorem infers_lift (hg : ∀ y cat prod, has' y cat prod → ∃ x, g x = y ∧ has x cat prod) : (s : Spine) → {cat : PgfCCatId} →
    {e : Inferred κ} → Infers has' literal_cat s cat e → ∃ d : Inferred ι, d.map g = e ∧ Infers has literal_cat s cat d
  | .app f ss, cat, .app y fn chains es, h => by
    obtain ⟨pargs, hy, hf, hargs⟩ := h
    obtain ⟨x, rfl, hx⟩ := hg _ _ _ hy
    obtain ⟨chains, ds, rfl, rfl, hargs'⟩ := infersArgs_lift hg ss hargs
    exact ⟨.app x fn chains ds, rfl, pargs, hx, hf, hargs'⟩
  | .lit lit, cat, .lit lit', h => ⟨.lit lit', rfl, h⟩
  | .app f ss, cat, .lit lit, h => by simp [Infers] at h
  | .lit lit, cat, .app x fn chains ds, h => by simp [Infers] at h
  | .other, cat, d, h => by simp [Infers] at h

theorem infersArgs_lift (hg : ∀ y cat prod, has' y cat prod → ∃ x, g x = y ∧ has x cat prod) : (ss : List Spine) →
    {cats : List PgfCCatId} → {chains : List (List κ)} → {es : List (Inferred κ)} → InfersArgs has' literal_cat ss cats chains es →
    ∃ (chains' : List (List ι)) (ds : List (Inferred ι)), chains'.map (List.map g) = chains ∧ Inferred.maps g ds = es ∧
      InfersArgs has literal_cat ss cats chains' ds
  | [], [], [], [], _ => ⟨[], [], rfl, rfl, trivial⟩
  | s :: ss, a :: cats, ys :: chains, e :: es, h => by
    obtain ⟨⟨c, he, hchain⟩, hargs⟩ := h
    obtain ⟨d, rfl, hd⟩ := infers_lift hg s he
    obtain ⟨xs, rfl, hxs⟩ := hchain.lift hg
    obtain ⟨chains, ds, rfl, rfl, hargs'⟩ := infersArgs_lift hg ss hargs
    exact ⟨xs :: chains, d :: ds, rfl, rfl, ⟨c, hd, hxs⟩, hargs'⟩
  | [], _ :: _, _, _, h => by simp [InfersArgs] at h
  | [], [], _ :: _, _, h => by simp [InfersArgs] at h
  | [], [], [], _ :: _, h => by simp [InfersArgs] at h
  | _ :: _, [], _, _, h => by simp [InfersArgs] at h
  | _ :: _, _ :: _, [], _, h => by simp [InfersArgs] at h
  | _ :: _, _ :: _, _ :: _, [], h => by simp [InfersArgs] at h

end

mutual

theorem infers_label : (s : Spine) → {cat : PgfCCatId} → {d : Inferred ι} → Infers has literal_cat s cat d → {x : ι} → x ∈ d.labels →
    ∃ cat prod, has x cat prod
  | .app f ss, cat, .app y fn chains ds, h, x, hx => by
    obtain ⟨pargs, hy, -, hargs⟩ := h
    simp only [Inferred.labels, List.mem_cons, List.mem_append] at hx
    rcases hx with rfl | hx
    · exact ⟨_, _, hy⟩
    · exact infersArgs_label ss hargs hx
  | .lit lit, cat, .lit lit', h, x, hx => by simp [Inferred.labels] at hx
  | .app f ss, cat, .lit lit, h, _, _ => by simp [Infers] at h
  | .lit lit, cat, .app x fn chains ds, h, _, _ => by simp [Infers] at h
  | .other, cat, d, h, _, _ => by simp [Infers] at h

theorem infersArgs_label : (ss : List Spine) → {cats : List PgfCCatId} → {chains : List (List ι)} → {ds : List (Inferred ι)} →
    InfersArgs has literal_cat ss cats chains ds → {x : ι} → x ∈ chains.flatten ∨ x ∈ Inferred.labelss ds → ∃ cat prod, has x cat prod
  | [], [], [], [], _, x, hx => by simp [Inferred.labelss] at hx
  | s :: ss, a :: cats, xs :: chains, d :: ds, h, x, hx => by
    obtain ⟨⟨c, hd, hchain⟩, hargs⟩ := h
    simp only [List.flatten_cons, Inferred.labelss, List.mem_append] at hx
    rcases hx with (hx | hx) | (hx | hx)
    · exact hchain.label hx
    · exact infersArgs_label ss hargs (.inl hx)
    · exact infers_label s hd hx
    · exact infersArgs_label ss hargs (.inr hx)
  | [], _ :: _, _, _, h, _, _ => by simp [InfersArgs] at h
  | [], [], _ :: _, _, h, _, _ => by simp [InfersArgs] at h
  | [], [], [], _ :: _, h, _, _ => by simp [InfersArgs] at h
  | _ :: _, [], _, _, h, _, _ => by simp [InfersArgs] at h
  | _ :: _, _ :: _, [], _, h, _, _ => by simp [InfersArgs] at h
  | _ :: _, _ :: _, _ :: _, [], h, _, _ => by simp [InfersArgs] at h

end

end Relabel

/-! ## Productions and their places -/

namespace PgfConcr

/-- The production with a number in a category that the grammar lists. -/
def Has (cnc : PgfConcr) (x : PgfCCatId × Nat) (cat : PgfCCatId) (prod : PgfProduction) : Prop :=
  x.1 = cat ∧ cat ∈ cnc.listedCats ∧ ∃ ccat, cnc.ccatMem[cat]? = some ccat ∧ ccat.prods.elems[x.2]? = some prod

theorem mem_listing {cnc : PgfConcr} {cat : PgfCCatId} {n : Nat} {prod : PgfProduction} :
    (cat, n, prod) ∈ cnc.listing ↔ cnc.Has (cat, n) cat prod := by
  rw [listing, List.mem_flatMap]
  constructor
  · rintro ⟨c, hc, h⟩
    obtain ⟨rfl, hprod⟩ := mem_prodsOf.1 h
    exact ⟨rfl, hc, hprod⟩
  · rintro ⟨-, hc, hprod⟩
    exact ⟨cat, hc, mem_prodsOf.2 ⟨rfl, hprod⟩⟩

/-- The production at a place of the listing. -/
def labelAt (cnc : PgfConcr) (x : Nat) : PgfCCatId × Nat :=
  match cnc.listing[x]? with
  | some e => (e.1, e.2.1)
  | none => (0, 0)

theorem has_labelAt (cnc : PgfConcr) (x : Nat) (cat : PgfCCatId) (prod : PgfProduction) (h : cnc.listing.Has x cat prod) :
    cnc.Has (cnc.labelAt x) cat prod := by
  obtain ⟨n, hx⟩ := h
  rw [labelAt, hx]
  exact mem_listing.1 (List.mem_of_getElem? hx)

theorem has_place (cnc : PgfConcr) (y : PgfCCatId × Nat) (cat : PgfCCatId) (prod : PgfProduction) (h : cnc.Has y cat prod) :
    ∃ x, cnc.labelAt x = y ∧ cnc.listing.Has x cat prod := by
  obtain ⟨c, n⟩ := y
  obtain rfl : c = cat := h.1
  obtain ⟨x, hx⟩ := List.getElem?_of_mem (mem_listing.2 h)
  exact ⟨x, by rw [labelAt, hx], n, hx⟩

/-- A production has as many places as its category. -/
theorem duplicate_listing {cnc : PgfConcr} {y : PgfCCatId × Nat} {cat : PgfCCatId} {prod : PgfProduction} (h : cnc.Has y cat prod) :
    List.Duplicate y (cnc.listing.map fun e => (e.1, e.2.1)) ↔ 2 ≤ cnc.listedCats.count y.1 := by
  obtain ⟨c, n⟩ := y
  obtain ⟨rfl, -, ccat, hccat, hprod⟩ := h
  have hone : ∀ c', ((cnc.prodsOf c').map fun e => (e.1, e.2.1)).count (c, n) = if c' = c then 1 else 0 := by
    intro c'
    split
    · rename_i hc
      subst hc
      have hlabels : (cnc.prodsOf c').map (fun e => (e.1, e.2.1)) = (List.range ccat.prods.elems.length).map (Prod.mk c') := by
        simp only [prodsOf, hccat, List.map_map, ← List.zipIdx_map_snd 0, List.range_eq_range']
        rfl
      rw [hlabels]
      refine List.count_eq_one_of_mem (List.nodup_range.map fun m m' hm => (Prod.mk.inj hm).2) ?_
      exact List.mem_map_of_mem (List.mem_range.2 (List.getElem?_eq_some_iff.1 hprod).1)
    · rename_i hc
      refine List.count_eq_zero_of_not_mem fun hmem => ?_
      obtain ⟨⟨c₁, m, prod₁⟩, he, heq⟩ := List.mem_map.1 hmem
      obtain ⟨rfl, -⟩ := mem_prodsOf.1 he
      exact hc (Prod.mk.inj heq).1
  have hsum : ∀ cs : List PgfCCatId, (cs.map fun c' => if c' = c then 1 else 0).sum = cs.count c := by
    intro cs
    induction cs with
    | nil => rfl
    | cons c' cs ih =>
      rw [List.map_cons, List.sum_cons, ih, List.count_cons]
      simp only [beq_iff_eq]
      omega
  have hbeq : (instBEqOfDecidableEq : BEq (PgfCCatId × Nat)) = instBEqProd := lawful_beq_subsingleton _ _
  rw [List.duplicate_iff_two_le_count, hbeq, listing, List.map_flatMap, List.count_flatMap, ← hsum]
  simp only [Function.comp_def, hone]

theorem labelAt_eq {cnc : PgfConcr} {x : Nat} (hx : x < cnc.listing.length) :
    (cnc.listing.map fun e => (e.1, e.2.1))[x]? = some (cnc.labelAt x) := by
  rw [List.getElem?_map, labelAt, List.getElem?_eq_getElem hx]
  rfl

theorem place_unique {cnc : PgfConcr} {y : PgfCCatId × Nat} {cat : PgfCCatId} {prod : PgfProduction} (h : cnc.Has y cat prod)
    (hcount : cnc.listedCats.count y.1 = 1) {x x' : Nat} (hx : x < cnc.listing.length) (hx' : x' < cnc.listing.length)
    (hy : cnc.labelAt x = y) (hy' : cnc.labelAt x' = y) : x = x' := by
  have hne : ∀ {x x' : Nat}, x < x' → x' < cnc.listing.length → cnc.labelAt x = y → cnc.labelAt x' = y → False := by
    intro x x' hlt hx' hy hy'
    have hdup : List.Duplicate y (cnc.listing.map fun e => (e.1, e.2.1)) := by
      refine List.duplicate_iff_exists_distinct_get.2 ⟨⟨x, by simpa using hlt.trans hx'⟩, ⟨x', by simpa using hx'⟩, hlt, ?_, ?_⟩
      · have := labelAt_eq (hlt.trans hx')
        rw [hy] at this
        exact (List.getElem?_eq_some_iff.1 this).2.symm
      · have := labelAt_eq hx'
        rw [hy'] at this
        exact (List.getElem?_eq_some_iff.1 this).2.symm
    rw [duplicate_listing h, hcount] at hdup
    omega
  rcases Nat.lt_trichotomy x x' with hlt | heq | hgt
  · exact (hne hlt hx' hy hy').elim
  · exact heq
  · exact (hne hgt hx hy' hy).elim

theorem place_again {cnc : PgfConcr} {y : PgfCCatId × Nat} {cat : PgfCCatId} {prod : PgfProduction} (h : cnc.Has y cat prod)
    (hcount : cnc.listedCats.count y.1 ≠ 1) (x : Nat) : ∃ x', x' ≠ x ∧ x' < cnc.listing.length ∧ cnc.labelAt x' = y := by
  have hpos : 0 < cnc.listedCats.count y.1 := List.count_pos_iff.2 (h.1 ▸ h.2.1)
  have hdup : List.Duplicate y (cnc.listing.map fun e => (e.1, e.2.1)) := by
    rw [duplicate_listing h]
    omega
  obtain ⟨m, n, hlt, hm, hn⟩ := List.duplicate_iff_exists_distinct_get.1 hdup
  have hat : ∀ k : Fin (cnc.listing.map fun e => (e.1, e.2.1)).length, y = (cnc.listing.map fun e => (e.1, e.2.1)).get k →
      (k : Nat) < cnc.listing.length ∧ cnc.labelAt k = y := by
    intro k hk
    have hlen : (k : Nat) < cnc.listing.length := by simpa using k.2
    have := labelAt_eq hlen
    rw [List.getElem?_eq_getElem k.2, Option.some.injEq] at this
    exact ⟨hlen, this.symm.trans hk.symm⟩
  by_cases hx : (m : Nat) = x
  · exact ⟨n, by have : (m : Nat) < n := hlt; omega, hat n hn⟩
  · exact ⟨m, hx, hat m hm⟩

/-- Another place of a production holds the same one. -/
theorem has_other {cnc : PgfConcr} {x x' : Nat} (heq : cnc.labelAt x' = cnc.labelAt x) (hx' : x' < cnc.listing.length)
    {cat : PgfCCatId} {prod : PgfProduction} (h : cnc.listing.Has x cat prod) : cnc.listing.Has x' cat prod := by
  obtain ⟨⟨c', n', prod'⟩, he⟩ : ∃ e, cnc.listing[x']? = some e := ⟨_, List.getElem?_eq_getElem hx'⟩
  have hlabel' : cnc.labelAt x' = (c', n') := by rw [labelAt, he]
  obtain ⟨hc, -, ccat, hccat, hprod⟩ := cnc.has_labelAt x cat prod h
  obtain ⟨-, -, ccat', hccat', hprod'⟩ := mem_listing.1 (List.mem_of_getElem? he)
  rw [← heq, hlabel'] at hc hprod
  obtain rfl : c' = cat := hc
  obtain rfl : ccat = ccat' := Option.some.inj (hccat.symm.trans hccat')
  obtain rfl : prod = prod' := Option.some.inj (hprod.symm.trans hprod')
  exact ⟨n', he⟩

/-! ## Acyclic coercions -/

/-- A category coerced to another. -/
def Coerces (cnc : PgfConcr) (c c' : PgfCCatId) : Prop := ∃ x, cnc.Has x c' (.COERCE c)

def Acyclic (cnc : PgfConcr) : Prop := ∀ c, ¬ Relation.TransGen cnc.Coerces c c

/-- The number of categories further up. -/
noncomputable def height (cnc : PgfConcr) (c : PgfCCatId) : Nat := {c' | Relation.TransGen cnc.Coerces c c'}.ncard

theorem above_subset (cnc : PgfConcr) (c : PgfCCatId) : {c' | Relation.TransGen cnc.Coerces c c'} ⊆ ↑cnc.listedCats.toFinset := by
  intro c' hc'
  obtain ⟨_, -, x, hx⟩ := Relation.TransGen.tail'_iff.1 hc'
  exact List.mem_toFinset.2 hx.2.1

theorem height_lt (cnc : PgfConcr) (c : PgfCCatId) : cnc.height c < cnc.listedCats.length + 1 := by
  have hle := Set.ncard_le_ncard (cnc.above_subset c) (Finset.finite_toSet _)
  rw [Set.ncard_coe_finset] at hle
  exact Nat.lt_succ_of_le (hle.trans (List.toFinset_card_le _))

theorem Acyclic.ranked {cnc : PgfConcr} (h : cnc.Acyclic) : Ranked cnc.listing cnc.height := by
  rintro c ⟨x, c'⟩ hs
  have hup : cnc.Coerces c c' := ⟨_, cnc.has_labelAt _ _ _ (mem_supers.1 hs)⟩
  refine Set.ncard_lt_ncard ⟨fun a ha => .head hup ha, fun hsub => ?_⟩ ((Finset.finite_toSet _).subset (cnc.above_subset c))
  exact h c' (hsub (.single hup))

/-- No choice has more than 255 alternatives. -/
structure SmallChoices (cnc : PgfConcr) : Prop where
  entries : ∀ f cats, (cnc.listing.select (entryOf f cats)).length ≤ 255
  supers : ∀ c, (cnc.listing.select (superOf c)).length + 1 ≤ 255

/-- Every coercion leads to a category with a greater number. -/
def coercesUp (cnc : PgfConcr) : Bool := cnc.ccatMem.zipIdx.all fun p => p.1.prods.elems.all fun
  | .COERCE c => decide (c < p.2)
  | .APPLY _ _ => true

theorem acyclic_of_coercesUp {cnc : PgfConcr} (h : cnc.coercesUp = true) : cnc.Acyclic := by
  have hup : ∀ {c c'}, Relation.TransGen cnc.Coerces c c' → c < c' := by
    intro c c' hc
    have hlt : ∀ {a b}, cnc.Coerces a b → a < b := by
      rintro a b ⟨x, -, -, ccat, hccat, hprod⟩
      have hall := List.all_eq_true.1 h (ccat, b) (List.mem_zipIdx_iff_getElem?.2 hccat)
      exact of_decide_eq_true (List.all_eq_true.1 hall _ (List.mem_of_getElem? hprod))
    induction hc with
    | single hab => exact hlt hab
    | tail _ hab ih => exact ih.trans (hlt hab)
  exact fun c hc => Nat.lt_irrefl c (hup hc)

theorem smallChoices_of_length {cnc : PgfConcr} (h : cnc.listing.length < 255) : cnc.SmallChoices := by
  have hle : ∀ {α : Type} (g : PgfCCatId × Nat × PgfProduction → Option α), (cnc.listing.select g).length ≤ cnc.listing.length := by
    intro α g
    exact (List.length_filterMap_le _ _).trans (Nat.le_of_eq List.length_zipIdx)
  exact ⟨fun f cats => (hle _).trans (by omega), fun c => by have := hle (superOf c); omega⟩

end PgfConcr

/-! ## Searches that do not stop -/

section Safe
variable {cnc : PgfConcr} {depth : Nat} {literal_cat : PgfLiteral → PgfCCatId}

theorem safe_choice {n : Nat} (hn : n ≤ 255) : Safe (choice n) := by
  intro e he
  rw [leaves_choice] at he
  split at he
  · simp at he
  · simp at he

theorem super_safe (hsmall : cnc.SmallChoices) {rank : PgfCCatId → Nat} (hr : Ranked cnc.listing rank) {c : PgfCCatId}
    (hd : rank c < depth) : Safe (superTree cnc.listing depth c) := by
  induction depth generalizing c with
  | zero => omega
  | succ depth ih =>
    unfold superTree
    split
    · simp [Safe]
    · rename_i s ss hs
      have hlen := hsmall.supers c
      rw [hs, List.length_cons] at hlen
      refine safe_andThen.2 ⟨safe_choice hlen, fun k hk => ?_⟩
      rcases k with _ | _ | k
      · rw [leaves_choice] at hk
        simp [hlen] at hk
      · simp [Safe]
      · simp only
        cases hget : (s :: ss)[k]? with
        | none =>
          have hle := List.getElem?_eq_none_iff.1 hget
          rw [leaves_choice, if_neg (by omega), if_pos hlen] at hk
          simp only [List.mem_map, List.mem_range, Except.ok.injEq, Option.some.injEq] at hk
          obtain ⟨k', hlt, rfl⟩ := hk
          rw [List.length_cons] at hle
          omega
        | some r =>
          have hlt := hr c r (hs ▸ List.mem_of_getElem? hget)
          exact safe_andThen.2 ⟨ih (by omega), fun _ _ => by simp [Safe]⟩

theorem entry_safe (hsmall : cnc.SmallChoices) (f : PgfCId) (args : List Arg) : Safe (entryTree cnc.listing f args) := by
  have hlen := hsmall.entries f (args.map Arg.cat)
  refine safe_andThen.2 ⟨safe_choice hlen, fun k hk => ?_⟩
  cases k with
  | none => simp [Safe]
  | some k =>
    simp only
    cases hget : (cnc.listing.select (entryOf f (args.map Arg.cat)))[k]? with
    | none =>
      have hle := List.getElem?_eq_none_iff.1 hget
      rw [leaves_choice] at hk
      split at hk
      · simp at hk
      · simp only [List.mem_map, List.mem_range, Except.ok.injEq, Option.some.injEq] at hk
        obtain ⟨k', hlt, rfl⟩ := hk
        omega
    | some r => simp [Safe]

mutual

theorem infer_safe (hsmall : cnc.SmallChoices) (hsup : ∀ c, Safe (superTree cnc.listing depth c)) : (s : Spine) →
    Safe (inferTree cnc.listing depth literal_cat s)
  | .app f ss => by
    rw [inferTree]
    split
    · exact tail_safe hsmall hsup ss f []
    · simp [Safe]
  | .lit lit => by simp [inferTree, Safe]
  | .other => by simp [inferTree, Safe]

theorem tail_safe (hsmall : cnc.SmallChoices) (hsup : ∀ c, Safe (superTree cnc.listing depth c)) : (ss : List Spine) → (f : PgfCId) →
    (done : List Arg) → Safe (tailTree cnc.listing depth literal_cat f ss done)
  | [], f, done => by
    rw [tailTree]
    exact entry_safe hsmall f done
  | s :: ss, f, done => by
    rw [tailTree]
    refine safe_andAlso.2 ⟨safe_andAlso.2 ⟨infer_safe hsmall hsup s, fun a _ => ?_⟩, fun a _ => tail_safe hsmall hsup ss f _⟩
    exact safe_andThen.2 ⟨hsup _, fun _ _ => by simp [Safe]⟩

end

end Safe

/-! ## The trees of an expression -/

section Main
variable {cnc : PgfConcr} {lzr : PgfLzr}

/-- The search tree of an expression, deep enough for all ways up. -/
def PgfConcr.search (cnc : PgfConcr) (expr : PgfExpr) : Search (Exec (Option (PgfCCatId × Inferred Nat))) :=
  inferTree cnc.listing (cnc.listedCats.length + 1) (pgf_literal_cat cnc) (expr.spine [])

theorem search_explored (h : pgf_new_lzr cnc = .ok lzr) (hacyc : cnc.Acyclic) (expr : PgfExpr) :
    ∃ N, ∀ fuel ≥ N, 0 < fuel ∧ Explores treeOf (cnc.search expr) (pgf_lzn_infer lzr fuel expr) := by
  obtain ⟨rfl, hl⟩ := new_lzr_indexed h
  obtain ⟨N, hN⟩ := infer_explores hl hacyc.ranked lzr.cnc.height_lt expr
  exact ⟨N + 1, fun fuel hfuel => ⟨by omega, hN fuel (by omega)⟩⟩

/-- The derivations by places are enumerated once each. -/
theorem concretize_places (h : pgf_new_lzr cnc = .ok lzr) (hacyc : cnc.Acyclic) (hsmall : cnc.SmallChoices) (expr : PgfExpr) :
    ∃ as : List (PgfCCatId × Inferred Nat), as.Nodup ∧
      (∀ cat d, (cat, d) ∈ as ↔ Infers cnc.listing.Has (pgf_literal_cat cnc) (expr.spine []) cat d) ∧
      ∃ N, ∀ fuel ≥ N, Yields (pgf_lzn_next lzr fuel) (pgf_lzr_concretize expr) (as.map fun a => a.2.tree) := by
  have hsafe : Safe (cnc.search expr) := infer_safe hsmall (fun c => super_safe hsmall hacyc.ranked (cnc.height_lt c)) _
  refine ⟨found (cnc.search expr).runs, ?_, fun cat d => ?_, ?_⟩
  · have hnodup : (yielded (fun o => o.map Prod.snd) (cnc.search expr)).Nodup := infer_nodup (expr.spine [])
    rw [found_yielded]
    refine .of_map Prod.snd ?_
    have hmap : (yielded id (cnc.search expr)).map Prod.snd = yielded (fun o => o.map Prod.snd) (cnc.search expr) := by
      rw [yielded, yielded, List.map_filterMap]
      congr 1
      funext r
      cases r <;> rfl
    rw [hmap]
    exact hnodup
  · rw [found_yielded]
    constructor
    · intro hmem
      obtain ⟨o, ho, rfl⟩ := mem_yielded.1 hmem
      exact infer_sound _ ho
    · intro hd
      exact mem_yielded.2 ⟨_, infer_complete hacyc.ranked cnc.height_lt _ hsafe hd, rfl⟩
  · obtain ⟨N, hN⟩ := search_explored h hacyc expr
    refine ⟨N, fun fuel hfuel => left_yields (hN fuel hfuel).2 (hN fuel hfuel).1 .start fun r hr => ?_⟩
    cases hr2 : r.2 with
    | ok o => exact ⟨o, rfl⟩
    | error e => exact absurd (List.mem_map.2 ⟨r, hr, hr2⟩) (hsafe e)

/-- The enumeration returns the trees of all derivations, each of them once, before it returns nothing. -/
def PgfConcr.Exact (cnc : PgfConcr) (lzr : PgfLzr) (expr : PgfExpr) : Prop :=
  ∃ ds : List (PgfCCatId × Inferred (PgfCCatId × Nat)), ds.Nodup ∧
    (∀ cat d, (cat, d) ∈ ds ↔ Infers cnc.Has (pgf_literal_cat cnc) (expr.spine []) cat d) ∧
    ∃ N, ∀ fuel ≥ N, Yields (pgf_lzn_next lzr fuel) (pgf_lzr_concretize expr) (ds.map fun d => d.2.tree)

/-- The places of a derivation as productions. -/
def unplace (cnc : PgfConcr) (a : PgfCCatId × Inferred Nat) : PgfCCatId × Inferred (PgfCCatId × Nat) := (a.1, a.2.map cnc.labelAt)

/-- A derivation with a production of a category that is listed twice is enumerated twice. -/
theorem PgfConcr.Exact.single (hexact : cnc.Exact lzr expr) (h : pgf_new_lzr cnc = .ok lzr) (hacyc : cnc.Acyclic)
    (hsmall : cnc.SmallChoices) {cat : PgfCCatId} {e : Inferred (PgfCCatId × Nat)}
    (he : Infers cnc.Has (pgf_literal_cat cnc) (expr.spine []) cat e) : ∀ y ∈ e.labels, cnc.listedCats.count y.1 = 1 := by
  obtain ⟨ds, hnd, hds, N, hN⟩ := hexact
  obtain ⟨as, hnda, has, M, hM⟩ := concretize_places h hacyc hsmall expr
  have hlen : ds.length = as.length := by
    simpa using congrArg List.length ((hN (max N M) (by omega)).unique (hM (max N M) (by omega)))
  have hsub : ds ⊆ as.map (unplace cnc) := by
    rintro ⟨c, d⟩ hd
    obtain ⟨d, rfl, hd'⟩ := infers_lift cnc.has_place _ ((hds c d).1 hd)
    exact List.mem_map.2 ⟨(c, d), (has c d).2 hd', rfl⟩
  have hperm := (List.subperm_of_subset hnd hsub).perm_of_length_le (by simp [hlen])
  have hinj := List.inj_on_of_nodup_map (hperm.nodup_iff.1 hnd)
  intro y hy
  by_contra hcount
  obtain ⟨d, rfl, hd⟩ := infers_lift cnc.has_place _ he
  rw [Inferred.labels_map] at hy
  obtain ⟨x, hx, rfl⟩ := List.mem_map.1 hy
  obtain ⟨c', prod, hxprod⟩ := infers_label _ hd hx
  obtain ⟨x', hne, hlt, hlabel⟩ := place_again (cnc.has_labelAt _ _ _ hxprod) hcount x
  -- the same derivation with the production taken from its other place
  let g := fun z => if z = x then x' else z
  have hg : cnc.labelAt ∘ g = cnc.labelAt := by
    funext z
    by_cases hz : z = x
    · simp [g, hz, hlabel]
    · simp [g, hz]
  have hother : Infers cnc.listing.Has (pgf_literal_cat cnc) (expr.spine []) cat (d.map g) := by
    refine infers_map (fun z cat prod hz => ?_) _ hd
    by_cases hzx : z = x
    · subst hzx
      simpa [g] using PgfConcr.has_other hlabel hlt hz
    · simpa [g, hzx] using hz
  have heq := hinj ((has cat d).2 hd) ((has cat _).2 hother) (by rw [unplace, unplace, Inferred.map_map, hg])
  have hmem : x ∈ (d.map g).labels := by
    rw [← (Prod.mk.inj heq).2]
    exact hx
  rw [Inferred.labels_map] at hmem
  obtain ⟨z, -, hz⟩ := List.mem_map.1 hmem
  by_cases hzx : z = x
  · exact hne (by simpa [g, hzx] using hz)
  · simp [g, hzx] at hz

/-- Concrete trees come once for each derivation if and only if no derivation uses a production of a category that the
grammar lists more than once. -/
theorem concretize_exact (h : pgf_new_lzr cnc = .ok lzr) (hacyc : cnc.Acyclic) (hsmall : cnc.SmallChoices) (expr : PgfExpr) :
    cnc.Exact lzr expr ↔ ∀ cat d, Infers cnc.Has (pgf_literal_cat cnc) (expr.spine []) cat d →
      ∀ y ∈ d.labels, cnc.listedCats.count y.1 = 1 := by
  constructor
  · exact fun hexact cat d hd => hexact.single h hacyc hsmall hd
  · intro hsingle
    obtain ⟨as, hnda, has, N, hN⟩ := concretize_places h hacyc hsmall expr
    refine ⟨as.map (unplace cnc), ?_, fun cat e => ?_, N, fun fuel hfuel => ?_⟩
    · refine (List.nodup_map_iff_inj_on hnda).2 fun a ha a' ha' heq => ?_
      obtain ⟨c, d⟩ := a
      obtain ⟨c', d'⟩ := a'
      obtain ⟨rfl, hmap⟩ := Prod.mk.inj heq
      have hd := (has c d).1 ha
      have hd' := (has c d').1 ha'
      have hcounts := hsingle c _ (infers_map cnc.has_labelAt _ hd)
      rw [Inferred.map_inj d d' (fun x hx y hy hxy => ?_) hmap]
      obtain ⟨c₁, prod₁, hx₁⟩ := infers_label _ hd hx
      obtain ⟨c₂, prod₂, hy₂⟩ := infers_label _ hd' hy
      refine PgfConcr.place_unique (cnc.has_labelAt _ _ _ hx₁) (hcounts _ ?_) ?_ ?_ rfl hxy.symm
      · rw [Inferred.labels_map]
        exact List.mem_map_of_mem hx
      · exact (List.getElem?_eq_some_iff.1 hx₁.choose_spec).1
      · exact (List.getElem?_eq_some_iff.1 hy₂.choose_spec).1
    · constructor
      · intro hmem
        obtain ⟨⟨c, d⟩, hd, heq⟩ := List.mem_map.1 hmem
        obtain ⟨rfl, rfl⟩ := Prod.mk.inj heq
        exact infers_map cnc.has_labelAt _ ((has _ d).1 hd)
      · intro he
        obtain ⟨d, rfl, hd⟩ := infers_lift cnc.has_place _ he
        exact List.mem_map.2 ⟨(cat, d), (has cat d).2 hd, rfl⟩
    · have htrees : (as.map (unplace cnc)).map (fun d => d.2.tree) = as.map fun a => a.2.tree := by
        rw [List.map_map]
        exact List.map_congr_left fun a _ => Inferred.map_tree _ _
      rw [htrees]
      exact hN fuel hfuel

end Main

/-! ## A grammar without overlaps, and one with -/

namespace Chained

def a : PgfCncFun := { fun_ := [97], lins := [[.KS [[97]]]], fid := 0 }

def f : PgfCncFun := { fun_ := [102], lins := [[.CAT 0 0]], fid := 1 }

/-- `A → a[]`, `B → _[A]`, `S → f[B]` -/
def concr : PgfConcr where
  ccatMem := [⟨some 0, .seq [.APPLY a []], 0⟩, ⟨some 1, .seq [.COERCE 0], 1⟩, ⟨some 2, .seq [.APPLY f [⟨[], 1⟩]], 2⟩]
  cnccatMem := [⟨[65], [some 0], 1, [[115]]⟩, ⟨[66], [some 1], 1, [[115]]⟩, ⟨[83], [some 2], 1, [[115]]⟩]
  cnccats := [([65], 0), ([66], 1), ([83], 2)]
  extra_ccats := []
  prods_fixed := by decide
  prods_valid := by decide
  cats_valid := by decide

end Chained

theorem concretize_exact_chained : ∃ lzr, pgf_new_lzr Chained.concr = .ok lzr ∧
    Chained.concr.Exact lzr (.APP (.FUN [102]) (.FUN [97])) := by
  refine ⟨_, rfl, (concretize_exact rfl (PgfConcr.acyclic_of_coercesUp (by decide)) (PgfConcr.smallChoices_of_length (by decide)) _).2
    fun cat d hd y hy => ?_⟩
  obtain ⟨c, prod, hc, hlisted, -⟩ := infers_label _ hd hy
  exact List.count_eq_one_of_mem (by decide) (hc ▸ hlisted)

namespace Overlap

/-- Two categories with one range. -/
def concr : PgfConcr where
  ccatMem := [⟨some 0, .seq [.APPLY Chained.a []], 0⟩]
  cnccatMem := [⟨[65], [some 0], 1, [[115]]⟩, ⟨[66], [some 0], 1, [[115]]⟩]
  cnccats := [([65], 0), ([66], 1)]
  extra_ccats := []
  prods_fixed := by decide
  prods_valid := by decide
  cats_valid := by decide

end Overlap

/-- The tree of the only derivation comes twice. -/
theorem overlap_twice : ∃ lzr, pgf_new_lzr Overlap.concr = .ok lzr ∧ Overlap.concr.Acyclic ∧ Overlap.concr.SmallChoices ∧
    ¬ Overlap.concr.Exact lzr (.FUN [97]) := by
  have hacyc : Overlap.concr.Acyclic := PgfConcr.acyclic_of_coercesUp (by decide)
  have hsmall : Overlap.concr.SmallChoices := PgfConcr.smallChoices_of_length (by decide)
  refine ⟨_, rfl, hacyc, hsmall, fun hexact => ?_⟩
  have hd : Infers Overlap.concr.Has (pgf_literal_cat Overlap.concr) (PgfExpr.spine (.FUN [97]) []) 0 (.app (0, 0) Chained.a [] []) :=
    ⟨[], ⟨rfl, by decide, _, rfl, rfl⟩, rfl, trivial⟩
  have hcount := hexact.single rfl hacyc hsmall hd (0, 0) (List.mem_singleton_self _)
  revert hcount
  decide

end Libpgf
