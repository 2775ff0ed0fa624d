import Libpgf.Pgf.History
import Libpgf.Pgf.Limits
/-!
# Paths through a session

A parse state stands for the tokens fed since the parse began. Sets and
categories belong to the call that made them, so the tables of different calls
never name the same one.
-/

namespace Libpgf

variable {P : PgfParser}

/-! ## Whose sets and categories they are -/

namespace Session
variable {l : List (Call P)} {i j : Nat} {c d : Call P}

theorem take (hl : Session P l) (i : Nat) : Session P (l.take i) := by
  rw [← List.take_append_drop i l] at hl
  exact hl.init

/-- What a call leaves behind is there when a later one begins. -/
theorem le_take (hl : Session P l) (hc : l[i]? = some c) (hij : i < j) : c.state.heap.Le (heapAfter (l.take j)) := by
  refine (hl.take j).heap_le (i := i) ?_
  rw [List.getElem?_take_of_lt hij]
  exact hc

theorem own (hl : Session P l) (hc : l[i]? = some c) :
    c.state.chart.Own (heapAfter (l.take i)).sets.length (heapAfter (l.take i)).ccats.length :=
  (Heap.chart_own _).steps (hl.called hc).steps

theorem conts_lt_of_lt (hl : Session P l) (hc : l[i]? = some c) (hd : l[j]? = some d) (hij : i < j) {a r K K' : Nat} {b q : Nat}
    (h : c.state.chart.conts a r = some K) (h' : d.state.chart.conts b q = some K') : K < K' := by
  have h₁ : K < c.state.heap.sets.length := ((hl.wf hc).conts_lt h).1
  have h₂ := (hl.le_take hc hij).sets.length_le
  have h₃ := (hl.own hd).conts h'
  exact Nat.lt_of_lt_of_le h₁ (h₂.trans h₃)

/-- A continuation set is made once, for one constituent of one category. -/
theorem conts_unique (hl : Session P l) (hc : l[i]? = some c) (hd : l[j]? = some d) {a r K b q : Nat}
    (h : c.state.chart.conts a r = some K) (h' : d.state.chart.conts b q = some K) : i = j ∧ a = b ∧ r = q := by
  rcases Nat.lt_trichotomy i j with hij | rfl | hij
  · exact absurd (hl.conts_lt_of_lt hc hd hij h h') (Nat.lt_irrefl _)
  · rw [hc, Option.some.injEq] at hd
    subst hd
    exact ⟨rfl, (hl.wf hc).conts_inj h h'⟩
  · exact absurd (hl.conts_lt_of_lt hd hc hij h' h) (Nat.lt_irrefl _)

theorem gen_lt_of_lt (hl : Session P l) (hc : l[i]? = some c) (hd : l[j]? = some d) (hij : i < j) {K K' g g' : Nat}
    (h : c.state.chart.gen K = some g) (h' : d.state.chart.gen K' = some g') : g < g' := by
  have h₁ : g < c.state.heap.ccats.length := (hl.wf hc).gen_lt h
  have h₂ := (hl.le_take hc hij).ccats.length_le
  have h₃ := (hl.own hd).gen h'
  exact Nat.lt_of_lt_of_le h₁ (h₂.trans h₃)

/-- A category is completed in one call, for one continuation set. -/
theorem gen_unique (hl : Session P l) (hc : l[i]? = some c) (hd : l[j]? = some d) {K K' g : Nat}
    (h : c.state.chart.gen K = some g) (h' : d.state.chart.gen K' = some g) : i = j ∧ K = K' := by
  rcases Nat.lt_trichotomy i j with hij | rfl | hij
  · exact absurd (hl.gen_lt_of_lt hc hd hij h h') (Nat.lt_irrefl _)
  · rw [hc, Option.some.injEq] at hd
    subst hd
    exact ⟨rfl, (hl.wf hc).gen_inj h h'⟩
  · exact absurd (hl.gen_lt_of_lt hd hc hij h' h) (Nat.lt_irrefl _)

/-- After the call that made it a category gets no further productions. -/
theorem prod_iff (hl : Session P l) (hc : l[i]? = some c) {a : PgfCCatId} (ha : a < c.state.heap.ccats.length)
    {p : PgfProduction} : c.state.chart.Prod a p ↔ (heapAfter l).Prod a p := by
  simp only [Chart.Prod, Heap.Prod, PgfParsing.chart, prefix_getElem? (hl.heap_le hc).ccats ha]

theorem prod_of (hl : Session P l) (hc : l[i]? = some c) {a : PgfCCatId} {p : PgfProduction}
    (h : c.state.chart.Prod a p) : (heapAfter l).Prod a p := by
  obtain ⟨ccat, ha, -⟩ := id h
  exact (hl.prod_iff hc (List.getElem?_eq_some_iff.1 ha).1).1 h

theorem held_of (hl : Session P l) (hc : l[i]? = some c) {K : PgfItemSetId} {k : Option PgfItem}
    (h : k ∈ c.state.chart.held K) : (heapAfter l).Held K k :=
  (held_iff (hl.heap_le hc) ((hl.wf hc).held_lt h)).2 h

theorem generated (hl : Session P l) (hc : l[i]? = some c) :
    c.state.chart.Generated (heapAfter (l.take i)).ccats.length := by
  have h0 : (heapAfter (l.take i)).chart.Generated (heapAfter (l.take i)).ccats.length :=
    ⟨fun hg => (Option.some_ne_none _ hg.symm).elim, fun hn hlt => absurd hlt (Nat.not_lt_of_le hn)⟩
  exact h0.steps (Heap.chart_wf _ _) (hl.called hc).steps

theorem accepts (hl : Session P l) (hc : l[i]? = some c) : c.state.chart.Accepts := by
  have h0 : (heapAfter (l.take i)).chart.Accepts := by simp [Chart.Accepts, Heap.chart]
  exact h0.steps (hl.called hc).steps

theorem all_fits (hP : P.concr.Fits) (hl : Session P l) (hc : l[i]? = some c) :
    c.state.chart.All PgfItem.Fits PgfProduction.Fits :=
  (hl.called hc).all_fits ((hl.take i).heap_fits hP)

/-- The grammar's categories are the first ones in memory. -/
theorem ccats_le (hl : Session P l) : P.concr.ccatMem <+: (heapAfter l).ccats :=
  hl.inv (I := fun h => P.concr.ccatMem <+: h.ccats) List.prefix_rfl fun h hs => h.trans hs.le.ccats

theorem concr_prod (hl : Session P l) {a : PgfCCatId} {p : PgfProduction} (h : P.concr.Prod a p) : (heapAfter l).Prod a p := by
  obtain ⟨ccat, ha, hp⟩ := h
  exact ⟨ccat, prefix_getElem? hl.ccats_le (List.getElem?_eq_some_iff.1 ha).1 ▸ ha, hp⟩

/-- A parse state in memory is that of the call that made it. -/
theorem parse_call (hl : Session P l) {parse : PgfParse} (hp : (heapAfter l).parses[i]? = some parse) :
    ∃ c, l[i]? = some c ∧ c.state.chart.completed = parse.completed ∧ c.state.chart.toks = parse.transitions := by
  have hi : i < l.length := hl.parses_length ▸ (List.getElem?_eq_some_iff.1 hp).1
  have hc := List.getElem?_eq_getElem hi
  have hlt : i < l[i].state.heap.parses.length := by
    rw [(hl.called hc).nparses, (hl.take i).parses_length, List.length_take]
    omega
  rw [← prefix_getElem? (hl.heap_le hc).parses hlt] at hp
  exact ⟨l[i], hc, by simp [PgfParsing.chart, hl.parse_eq hc, hp], by simp [PgfParsing.chart, hl.parse_eq hc, hp]⟩

end Session

/-! ## Feeding tokens -/

/-- Feeding the tokens `w` to parse state `i`, one by one, has led to parse state `j`. -/
inductive Fed (L : Log) (i : Nat) : List PgfToken → Nat → Prop
  | refl : Fed L i [] i
  | token {w j k tok C} : Fed L i w j → L[k]? = some (.token j tok, C) → Fed L i (w ++ [tok]) k

namespace Fed
variable {L : Log} {i i' j k : Nat} {u v w w' : List PgfToken} {tok : PgfToken}

theorem trans (h : Fed L i u j) (h' : Fed L j v k) : Fed L i (u ++ v) k := by
  induction h' with
  | refl => rwa [List.append_nil]
  | token _ hk ih =>
    rw [← List.append_assoc]
    exact .token ih hk

theorem split (h : Fed L i (u ++ v) k) : ∃ j, Fed L i u j ∧ Fed L j v k := by
  induction v using List.reverseRecOn generalizing k with
  | nil => exact ⟨k, by rwa [List.append_nil] at h, .refl⟩
  | append_singleton v tok ih =>
    rw [← List.append_assoc] at h
    generalize hw : u ++ v ++ [tok] = w at h
    cases h with
    | refl => simp at hw
    | token h hk =>
      obtain ⟨rfl, htok⟩ := List.append_inj' hw rfl
      cases htok
      obtain ⟨j, hu, hv⟩ := ih h
      exact ⟨j, hu, .token hv hk⟩

theorem eq_of_nil (h : Fed L i [] j) : j = i := by
  generalize hw : [] = w at h
  cases h with
  | refl => rfl
  | token => simp at hw

/-- The last token fed. -/
theorem last (h : Fed L i (w ++ [tok]) k) : ∃ j C, Fed L i w j ∧ L[k]? = some (.token j tok, C) := by
  generalize hw : w ++ [tok] = w' at h
  cases h with
  | refl => simp at hw
  | token h hk =>
    obtain ⟨rfl, htok⟩ := List.append_inj' hw rfl
    cases htok
    exact ⟨_, _, h, hk⟩

/-- A parse state belongs to one parse, and to one sequence of tokens. -/
theorem unique {a a' : PgfCId} {r r' : Nat} {C C' : Chart} (h : Fed L i w j) (h' : Fed L i' w' j)
    (hi : L[i]? = some (.parse a r, C)) (hi' : L[i']? = some (.parse a' r', C')) : i = i' ∧ w = w' := by
  induction h generalizing w' with
  | refl =>
    cases h' with
    | refl => exact ⟨rfl, rfl⟩
    | token _ hk =>
      rw [hi] at hk
      cases hk
  | token _ hk ih =>
    cases h' with
    | refl =>
      rw [hi'] at hk
      cases hk
    | token h' hk' =>
      rw [hk] at hk'
      cases hk'
      obtain ⟨rfl, rfl⟩ := ih h'
      exact ⟨rfl, rfl⟩

end Fed

end Libpgf
