import Libpgf.Pgf.Closure
import Libpgf.Pgf.EarlierStates
/-!
# Where items come from

The tables of a call are freed when it returns, but they say what an item
means: the continuation set of an item was made by some call for some
constituent of some category, and an argument that has been parsed is a
category that some call generated for such a set.

`Hist` derives an item from the tables of all calls, in the way in which the
code made it.
-/

namespace Libpgf

variable {P : PgfParser}

/-! ## The calls of a session -/

namespace Session
variable {l : List (Call P)} {i j : Nat} {c d : Call P}

theorem take_of_getElem? (hc : l[i]? = some c) : l = (l.take i ++ [c]) ++ l.drop (i + 1) := by
  obtain ⟨hi, rfl⟩ := List.getElem?_eq_some_iff.1 hc
  rw [List.append_assoc, List.singleton_append, List.getElem_cons_drop, List.take_append_drop]

theorem at_call (hl : Session P l) (hc : l[i]? = some c) : Session P (l.take i ++ [c]) := by
  rw [take_of_getElem? hc] at hl
  exact hl.init

theorem called (hl : Session P l) (hc : l[i]? = some c) : Called (heapAfter (l.take i)) c.origin c.state := by
  obtain ⟨-, fuel, hr⟩ := (hl.at_call hc).last
  exact Origin.run_called hr

theorem finished (hl : Session P l) (hc : l[i]? = some c) : Finished (heapAfter (l.take i)) c.origin c.state := by
  obtain ⟨-, fuel, hr⟩ := (hl.at_call hc).last
  exact Origin.run_finished hr

theorem wf (hl : Session P l) (hc : l[i]? = some c) : c.state.chart.Wf (c.origin.Starts P) :=
  (Heap.chart_wf _ _).steps (hl.called hc).steps

/-- The memory at the end of a call is still there at the end of the session. -/
theorem heap_le (hl : Session P l) (hc : l[i]? = some c) : c.state.heap.Le (heapAfter l) := by
  have hl' := hl
  rw [take_of_getElem? hc] at hl' ⊢
  have := hl'.le
  rwa [heapAfter_append] at this

theorem parse_eq (hl : Session P l) (hc : l[i]? = some c) : c.state.parse = i := by
  rw [(hl.called hc).parse, (hl.at_call hc).init.parses_length, List.length_take]
  exact Nat.min_eq_left (Nat.le_of_lt (List.getElem?_eq_some_iff.1 hc).1)

/-- Sets that a call made for continuations keep what they held at its end. -/
theorem held_conts (hl : Session P l) (hc : l[i]? = some c) {cat : PgfCCatId} {r : Nat} {K : PgfItemSetId}
    {k : Option PgfItem} (hK : c.state.chart.conts cat r = some K) (hk : (heapAfter l).Held K k) :
    Chart.Waits (c.origin.Starts P) c.state.chart cat r k :=
  (hl.wf hc).conts_held hK ((held_iff (hl.heap_le hc) ((hl.wf hc).conts_lt hK).1).1 hk)

/-- The agenda of a token is what the parse state filed under it. -/
theorem agenda (hl : Session P l) {p : Nat} {tok : Option PgfToken} {T : PgfItemSetId} (hT : Origin.Agenda (heapAfter l) p tok T) :
    ∃ c, l[p]? = some c ∧ c.state.chart.toks tok = some T ∧
      ∀ k, (heapAfter l).Held T k → ∃ x, k = some x ∧ x ∈ c.state.chart.seen ∧ Reads x tok := by
  obtain ⟨parse, hp, ht⟩ := hT
  have hlt : p < l.length := hl.parses_length ▸ (List.getElem?_eq_some_iff.1 hp).1
  have hc : l[p]? = some l[p] := List.getElem?_eq_getElem hlt
  have hplt : p < l[p].state.heap.parses.length := by
    have := (hl.called hc).nparses
    have := (hl.called hc).parse
    have := hl.parse_eq hc
    omega
  have htoks : l[p].state.chart.toks tok = some T := by
    simp only [PgfParsing.chart, hl.parse_eq hc, prefix_getElem? (hl.heap_le hc).parses hplt, hp, Option.bind_some, ht]
  refine ⟨l[p], hc, htoks, fun k hk => (hl.wf hc).toks_held htoks ?_⟩
  exact (held_iff (hl.heap_le hc) ((hl.wf hc).toks_lt htoks)).1 hk

end Session

/-! ## Histories -/

/-- The calls made, and what each of them knew at its end. -/
abbrev Log := List (Origin × Chart)

def logOf (l : List (Call P)) : Log := l.map fun c => (c.origin, c.state.chart)

/-- The item was seen in call `i`, for the reason that the code had. -/
inductive Hist (L : Log) : PgfItem → Nat → Prop
  | new {i o C c r K p x} : L[i]? = some (o, C) → C.conts c r = some K → C.Prod c p →
      pgf_new_item ⟨K, c, p, r⟩ = .ok x → Hist L x i
  | combine {k i oi Ci j oj Cj c r K g x} : Hist L k i → Awaits k c r → i ≤ j → L[i]? = some (oi, Ci) →
      Ci.conts c r = some K → L[j]? = some (oj, Cj) → Cj.gen K = some g → combined k g = .ok x → Hist L x j
  | scan {y i j C tok forms alt toks x} : Hist L y i → Reads y (some tok) → i < j → L[j]? = some (.token i tok, C) →
      scan_forms y = .ok forms → (alt, toks) ∈ forms → scanned y tok alt toks = .ok (some x) → Hist L x j

namespace Log

/-- The same calls, which know at least as much, and perhaps further calls. -/
def Le (L L' : Log) : Prop := ∀ {i : Nat} {o : Origin} {C : Chart}, L[i]? = some (o, C) → ∃ C', L'[i]? = some (o, C') ∧ C.Grows C'

theorem Le.append (L M : Log) : Le L (L ++ M) := fun {i o C} h =>
  ⟨C, by rw [List.getElem?_append_left (List.getElem?_eq_some_iff.1 h).1]; exact h, .refl C⟩

theorem Le.last {L : Log} {o : Origin} {C C' : Chart} (h : C.Grows C') : Le (L ++ [(o, C)]) (L ++ [(o, C')]) := by
  intro i o' D hi
  rw [List.getElem?_append] at hi ⊢
  split at hi
  · rename_i hlt
    exact ⟨D, by rw [if_pos hlt]; exact hi, .refl D⟩
  · rename_i hlt
    rw [if_neg hlt]
    rw [List.getElem?_singleton] at hi ⊢
    split at hi
    · rename_i h0
      simp only [Option.some.injEq, Prod.mk.injEq] at hi
      obtain ⟨rfl, rfl⟩ := hi
      exact ⟨C', by rw [if_pos h0], h⟩
    · cases hi

end Log

theorem Hist.mono {L L' : Log} (hle : L.Le L') {x : PgfItem} {i : Nat} (h : Hist L x i) : Hist L' x i := by
  induction h with
  | new hi hc hp hx =>
    obtain ⟨C', hi', hg⟩ := hle hi
    exact .new hi' (hg.conts hc) (hg.prod hp) hx
  | combine _ ha hij hi hc hj hg hx ih =>
    obtain ⟨Ci', hi', hgi⟩ := hle hi
    obtain ⟨Cj', hj', hgj⟩ := hle hj
    exact .combine ih ha hij hi' (hgi.conts hc) hj' (hgj.gen hg) hx
  | scan _ hr hij hj hf hm hx ih =>
    obtain ⟨C', hj', -⟩ := hle hj
    exact .scan ih hr hij hj' hf hm hx

/-- The base of an item names a constituent that some earlier call predicted. -/
theorem Hist.base {L : Log} {x : PgfItem} {j : Nat} (h : Hist L x j) : ∃ i o C, i ≤ j ∧ L[i]? = some (o, C) ∧
    C.conts x.base.ccat x.base.lin_idx = some x.base.conts ∧ C.Prod x.base.ccat x.base.prod := by
  induction h with
  | @new i o C c r K p x hi hc hp hx =>
    obtain ⟨-, hb, -⟩ := pgf_new_item_ok hx
    exact ⟨i, o, C, Nat.le_refl _, hi, by rw [hb]; exact hc, by rw [hb]; exact hp⟩
  | combine _ _ hij _ _ _ _ hx ih =>
    obtain ⟨-, hb, -⟩ := combined_ok hx
    obtain ⟨i', o, C, hle, hi', hc, hp⟩ := ih
    exact ⟨i', o, C, hle.trans hij, hi', by rw [hb]; exact hc, by rw [hb]; exact hp⟩
  | scan _ _ hij _ _ _ hx ih =>
    obtain ⟨hb, -⟩ := scanned_base hx
    obtain ⟨i', o, C, hle, hi', hc, hp⟩ := ih
    exact ⟨i', o, C, hle.trans (Nat.le_of_lt hij), hi', by rw [hb]; exact hc, by rw [hb]; exact hp⟩

/-- What the log says of the current call `n`. -/
structure Traced (L : Log) (n : Nat) (C : Chart) : Prop where
  seen : ∀ x ∈ C.seen, Hist L x n
  gens : ∀ {K g}, C.gen K = some g → ∃ i o Ci c r, i ≤ n ∧ L[i]? = some (o, Ci) ∧ Ci.conts c r = some K

theorem Traced.mono {L L' : Log} (hle : L.Le L') {n : Nat} {C : Chart} (h : Traced L n C) : Traced L' n C where
  seen x hx := (h.seen x hx).mono hle
  gens hg := by
    obtain ⟨i, o, Ci, c, r, hi, hL, hc⟩ := h.gens hg
    obtain ⟨Ci', hL', hgr⟩ := hle hL
    exact ⟨i, o, Ci', c, r, hi, hL', hgr.conts hc⟩

theorem logOf_getElem? {l : List (Call P)} {i : Nat} {o : Origin} {C : Chart} :
    (logOf l)[i]? = some (o, C) ↔ ∃ c, l[i]? = some c ∧ c.origin = o ∧ c.state.chart = C := by
  simp only [logOf, List.getElem?_map, Option.map_eq_some_iff, Prod.mk.injEq]

/-- The items seen so far in a call have a history in its session. -/
theorem Session.traced_steps {l : List (Call P)} (hl : Session P l)
    (ih : ∀ i c, l[i]? = some c → Traced (logOf l) i c.state.chart) {o : Origin} {C : Chart}
    (hs : Chart.Steps (o.Scans (heapAfter l)) (o.Starts P) (heapAfter l).chart C) :
    Traced (logOf l ++ [(o, C)]) l.length C := by
  have hlen : (logOf l).length = l.length := List.length_map _
  have hlast : ∀ D : Chart, (logOf l ++ [(o, D)])[l.length]? = some (o, D) := fun D => by
    rw [← hlen]
    exact List.getElem?_concat_length
  -- an item that waits in a continuation set has a history, as does one that scanning made
  have hheld : ∀ {D : Chart} {K : PgfItemSetId} {g : PgfCCatId} {k : PgfItem},
      Chart.Steps (o.Scans (heapAfter l)) (o.Starts P) (heapAfter l).chart D → Traced (logOf l ++ [(o, D)]) l.length D →
      D.gen K = some g → some k ∈ D.held K → ∃ i oi Ci c r, i ≤ l.length ∧ Hist (logOf l ++ [(o, D)]) k i ∧
        Awaits k c r ∧ (logOf l ++ [(o, D)])[i]? = some (oi, Ci) ∧ Ci.conts c r = some K := by
    intro D K g k hD htr hg hk
    obtain ⟨i, oi, Ci, c, r, hi, hL, hc⟩ := htr.gens hg
    rcases Nat.lt_or_eq_of_le hi with hlt | rfl
    · rw [List.getElem?_append_left (hlen ▸ hlt)] at hL
      obtain ⟨call, hcall, rfl, rfl⟩ := logOf_getElem?.1 hL
      have hown : K < (heapAfter l).sets.length :=
        Nat.lt_of_lt_of_le ((hl.wf hcall).conts_lt hc).1 (hl.heap_le hcall).sets.length_le
      have hold : (heapAfter l).Held K (some k) := by
        have := hD.held_old (Heap.chart_own _) hown
        rw [this] at hk
        exact hk
      obtain ⟨hseen, hw⟩ := hl.held_conts hcall hc hold
      exact ⟨i, _, _, c, r, hi, ((ih i call hcall).seen k hseen).mono (Log.Le.append _ _), hw,
        by rw [List.getElem?_append_left (hlen ▸ hlt)]; exact hL, hc⟩
    · rw [hlast] at hL
      cases hL
      obtain ⟨hseen, hw⟩ := ((Heap.chart_wf _ _).steps hD).conts_held hc hk
      exact ⟨_, _, _, c, r, Nat.le_refl _, htr.seen k hseen, hw, hlast D, hc⟩
  have hscan : ∀ {x : PgfItem} {D : Chart}, o.Scans (heapAfter l) x → Hist (logOf l ++ [(o, D)]) x l.length := by
    intro x D hx
    cases o with
    | parse cat lin_idx => exact hx.elim
    | token p tok =>
      obtain ⟨T, y, forms, alt, toks, hT, hy, hf, hm, hx⟩ := hx
      obtain ⟨call, hcall, -, hheld⟩ := hl.agenda hT
      obtain ⟨y', he, hseen, hr⟩ := hheld _ hy
      cases he
      have hp : p < l.length := (List.getElem?_eq_some_iff.1 hcall).1
      exact .scan (((ih p call hcall).seen y hseen).mono (Log.Le.append _ _)) hr hp (hlast D) hf hm hx
  induction hs with
  | refl =>
    exact ⟨fun x hx => hx.elim, fun {K g} hg => by cases hg⟩
  | @tail D D' hD hstep htr =>
    have hmono : Traced (logOf l ++ [(o, D')]) l.length D := htr.mono (Log.Le.last hstep.grows)
    have hj : ∀ {x}, Chart.Justified (o.Scans (heapAfter l)) D x → Hist (logOf l ++ [(o, D')]) x l.length := by
      intro x hj
      refine Hist.mono (Log.Le.last hstep.grows) ?_
      cases hj with
      | scanned hx => exact hscan hx
      | predicted hc hp hx => exact .new (hlast D) hc hp hx
      | combined hg hk hx =>
        obtain ⟨i, oi, Ci, c, r, hi, hh, hw, hL, hc⟩ := hheld hD htr hg hk
        exact .combine hh hw hi hL hc (hlast D) hg hx
    have hsee : ∀ {x}, Chart.Justified (o.Scans (heapAfter l)) D x → ∀ y ∈ insert x D.seen,
        Hist (logOf l ++ [(o, D')]) y l.length := by
      rintro x hx y (rfl | hy)
      · exact hj hx
      · exact hmono.seen y hy
    cases hstep with
    | see hx _ _ => exact ⟨hsee hx, hmono.gens⟩
    | complete_new hx _ _ _ hg _ =>
      refine ⟨hsee hx, fun {K g} hK => ?_⟩
      simp only [Chart.addGen, Function.update_apply] at hK
      split at hK
      · rename_i he
        subst he
        obtain ⟨i, oi, Ci, hi, hL, hc, -⟩ := (hj hx).base
        exact ⟨i, oi, Ci, _, _, hi, hL, hc⟩
      · exact hmono.gens hK
    | complete_old hx _ _ _ _ _ _ => exact ⟨hsee hx, hmono.gens⟩
    | conts _ _ _ _ => exact ⟨hmono.seen, hmono.gens⟩
    | hold _ _ => exact ⟨hmono.seen, hmono.gens⟩
    | toks _ _ _ => exact ⟨hmono.seen, hmono.gens⟩
    | file _ _ _ => exact ⟨hmono.seen, hmono.gens⟩
    | accept _ _ => exact ⟨hmono.seen, hmono.gens⟩

/-- Every item seen in a session has a history in it. -/
theorem Session.traced {l : List (Call P)} (hl : Session P l) :
    ∀ i c, l[i]? = some c → Traced (logOf l) i c.state.chart := by
  induction hl with
  | nil => intro i c hc; simp at hc
  | @call l o s fuel hl hr ih =>
    intro i c hc
    have hlog : logOf (l ++ [⟨o, s⟩]) = logOf l ++ [(o, s.chart)] := by simp [logOf]
    rw [hlog]
    by_cases hi : i < l.length
    · rw [List.getElem?_append_left hi] at hc
      exact (ih i c hc).mono (Log.Le.append _ _)
    · have hi' : i = l.length := by
        have := (List.getElem?_eq_some_iff.1 hc).1
        simp only [List.length_append, List.length_singleton] at this
        omega
      subst hi'
      rw [List.getElem?_concat_length, Option.some.injEq] at hc
      subst hc
      exact hl.traced_steps ih (Origin.run_called hr).steps

end Libpgf
