import Libpgf.Gu.MapValues
import Libpgf.Pgf.Depth
import Libpgf.Pgf.Enumerations
import Libpgf.Pgf.Twins
/-!
# What is listed once

A call that reads a token lists each category that it completes for a whole
input once: it comes upon the continuation of a whole input in an older set,
which it does not change, while it goes through that set for the first time.
Hence in a suffix-free grammar no derivation is enumerated twice.
-/

namespace Libpgf

variable {P : PgfParser}

/-! ## The continuation of a whole input -/

/-- When no constituent starts an input, that continuation gets into no set. -/
theorem Chart.Step.held_none {scans : PgfItem → Prop} {starts : PgfCCatId → Nat → Prop} {C D : Chart} (hs : Step scans starts C D)
    (hn : ∀ c r, ¬ starts c r) {K : PgfItemSetId} (h : none ∈ D.held K) : none ∈ C.held K := by
  have hhold : ∀ {K' : PgfItemSetId} {k : Option PgfItem}, k ≠ none → none ∈ (C.hold K' k).held K → none ∈ C.held K := by
    intro K' k hk h
    simp only [Chart.hold] at h
    split at h
    · rename_i he
      rw [he]
      exact h.resolve_left (Ne.symm hk)
    · exact h
  cases hs with
  | @hold c r k K' hw _ =>
    cases k with
    | none => exact absurd hw (hn c r)
    | some x => exact hhold (Option.some_ne_none x) h
  | file _ _ _ => exact hhold (Option.some_ne_none _) h
  | see _ _ _ => exact h
  | complete_new _ _ _ _ _ _ => exact h
  | complete_old _ _ _ _ _ _ _ => exact h
  | conts _ _ _ _ => exact h
  | toks _ _ _ => exact h
  | accept _ _ => exact h

/-- An enumeration comes upon a key once. -/
theorem GuSet.next_once {K : Type} {h : GuHasher K} {s : GuSet h} {i j : Nat} {k : K} (hn : s.next i = some (k, j)) : ¬ s.Ahead j k := by
  obtain ⟨x, -, rfl, hx, rfl, -⟩ := GuMap.enum_next_some hn
  rintro ⟨y, hy, hyu, he⟩
  have := s.wf.slot_unique hx hyu (by rw [he]; exact h.eq_refl _)
  omega

theorem GuSet.Ahead.le {K : Type} {h : GuHasher K} {s : GuSet h} {i j : Nat} {k : K} (ha : s.Ahead j k) (hij : i ≤ j) : s.Ahead i k := by
  obtain ⟨x, hx, ha⟩ := ha
  exact ⟨x, Nat.le_trans hij hx, ha⟩

namespace PgfParsing
variable {scans : PgfItem → Prop} {starts : PgfCCatId → Nat → Prop} {h : Heap P} {s s' s'' : PgfParsing P}

/-- A state of a call made on the memory `h`, where only older sets hold the continuation of a whole input. -/
structure Quiet (h : Heap P) (s : PgfParsing P) : Prop where
  le : h.Le s.heap
  own : s.chart.Own h.sets.length h.ccats.length
  parse : h.parses.length ≤ s.parse
  held : ∀ K, none ∈ s.chart.held K → K < h.sets.length

theorem Quiet.reaches (hq : Quiet h s) (hn : ∀ c r, ¬ starts c r) (hr : Reaches scans starts s s') : Quiet h s' where
  le := hr.frame h hq.own hq.parse hq.le
  own := hq.own.steps hr.steps
  parse := hr.parse ▸ hq.parse
  held K hK := by
    refine hq.held K ?_
    have hback := hr.steps.inv (I := fun C => none ∈ C.held K → none ∈ s.chart.held K)
      (fun ih hs hD => ih (hs.held_none hn hD)) id
    exact hback hK

/-- The older sets stay as they are. -/
theorem Quiet.set_eq (hq : Quiet h s) (hq' : Quiet h s') {K : PgfItemSetId} (hK : K < h.sets.length) :
    s'.heap.sets[K]? = s.heap.sets[K]? := (prefix_getElem? hq'.le.sets hK).symm.trans (prefix_getElem? hq.le.sets hK)

/-- Of the older sets the continuation is ahead in both states. -/
theorem Quiet.ahead (hq : Quiet h s) (hq' : Quiet h s') {K : PgfItemSetId} {set : PgfItemSet P} {cursor : Nat}
    (hset : s'.heap.sets[K]? = some set) (ha : set.Ahead cursor none) : s.heap.sets[K]? = some set := by
  obtain ⟨i, -, hi, he⟩ := ha
  have hmem : none ∈ set := ⟨i, hi, by rw [he]; exact (itemHasher P.item_hash).eq_refl _⟩
  exact (hq.set_eq hq' (hq'.held K ⟨set, hset, hmem⟩)).symm.trans hset

/-- Categories in `A` and categories made meanwhile are listed as completed, each of them once. -/
structure Lists (A : Set PgfCCatId) (s s' : PgfParsing P) : Prop where
  ncats : s.chart.ccats.length ≤ s'.chart.ccats.length
  added : ∃ gs : List PgfCCatId, s'.chart.completed = s.chart.completed ++ gs ∧ gs.Nodup ∧
    ∀ g ∈ gs, (g ∈ A ∨ s.chart.ccats.length ≤ g) ∧ g < s'.chart.ccats.length

theorem Lists.same {A : Set PgfCCatId} (hl : s.chart.ccats.length ≤ s'.chart.ccats.length)
    (hc : s'.chart.completed = s.chart.completed) : Lists A s s' :=
  ⟨hl, [], by rw [hc, List.append_nil], List.nodup_nil, fun g hg => by cases hg⟩

theorem Lists.refl (A : Set PgfCCatId) (s : PgfParsing P) : Lists A s s := .same (Nat.le_refl _) rfl

/-- What is listed later is newer. -/
theorem Lists.trans {A B : Set PgfCCatId} (h : Lists A s s') (h' : Lists B s' s'')
    (hB : ∀ g ∈ B, g ∉ A ∧ g < s.chart.ccats.length) : Lists (A ∪ B) s s'' := by
  obtain ⟨gs, hgs, hnd, hlt⟩ := h.added
  obtain ⟨gs', hgs', hnd', hlt'⟩ := h'.added
  refine ⟨Nat.le_trans h.ncats h'.ncats, gs ++ gs', by rw [hgs', hgs, List.append_assoc], ?_, fun g hg => ?_⟩
  · refine List.nodup_append.2 ⟨hnd, hnd', fun g hg g' hg' he => ?_⟩
    subst he
    rcases (hlt' g hg').1 with hgB | hle
    · rcases (hlt g hg).1 with hgA | hle
      · exact (hB g hgB).1 hgA
      · exact absurd (hB g hgB).2 (Nat.not_lt_of_le hle)
    · exact absurd (hlt g hg).2 (Nat.not_lt_of_le hle)
  · rcases List.mem_append.1 hg with hg | hg
    · exact ⟨(hlt g hg).1.imp_left (.inl ·), Nat.lt_of_lt_of_le (hlt g hg).2 h'.ncats⟩
    · exact ⟨(hlt' g hg).1.imp (.inr ·) (Nat.le_trans h.ncats), (hlt' g hg).2⟩

theorem Lists.before {A : Set PgfCCatId} (hl : s.chart.ccats.length ≤ s'.chart.ccats.length)
    (hc : s'.chart.completed = s.chart.completed) (h : Lists A s' s'') (hA : ∀ g ∈ A, s.chart.ccats.length ≤ g) : Lists ∅ s s'' := by
  obtain ⟨gs, hgs, hnd, hlt⟩ := h.added
  refine ⟨Nat.le_trans hl h.ncats, gs, by rw [hgs, hc], hnd, fun g hg => ⟨.inr ?_, (hlt g hg).2⟩⟩
  rcases (hlt g hg).1 with hgA | hle
  · exact hA g hgA
  · exact Nat.le_trans hl hle

theorem Lists.append (h : Lists ∅ s s') (h' : Lists ∅ s' s'') : Lists ∅ s s'' :=
  Set.union_empty (∅ : Set PgfCCatId) ▸ h.trans h' fun _ hg => hg.elim

/-! ## Functions that process items -/

section Rec
variable {f : PgfParsing P → PgfItem → Exec (PgfParsing P)}
  (hf : ∀ {s x s'}, Chart.Justified scans s.chart x → f s x = .ok s' → Reaches scans starts s s')
  (hfl : ∀ {s x s'}, Quiet h s → Chart.Justified scans s.chart x → f s x = .ok s' → Lists ∅ s s')

section
include hfl

theorem production_lists (hq : Quiet h s) {c : PgfCCatId} {r : Nat} {p : PgfProduction} {K : PgfItemSetId}
    (hc : s.chart.conts c r = some K) (hp : s.chart.Prod c p) (h : pgf_parsing_production f s c r p K = .ok s') :
    Lists ∅ s s' := by
  obtain ⟨x, hx, h⟩ := production_ok h
  exact hfl hq (.predicted hc hp hx) h

theorem combine_lists (hq : Quiet h s) {K : PgfItemSetId} {k : PgfItem} {g : PgfCCatId} (hg : s.chart.gen K = some g)
    (hk : some k ∈ s.chart.held K) (h : pgf_parsing_combine f s (some k) g = .ok s') : Lists ∅ s s' := by
  obtain ⟨x, hx, h⟩ := Exec.bind_ok.1 h
  exact hfl hq (.combined hg hk hx) h

end

include hf hfl
variable (hn : ∀ c r, ¬ starts c r)
include hn

/-- The loop over a continuation set lists its category when it comes upon the
continuation of a whole input, and so not if that is not ahead. -/
theorem complete_loop_lists {K : PgfItemSetId} {g : PgfCCatId} {start : PgfItemSet P} :
    ∀ {n cursor : Nat} {rounds : List (EnumRound P)} {s : PgfParsing P}, Quiet h s → s.chart.gen K = some g →
      g < s.chart.ccats.length → pgf_parsing_complete_loop f K g start n cursor rounds s = .ok s' → Lists {g} s s' ∧
        ((∀ set, s.heap.sets[K]? = some set → ¬ set.Ahead cursor none) → Lists ∅ s s') := by
  intro n
  induction n with
  | zero => intro cursor rounds s _ _ _ h; simp [pgf_parsing_complete_loop] at h
  | succ n ih =>
    intro cursor rounds s hq hg hlt hs
    unfold pgf_parsing_complete_loop at hs
    obtain ⟨before, hb, hs⟩ := Exec.bind_ok.1 hs
    rw [Exec.deref_ok] at hb
    cases hnext : before.next cursor with
    | none =>
      simp only [hnext, Exec.pure_eq, Except.ok.injEq] at hs
      subst hs
      exact ⟨.same (Nat.le_refl _) rfl, fun _ => .same (Nat.le_refl _) rfl⟩
    | some kc =>
      obtain ⟨k, cursor'⟩ := kc
      simp only [hnext] at hs
      obtain ⟨s₁, h₁, hs⟩ := Exec.bind_ok.1 hs
      obtain ⟨after, ha, hs⟩ := Exec.bind_ok.1 hs
      obtain ⟨hcur, hmem, hahead, -⟩ := GuSet.next_some hnext
      have hk : k ∈ s.chart.held K := ⟨before, hb, hmem⟩
      have hr : Reaches scans starts s s₁ := combine_reaches hf hg hk h₁
      have hq₁ := hq.reaches hn hr
      have hlt₁ := Nat.lt_of_lt_of_le hlt hr.grows.ncats
      obtain ⟨hany, hnew⟩ := ih hq₁ (hr.grows.gen hg) hlt₁ hs
      cases k with
      | some k =>
        have hl₁ : Lists ∅ s s₁ := combine_lists hfl hq hg hk h₁
        constructor
        · rw [← Set.empty_union {g}]
          refine hl₁.trans hany fun g' hg' => ?_
          rw [Set.mem_singleton_iff] at hg'
          exact ⟨Set.notMem_empty _, hg' ▸ hlt⟩
        · intro hno
          refine hl₁.append (hnew fun set hset haset => ?_)
          exact hno set (hq.ahead hq₁ hset haset) (haset.le (Nat.le_of_lt hcur))
      | none =>
        refine ⟨?_, fun hno => absurd hahead (hno before hb)⟩
        -- it is not ahead any more
        have hrest := hnew fun set hset haset => by
          rw [hq.ahead hq₁ hset haset, Option.some.injEq] at hb
          exact GuSet.next_once hnext (hb ▸ haset)
        obtain ⟨hchart, -⟩ := push_completed_ok h₁
        have hl₁ : Lists {g} s s₁ := by
          refine ⟨hr.grows.ncats, [g], by rw [hchart]; rfl, List.nodup_singleton g, fun g' hg' => ?_⟩
          rw [List.mem_singleton] at hg'
          exact ⟨.inl hg', hg' ▸ hlt₁⟩
        rw [← Set.union_empty {g}]
        exact hl₁.trans hrest fun g' hg' => hg'.elim

theorem predict_lists (hq : Quiet h s) {k : PgfItem} {c : PgfCCatId} {r : Nat} (hw : Chart.Waits starts s.chart c r (some k))
    (hs : pgf_parsing_predict f s (some k) c r = .ok s') : Lists ∅ s s' := by
  obtain ⟨ccat, hccat, ⟨-, rfl⟩ | ⟨hnull, s₁, K, s₃, h₁, h₃, hs⟩⟩ := predict_ok hs
  · exact .refl ∅ s'
  obtain ⟨(hr₁ : Reaches scans starts s s₁), hK, hccats, hchart₁⟩ := get_conts_ok hw hccat hnull h₁
  have hl₁ : Lists ∅ s s₁ := by
    refine .same hr₁.grows.ncats ?_
    rcases hchart₁ with he | ⟨-, he⟩
    · rw [he]
    · rw [he]
      rfl
  have hq₁ := hq.reaches hn hr₁
  have hheld : Quiet h s₃ ∧ Lists ∅ s s₃ ∧ some k ∈ s₃.chart.held K := by
    obtain ⟨hk, rfl⟩ | ⟨s₂, -, h₂, h₃⟩ := h₃
    · exact ⟨hq₁, hl₁, hk⟩
    · have hr₂ : Reaches scans starts s₁ s₂ :=
        set_insert_reaches h₂ (.hold (hr₁.grows.waits hw) hK) fun m n ho => ho.conts hK
      obtain ⟨_, -, hchart₂⟩ := set_insert_ok h₂
      have hl₂ : Lists ∅ s s₂ := hl₁.append (.same hr₂.grows.ncats (by rw [hchart₂]; rfl))
      have hk : some k ∈ s₂.chart.held K := by
        rw [hchart₂]
        simp [Chart.hold]
      -- the productions are taken in turn
      have hloop := forEach_inv (P := fun t => Reaches scans starts s₂ t ∧ Quiet h t ∧ Lists ∅ s t)
        (fun p hp t t' ht hs => ?_) ⟨.refl s₂, hq₁.reaches hn hr₂, hl₂⟩ h₃
      · exact ⟨hloop.2.1, hloop.2.2, hloop.1.grows.held _ hk⟩
      · obtain ⟨ht, hqt, hlt⟩ := ht
        have hKt := ht.grows.conts (hr₂.grows.conts hK)
        have hpt := (hr₁.trans (hr₂.trans ht)).grows.prod ⟨ccat, hccat, hp⟩
        have hrt : Reaches scans starts t t' := production_reaches hf hKt hpt hs
        exact ⟨ht.trans hrt, hqt.reaches hn hrt, hlt.append (production_lists hfl hqt hKt hpt hs)⟩
  obtain ⟨hq₃, hl₃, hk⟩ := hheld
  obtain ⟨g, hg, hs⟩ | ⟨-, rfl⟩ := hs
  · exact hl₃.append (combine_lists hfl hq₃ hg hk hs)
  · exact hl₃

theorem complete_lists {t : PgfParsing P} {x : PgfItem} (hm : Marked t x s) (hq : Quiet h t) (hj : Chart.Justified scans t.chart x)
    (hc : Complete x) (hs : pgf_parsing_complete f s x = .ok s') : Lists ∅ t s' := by
  have hgen : s.chart.gen = t.chart.gen := by
    rw [hm.chart]
    rfl
  obtain ⟨p, hprod, ⟨g, s₁, s₂, l, hg, h₁, h₂, hs⟩ | ⟨hg, ccat, s₁, start, hccat, h₁, hst, hs⟩⟩ := complete_ok hs
  · obtain ⟨(hr₁ : Reaches scans starts t s₁), ⟨ccat, hchart⟩, hp₁⟩ := hm.push_old hj hc hprod (hgen ▸ hg) h₁
    obtain ⟨hchart₂, -⟩ := get_contss_ok h₂
    have hr₂ : Reaches scans starts s₁ s₂ := get_contss_reaches h₂
    have hq₂ := hq.reaches hn (hr₁.trans hr₂)
    have hl₂ : Lists ∅ t s₂ := by
      refine .same (hr₁.trans hr₂).grows.ncats ?_
      rw [hchart₂, hchart]
      rfl
    refine (forEach_inv (P := fun u => Reaches scans starts s₂ u ∧ Quiet h u ∧ Lists ∅ t u)
      (fun i _ u u' ⟨hu, hqu, hlu⟩ hs => ?_) ⟨.refl s₂, hq₂, hl₂⟩ hs).2.2
    obtain ⟨K, hK, hs⟩ | ⟨-, rfl⟩ := repredict_ok hs
    · have hpu := hu.grows.prod (hr₂.grows.prod hp₁)
      have hru : Reaches scans starts u u' := production_reaches hf hK hpu hs
      exact ⟨hu.trans hru, hqu.reaches hn hru, hlu.append (production_lists hfl hqu hK hpu hs)⟩
    · exact ⟨hu, hqu, hlu⟩
  · obtain ⟨(hr₁ : Reaches scans starts t s₁), ⟨c, hchart⟩, hg₁⟩ := hm.push_new hj hc hprod (hgen ▸ hg) hccat h₁
    have hlen : s.heap.ccats.length = t.chart.ccats.length := congrArg (fun h => h.ccats.length) hm.heap
    have hlt : s.heap.ccats.length < s₁.chart.ccats.length := by
      rw [hchart, hlen]
      simp [Chart.addGen, Chart.see]
    -- the category of the loop is new
    have hl := (complete_loop_lists hf hfl hn (hq.reaches hn hr₁) hg₁ hlt hs).1
    refine .before hr₁.grows.ncats ?_ hl fun g hg => ?_
    · rw [hchart]
      rfl
    · rw [Set.mem_singleton_iff] at hg
      rw [hg, hlen]

end Rec

theorem item_lists (hn : ∀ c r, ¬ starts c r) : ∀ {fuel : Nat} {s s' : PgfParsing P} {x : PgfItem}, Quiet h s →
    Chart.Justified scans s.chart x → pgf_parsing_item fuel s x = .ok s' → Lists ∅ s s' := by
  intro fuel
  induction fuel with
  | zero => intro s s' x _ _ hs; simp [pgf_parsing_item] at hs
  | succ fuel ih =>
    intro s s' x hq hj hs
    have hf : ∀ {s s' : PgfParsing P} {x : PgfItem}, Chart.Justified scans s.chart x → pgf_parsing_item fuel s x = .ok s' →
        Reaches scans starts s s' := item_reaches
    obtain ⟨-, rfl⟩ | ⟨hx, t, hs, hchart, hheap, hparse, henums⟩ := item_ok hs
    · exact .refl ∅ s'
    have hm : Marked s x t := ⟨hx, hchart, hheap, hparse, henums⟩
    have hseen : x ∈ t.chart.seen := hchart ▸ Set.mem_insert _ _
    have hr : ¬ Complete x → Reaches scans starts s t := fun hnc =>
      ⟨hchart ▸ .single (.see hj hx hnc), fun _ _ _ hb => hheap ▸ hb, hparse, by rw [hheap], same_enums henums⟩
    have hl : ¬ Complete x → Lists ∅ s t := fun hnc => .same (hr hnc).grows.ncats (by rw [hchart]; rfl)
    obtain ⟨hcomp, hs⟩ | ⟨c, r, hw, hs⟩ | ⟨hnc, -, toks, hreads, hs⟩ := new_item_ok hs
    · exact complete_lists hf ih hn hm hq hj hcomp hs
    · exact (hl hw.not_complete).append (predict_lists hf ih hn (hq.reaches hn (hr hw.not_complete)) ⟨hseen, hw⟩ hs)
    · refine (forEach_inv (P := fun u => Reaches scans starts t u ∧ Lists ∅ s u) (fun tok htok u u' hu hs => ?_)
        ⟨.refl t, hl hnc⟩ hs).2
      obtain ⟨hu, hlu⟩ := hu
      have hru : Reaches scans starts u u' := add_transition_reaches (hu.grows.seen hseen) ((hreads tok).2 htok) hs
      refine ⟨hu.trans hru, hlu.append (.same hru.grows.ncats ?_)⟩
      obtain ⟨T, -, ⟨-, he⟩ | ⟨-, -, he⟩⟩ := add_transition_ok hs
      · rw [he]
        rfl
      · rw [he]
        rfl

end PgfParsing

/-! ## Calls that read a token -/

section Token
variable {h : Heap P} {s s' : PgfParsing P} {tok : PgfToken} {fuel : Nat}

open PgfParsing

theorem scan_lists (scans : PgfItem → Prop) (starts : PgfCCatId → Nat → Prop) (hn : ∀ c r, ¬ starts c r) {x : PgfItem}
    (hq : Quiet h s) (hj : ∀ forms alt toks y, scan_forms x = .ok forms → (alt, toks) ∈ forms →
      scanned x tok alt toks = .ok (some y) → scans y) (hs : pgf_parsing_scan fuel s x tok = .ok s') :
    Quiet h s' ∧ Lists ∅ s s' := by
  obtain ⟨forms, hf, hs⟩ := scan_ok hs
  refine forEach_inv (P := fun a : PgfParsing P × Bool => Quiet h a.1 ∧ Lists ∅ s a.1) (fun form hform a a' ⟨hqa, hla⟩ hs => ?_)
    ⟨hq, .refl ∅ s⟩ hs
  obtain ⟨⟨t, b⟩, ht, hs⟩ := Exec.bind_ok.1 hs
  simp only [Exec.pure_eq, Except.ok.injEq] at hs
  subst hs
  obtain ⟨y, hy, hs, -⟩ | ⟨-, rfl, -⟩ := scan_toks_ok ht
  · have hjy : Chart.Justified scans a.1.chart y := .scanned (hj forms _ _ y hf hform hy)
    have hr : PgfParsing.Reaches scans starts a.1 t := item_reaches hjy hs
    exact ⟨hqa.reaches hn hr, hla.append (item_lists hn hqa hjy hs)⟩
  · exact ⟨hqa, hla⟩

theorem token_loop_lists {p : Nat} {T : PgfItemSetId} (hT : Origin.Agenda h p (some tok) T) (hlt : T < h.sets.length) :
    ∀ {n cursor : Nat} {s s' : PgfParsing P}, Quiet h s → pgf_parse_token_loop fuel T tok n cursor s = .ok s' → Lists ∅ s s' := by
  intro n
  induction n with
  | zero => intro cursor s s' _ hs; simp [pgf_parse_token_loop] at hs
  | succ n ih =>
    intro cursor s s' hq hs
    unfold pgf_parse_token_loop at hs
    obtain ⟨items, hi, hs⟩ := Exec.bind_ok.1 hs
    rw [Exec.deref_ok] at hi
    cases hnext : items.next cursor with
    | none =>
      simp only [hnext, Exec.pure_eq, Except.ok.injEq] at hs
      exact hs ▸ .refl ∅ s
    | some kc =>
      obtain ⟨k, cursor'⟩ := kc
      simp only [hnext] at hs
      obtain ⟨y, hy, hs⟩ := Exec.bind_ok.1 hs
      obtain ⟨s₁, h₁, hloop⟩ := Exec.bind_ok.1 hs
      rw [Exec.deref_ok] at hy
      subst hy
      have hold : h.Held T (some y) := by
        refine ⟨items, ?_, (GuSet.next_some hnext).2.1⟩
        rw [← hi]
        exact prefix_getElem? hq.le.sets hlt
      obtain ⟨hq₁, hl₁⟩ := scan_lists ((Origin.token p tok).Scans h) ((Origin.token p tok).Starts P)
        (fun _ _ hst => hst) hq (fun forms alt toks z hf hm hz => ⟨T, y, forms, alt, toks, hT, hold, hf, hm, hz⟩) h₁
      exact hl₁.append (ih hq₁ hloop)

/-- A call that reads a token lists no category twice. -/
theorem completed_once {p : Nat} (hs : pgf_parse_token fuel h p tok = .ok (some s)) : s.chart.completed.Nodup := by
  obtain ⟨parse, hparse, hs⟩ := Exec.bind_ok.1 hs
  rw [Exec.deref_ok] at hparse
  cases hT : parse.transitions (some tok) with
  | none => simp [hT] at hs
  | some T =>
    simp only [hT] at hs
    obtain ⟨s₀, h₀, hs⟩ := Exec.bind_ok.1 hs
    obtain ⟨s₁, h₁, hs⟩ := Exec.bind_ok.1 hs
    simp only [Exec.pure_eq, Except.ok.injEq, Option.some.injEq] at hs
    subst hs
    obtain ⟨hc, hp, -, hle, -⟩ := new_parsing_ok h₀
    have hq : Quiet h s₀ := by
      refine ⟨hle, hc ▸ h.chart_own, hp.ge, fun K hK => ?_⟩
      rw [hc] at hK
      obtain ⟨set, hset, -⟩ := hK
      exact (List.getElem?_eq_some_iff.1 hset).1
    have hlt : T < h.sets.length := by
      obtain ⟨items, hi, -⟩ := Exec.bind_ok.1 h₁
      rw [Exec.deref_ok] at hi
      have hn : s₀.heap.sets.length = h.sets.length := congrArg Chart.nsets hc
      exact hn ▸ (List.getElem?_eq_some_iff.1 hi).1
    obtain ⟨gs, hgs, hnd, -⟩ := (token_loop_lists ⟨parse, hparse, hT⟩ hlt hq h₁).added
    rw [hgs, hc]
    exact hnd

end Token

/-! ## Derivations without their numbers -/

namespace Deriv

mutual

/-- The derivation with the productions only, not their numbers. -/
def unnumbered : Deriv → Deriv
  | use cat _ prod args => use cat 0 prod (unnumbereds args)
  | metavar cat => metavar cat

def unnumbereds : List Deriv → List Deriv
  | [] => []
  | d :: ds => d.unnumbered :: unnumbereds ds

end

theorem unnumbereds_eq (ds : List Deriv) : unnumbereds ds = ds.map unnumbered := by
  induction ds with
  | nil => rfl
  | cons d ds ih => rw [unnumbereds, ih, List.map_cons]

end Deriv

/-- When no category lists a production twice, the productions tell their numbers. -/
theorem Heap.Derivation.numbers {h : Heap P} (hone : ∀ (c : PgfCCatId) (ccat : PgfCCat) (ps : List PgfProduction),
    h.ccats[c]? = some ccat → ccat.prods = .buf ps → ps.Nodup) {c c' : PgfCCatId} {d d' : Deriv} (hd : h.Derivation c d)
    (hd' : h.Derivation c' d') (he : d.unnumbered = d'.unnumbered) : c = c' ∧ d = d' := by
  induction hd generalizing c' d' with
  | @use c ccat ps n p ds hc hps hn hlen _ ih =>
    cases hd' with
    | @use _ ccat' ps' n' p' ds' hc' hps' hn' hlen' hargs' =>
      rw [Deriv.unnumbered, Deriv.unnumbered, Deriv.use.injEq, Deriv.unnumbereds_eq, Deriv.unnumbereds_eq] at he
      obtain ⟨rfl, -, rfl, hds⟩ := he
      obtain rfl : ccat = ccat' := Option.some.inj (hc.symm.trans hc')
      rw [hps, PgfProductions.buf.injEq] at hps'
      subst hps'
      have hlt := (List.getElem?_eq_some_iff.1 hn).1
      obtain rfl : n = n' := (List.getElem?_inj hlt (hone c ccat ps hc hps)).1 (hn.trans hn'.symm)
      have hds' : ds = ds' := by
        refine List.ext_getElem (hlen.trans hlen'.symm) fun i hi hi' => ?_
        have harg := List.getElem?_eq_getElem (hlen ▸ hi)
        have hget := congrArg (·[i]?) hds
        simp only [List.getElem?_map, List.getElem?_eq_getElem hi, List.getElem?_eq_getElem hi', Option.map_some, Option.some.injEq] at hget
        exact (ih i _ _ harg (List.getElem?_eq_getElem hi) (hargs' i _ _ harg (List.getElem?_eq_getElem hi')) hget).2
      exact ⟨rfl, by rw [hds']⟩
    | metavar _ _ => cases he
  | metavar _ _ =>
    cases hd' with
    | use _ _ _ _ _ => cases he
    | metavar _ _ =>
      rw [Deriv.unnumbered, Deriv.unnumbered, Deriv.metavar.injEq] at he
      exact ⟨he, by rw [he]⟩

theorem found_once {h : Heap P} {completed : List PgfCCatId} (hone : ∀ (c : PgfCCatId) (ccat : PgfCCat) (ps : List PgfProduction),
    h.ccats[c]? = some ccat → ccat.prods = .buf ps → ps.Nodup) (hnd : completed.Nodup) :
    ((found (h.walks completed).runs).map fun r => r.2.unnumbered).Nodup := by
  refine (List.nodup_map_iff_inj_on (found_nodup h completed)).2 fun r hr r' hr' he => ?_
  obtain ⟨k, d⟩ := r
  obtain ⟨k', d'⟩ := r'
  obtain ⟨c, hc, hd, -⟩ := found_sound hr
  obtain ⟨c', hc', hd', -⟩ := found_sound hr'
  obtain ⟨rfl, rfl⟩ := hd.numbers hone hd' he
  have hlt := (List.getElem?_eq_some_iff.1 hc).1
  rw [(List.getElem?_inj hlt hnd).1 (hc.trans hc'.symm)]

/-- After a token, in a suffix-free grammar: no category is completed twice, none
is given a production twice, and no derivation is enumerated twice. -/
theorem derivations_once {l : List (Call P)} (hP : P.concr.Fits) (hs : P.concr.SuffixFree) (hl : Session P l) {j p : Nat} {b : Call P}
    {tok : PgfToken} (hb : l[j]? = some b) (ho : b.origin = .token p tok) {parse : PgfParse}
    (hp : (heapAfter l).parses[j]? = some parse) : parse.completed.Nodup ∧
      (∀ (c : PgfCCatId) (ccat : PgfCCat) (ps : List PgfProduction), (heapAfter l).ccats[c]? = some ccat → ccat.prods = .buf ps → ps.Nodup) ∧
      ∃ ds : List Deriv, (ds.map Deriv.unnumbered).Nodup ∧ (∀ d ∈ ds, ∃ g ∈ parse.completed, (heapAfter l).Derivation g d) ∧
        ((heapAfter l).Uncut parse.completed → ∃ N, ∀ fuel, N ≤ fuel →
          EndsAfter (pgf_parse_result_next (heapAfter l) fuel) (pgf_parse_result parse) (ds.map Deriv.expr)) := by
  have hnd : parse.completed.Nodup := by
    obtain ⟨b', hb', hcomp, -⟩ := hl.parse_call hp
    obtain rfl : b' = b := Option.some.inj (hb'.symm.trans hb)
    obtain ⟨-, fuel, hr⟩ := (hl.at_call hb).last
    rw [ho] at hr
    exact hcomp ▸ completed_once hr
  have hone : ∀ (c : PgfCCatId) (ccat : PgfCCat) (ps : List PgfProduction), (heapAfter l).ccats[c]? = some ccat →
      ccat.prods = .buf ps → ps.Nodup := by
    intro c ccat ps hc hps
    by_cases hlt : c < P.concr.ccatMem.length
    · -- the productions of the grammar are no buffers
      rw [← prefix_getElem? hl.ccats_le hlt] at hc
      have hfixed := P.concr.prods_fixed ccat (List.mem_of_getElem? hc)
      rw [hps] at hfixed
      cases hfixed
    · obtain ⟨ps', hps', hnd'⟩ := productions_distinct hP hs hl hc (Nat.le_of_not_lt hlt)
      rw [hps, PgfProductions.buf.injEq] at hps'
      exact hps' ▸ hnd'
  refine ⟨hnd, hone, (found ((heapAfter l).walks parse.completed).runs).map Prod.snd, ?_, fun d hd => ?_, fun hun => ?_⟩
  · rw [List.map_map]
    exact found_once hone hnd
  · obtain ⟨⟨k, d⟩, hkd, rfl⟩ := List.mem_map.1 hd
    obtain ⟨c, hc, hder, -⟩ := found_sound hkd
    exact ⟨c, List.mem_of_getElem? hc, hder⟩
  · refine ⟨(heapAfter l).ccats.length + ((heapAfter l).walks parse.completed).runs.length + 1, fun fuel hfuel => ?_⟩
    rw [List.map_map]
    exact result_ends hun (by omega) (by omega)

theorem Tiny.suffixFree : Tiny.concr.SuffixFree := by
  -- all forms of its symbols are one token long
  have hone : ∀ {sym : PgfSymbol}, (∀ alt form, sym.Tried alt form → form.length = 1) → sym.SuffixFree := by
    intro sym hlen alt alt' form form' h h' hsuf
    exact hsuf.eq_of_length ((hlen alt form h).trans (hlen alt' form' h').symm)
  rintro c p r seq ⟨ccat, hc, hp⟩ hr sym hsym
  match c with
  | 0 =>
    cases hc
    simp only [PgfProductions.elems, List.mem_singleton] at hp
    subst hp
    cases r with
    | zero =>
      cases hr
      rcases List.mem_cons.1 hsym with rfl | hsym
      · exact hone fun alt form h => h.elim
      · rw [List.mem_singleton] at hsym
        subst hsym
        exact hone fun alt form h => by rw [h.2]; rfl
    | succ r => simp [PgfProduction.row, f] at hr
  | 1 =>
    cases hc
    simp only [PgfProductions.elems, List.mem_singleton] at hp
    subst hp
    cases r with
    | zero =>
      cases hr
      rw [List.mem_singleton] at hsym
      subst hsym
      refine hone fun alt form h => ?_
      rcases List.mem_cons.1 h with h | h
      · rw [(Prod.mk.inj h).2]
        rfl
      · obtain ⟨i, b, -, hb, hf, -⟩ := mem_kp_alts.1 h
        rw [List.mem_singleton.1 (List.mem_of_getElem? hb)] at hf
        rw [hf]
        rfl
    | succ r => simp [PgfProduction.row, a] at hr
  | c + 2 => simp [concr] at hc

/-- After `c b`. -/
theorem derivations_once_tiny : ∃ (l : List (Call Tiny.parser)) (parse : PgfParse), Session Tiny.parser l ∧
    (heapAfter l).parses[2]? = some parse ∧ parse.completed.Nodup ∧
      (∀ (c : PgfCCatId) (ccat : PgfCCat) (ps : List PgfProduction), (heapAfter l).ccats[c]? = some ccat → ccat.prods = .buf ps → ps.Nodup) ∧
      ∃ ds : List Deriv, (ds.map Deriv.unnumbered).Nodup ∧ (∀ d ∈ ds, ∃ g ∈ parse.completed, (heapAfter l).Derivation g d) ∧
        ∃ N, ∀ fuel, N ≤ fuel →
          EndsAfter (pgf_parse_result_next (heapAfter l) fuel) (pgf_parse_result parse) (ds.map Deriv.expr) := by
  obtain ⟨l, hl, hcheck⟩ := Session.of_check 20 Tiny.calls (fun l : List (Call Tiny.parser) =>
    decide (l[2]?.map Call.origin = some (.token 1 [98])) &&
      ((heapAfter l).parses[2]?).any fun parse : PgfParse => uncutCheck ((heapAfter l).walks parse.completed).runs) (by decide +kernel)
  rw [Bool.and_eq_true, decide_eq_true_eq, Option.map_eq_some_iff] at hcheck
  obtain ⟨⟨b, hb, hbo⟩, hcheck⟩ := hcheck
  obtain ⟨parse, hp, hcheck⟩ := (Option.any_eq_true _ _).1 hcheck
  obtain ⟨hnd, hone, ds, hds, hders, hends⟩ := derivations_once Tiny.fits Tiny.suffixFree hl hb hbo hp
  exact ⟨l, parse, hl, hp, hnd, hone, ds, hds, hders, hends (.inr (uncut_of_check hcheck))⟩

end Libpgf
