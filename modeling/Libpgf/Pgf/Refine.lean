import Libpgf.Pgf.Chart
/-!
# The parser makes chart steps

`PgfParsing.chart` is what a parser state knows. Every call of the parser's
functions takes the state through steps of the chart, and changes only objects
that the tables of this parse state name.
-/

namespace Libpgf

/-- All that is in `h` is in `h'`, as it was. -/
structure Heap.Le {P : PgfParser} (h h' : Heap P) : Prop where
  ccats : h.ccats <+: h'.ccats
  sets : h.sets <+: h'.sets
  parses : h.parses <+: h'.parses

namespace Heap
variable {P : PgfParser} {h h' h'' : Heap P}

theorem Le.refl (h : Heap P) : h.Le h := ⟨List.prefix_rfl, List.prefix_rfl, List.prefix_rfl⟩

theorem Le.trans (h₁ : h.Le h') (h₂ : h'.Le h'') : h.Le h'' :=
  ⟨h₁.ccats.trans h₂.ccats, h₁.sets.trans h₂.sets, h₁.parses.trans h₂.parses⟩

def Held (h : Heap P) (K : PgfItemSetId) (k : Option PgfItem) : Prop := ∃ set, h.sets[K]? = some set ∧ k ∈ set

end Heap

theorem prefix_set {α : Type} {l l' : List α} {i : Nat} {a : α} (h : l <+: l') (hi : l.length ≤ i) : l <+: l'.set i a := by
  obtain ⟨t, rfl⟩ := h
  rw [List.set_append_right _ _ hi]
  exact List.prefix_append _ _

theorem prefix_getElem? {α : Type} {l l' : List α} {i : Nat} (h : l <+: l') (hi : i < l.length) : l[i]? = l'[i]? := by
  obtain ⟨t, rfl⟩ := h
  rw [List.getElem?_append_left hi]

namespace PgfParsing
variable {P : PgfParser}

def chart (s : PgfParsing P) : Chart where
  seen := {x | some x ∈ s.seen_items}
  conts c r := ((s.conts_map c).bind (·[r]?)).join
  toks t := (s.heap.parses[s.parse]?).bind (·.transitions t)
  gen := s.generated_cats
  nsets := s.heap.sets.length
  held K := {k | s.heap.Held K k}
  ccats := s.heap.ccats
  completed := ((s.heap.parses[s.parse]?).map (·.completed)).getD []

/-- The rounds are those of an enumeration from the cursor, to its end. -/
def EnumRun (cursor : Nat) (set : PgfItemSet P) : List (EnumRound P) → Prop
  | [] => set.next cursor = none
  | r :: rs => r.before = set ∧ set.next cursor = some (r.cont, r.cursor) ∧ EnumRun r.cursor r.after rs

/-- What a call does to a state, seen from outside. -/
structure Reaches (scans : PgfItem → Prop) (starts : PgfCCatId → Nat → Prop) (s s' : PgfParsing P) : Prop where
  steps : Chart.Steps scans starts s.chart s'.chart
  frame : ∀ base : Heap P, Chart.Own base.sets.length base.ccats.length s.chart → base.parses.length ≤ s.parse →
    base.Le s.heap → base.Le s'.heap
  parse : s'.parse = s.parse
  nparses : s'.heap.parses.length = s.heap.parses.length
  enums : ∃ es, s'.enums = s.enums ++ es ∧ ∀ e ∈ es, EnumRun 0 e.start e.rounds

variable {scans : PgfItem → Prop} {starts : PgfCCatId → Nat → Prop} {s s' s'' : PgfParsing P}

theorem same_enums (h : s'.enums = s.enums) :
    ∃ es, s'.enums = s.enums ++ es ∧ ∀ e ∈ es, EnumRun 0 e.start e.rounds := ⟨[], by simp [h], by simp⟩

theorem Reaches.refl (s : PgfParsing P) : Reaches scans starts s s :=
  ⟨.refl, fun _ _ _ h => h, rfl, rfl, same_enums rfl⟩

theorem Reaches.trans (h : Reaches scans starts s s') (h' : Reaches scans starts s' s'') : Reaches scans starts s s'' where
  steps := h.steps.trans h'.steps
  frame base ho hp hb := h'.frame base (ho.steps h.steps) (h.parse ▸ hp) (h.frame base ho hp hb)
  parse := h'.parse.trans h.parse
  nparses := h'.nparses.trans h.nparses
  enums := by
    obtain ⟨es, he, hr⟩ := h.enums
    obtain ⟨es', he', hr'⟩ := h'.enums
    refine ⟨es ++ es', by rw [he', he, List.append_assoc], fun e hm => ?_⟩
    rcases List.mem_append.1 hm with hm | hm
    · exact hr e hm
    · exact hr' e hm

theorem Reaches.grows (h : Reaches scans starts s s') : Chart.Grows s.chart s'.chart := h.steps.grows

/-! ## The small functions -/

theorem mem_held_set {set set' : PgfItemSet P} {sets : List (PgfItemSet P)} {K K' : PgfItemSetId} {k k' : Option PgfItem}
    (hK : sets[K]? = some set) (hm : ∀ k', k' ∈ set' ↔ k' = k ∨ k' ∈ set) :
    (∃ t, (sets.set K set')[K']? = some t ∧ k' ∈ t) ↔ (K' = K ∧ k' = k) ∨ ∃ t, sets[K']? = some t ∧ k' ∈ t := by
  have hlt := (List.getElem?_eq_some_iff.1 hK).1
  by_cases he : K' = K
  · subst he
    simp [List.getElem?_set_self hlt, hK, hm]
  · simp [List.getElem?_set_ne (Ne.symm he), he]

theorem set_insert_ok {K : PgfItemSetId} {k : Option PgfItem} (h : set_insert s K k = .ok s') :
    ∃ set', s' = { s with heap := { s.heap with sets := s.heap.sets.set K set' } } ∧ s'.chart = s.chart.hold K k := by
  obtain ⟨set, hs, h⟩ := Exec.bind_ok.1 h
  obtain ⟨set', hi, h⟩ := Exec.bind_ok.1 h
  simp only [Exec.pure_eq, Except.ok.injEq, Exec.deref_ok] at hs h
  subst h
  refine ⟨set', rfl, ?_⟩
  have hm : ∀ k', k' ∈ set' ↔ k' = k ∨ k' ∈ set := fun k' => by
    rw [GuSet.mem_insert hi]
    exact or_congr decide_eq_true_iff Iff.rfl
  apply Chart.ext <;> try rfl
  · simp [chart, Chart.hold]
  · funext K'
    ext k'
    simp only [chart, Chart.hold, Heap.Held, mem_held_set hs hm, Set.mem_ofPred_eq]
    split
    · rename_i he
      subst he
      simp [Set.mem_insert_iff]
    · rename_i he
      simp [he]

theorem new_set_ok {K : PgfItemSetId} (h : new_set s = .ok (s', K)) :
    ∃ set, K = s.heap.sets.length ∧ s' = { s with heap := { s.heap with sets := s.heap.sets ++ [set] } } ∧
      s'.chart = { s.chart with nsets := s.chart.nsets + 1 } := by
  obtain ⟨set, hn, h⟩ := Exec.bind_ok.1 h
  simp only [Exec.pure_eq, Except.ok.injEq, Prod.mk.injEq] at h
  obtain ⟨rfl, rfl⟩ := h
  refine ⟨set, rfl, rfl, ?_⟩
  apply Chart.ext <;> try rfl
  · simp [chart]
  · funext K'
    ext k'
    simp only [chart, Heap.Held, Set.mem_ofPred_eq, List.getElem?_append]
    split
    · rfl
    · rename_i hK
      rw [List.getElem?_eq_none (Nat.le_of_not_lt hK)]
      simp only [reduceCtorEq, false_and, exists_false, iff_false]
      rintro ⟨t, ht, hm⟩
      have : t = set := by
        rw [List.getElem?_singleton] at ht
        split at ht <;> simp_all
      exact GuSet.not_mem_new hn (this ▸ hm)

theorem set_insert_reaches {K : PgfItemSetId} {k : Option PgfItem} (h : set_insert s K k = .ok s')
    (hs : Chart.Step scans starts s.chart (s.chart.hold K k)) (ho : ∀ m n, Chart.Own m n s.chart → m ≤ K) :
    Reaches scans starts s s' := by
  obtain ⟨set', hs', hc⟩ := set_insert_ok h
  refine ⟨hc ▸ .single hs, fun base hown _ hb => ?_, by rw [hs'], by rw [hs'], same_enums (by rw [hs'])⟩
  rw [hs']
  exact ⟨hb.ccats, prefix_set hb.sets (ho _ _ hown), hb.parses⟩

/-- A new set, where a table is about to name it. -/
theorem new_set_reaches {K : PgfItemSetId} {C : Chart} {t : PgfParsing P} (h : new_set s = .ok (s', K))
    (ht : t.chart = C) (hs : Chart.Step scans starts s.chart C) (hsets : t.heap.sets = s'.heap.sets)
    (hccats : t.heap.ccats = s'.heap.ccats)
    (hparses : ∀ base : Heap P, base.parses.length ≤ s.parse → base.parses <+: s.heap.parses → base.parses <+: t.heap.parses)
    (hn : t.heap.parses.length = s.heap.parses.length) (hp : t.parse = s.parse) (he : t.enums = s.enums) :
    Reaches scans starts s t := by
  obtain ⟨set, -, rfl, -⟩ := new_set_ok h
  refine ⟨ht ▸ .single hs, fun base _ hp' hb => ?_, hp, hn, same_enums he⟩
  refine ⟨hccats ▸ hb.ccats, hsets ▸ hb.sets.trans (List.prefix_append _ _), hparses base hp' hb.parses⟩

/-- An item is filed in the set of the token, which is made if there is none. -/
theorem add_transition_ok {x : PgfItem} {tok : Option PgfToken} (h : pgf_parsing_add_transition s tok x = .ok s') :
    ∃ T, (∃ t : PgfParsing P, set_insert t T (some x) = .ok s' ∧ t.chart.toks tok = some T ∧
        ∀ {scans starts}, x ∈ s.chart.seen → Reads x tok → Reaches scans starts s t) ∧
      ((s.chart.toks tok = some T ∧ s'.chart = s.chart.hold T (some x)) ∨
        (s.chart.toks tok = none ∧ T = s.chart.nsets ∧ s'.chart = (s.chart.addToks tok).hold T (some x))) := by
  obtain ⟨parse, hparse, h⟩ := Exec.bind_ok.1 h
  rw [Exec.deref_ok] at hparse
  have htoks : ∀ t, s.chart.toks t = parse.transitions t := fun t => by simp [chart, hparse]
  cases htr : parse.transitions tok with
  | some T =>
    simp only [htr] at h
    have hT : s.chart.toks tok = some T := (htoks tok).trans htr
    obtain ⟨_, -, hc⟩ := set_insert_ok h
    exact ⟨T, ⟨s, h, hT, fun _ _ => .refl s⟩, .inl ⟨hT, hc⟩⟩
  | none =>
    simp only [htr] at h
    obtain ⟨⟨s₁, T⟩, hnew, h⟩ := Exec.bind_ok.1 h
    obtain ⟨set, rfl, rfl, -⟩ := new_set_ok hnew
    have hlt := (List.getElem?_eq_some_iff.1 hparse).1
    have hnone : s.chart.toks tok = none := (htoks tok).trans htr
    set parse' : PgfParse := { parse with transitions := Function.update parse.transitions tok (some s.heap.sets.length) }
      with hparse'
    set t : PgfParsing P := { s with
      heap := { s.heap with sets := s.heap.sets ++ [set], parses := s.heap.parses.set s.parse parse' } } with ht
    have hchart : t.chart = s.chart.addToks tok := by
      obtain ⟨-, -, -, hc⟩ := new_set_ok hnew
      have hheld := congrArg Chart.held hc
      apply Chart.ext <;> try rfl
      · funext tok'
        simp only [chart, ht, List.getElem?_set_self hlt, Option.bind_some, Chart.addToks, hparse']
        simp only [Function.update_apply, hparse]
        rfl
      · simp [chart, ht, Chart.addToks]
      · exact hheld
      · simp only [chart, ht, List.getElem?_set_self hlt, Option.map_some, Option.getD_some, hparse', Chart.addToks,
          hparse]
    have hreach : ∀ {scans starts}, x ∈ s.chart.seen → Reads x tok → Reaches scans starts s t := fun hx hr =>
      new_set_reaches hnew hchart (.toks hx hr hnone) rfl rfl (fun base hp hb => prefix_set hb hp) (by simp [ht]) rfl rfl
    have hT : t.chart.toks tok = some s.heap.sets.length := by
      rw [hchart]
      simp [Chart.addToks, chart]
    obtain ⟨_, -, hc⟩ := set_insert_ok h
    exact ⟨_, ⟨t, h, hT, hreach⟩, .inr ⟨hnone, rfl, hchart ▸ hc⟩⟩

theorem add_transition_reaches {x : PgfItem} {tok : Option PgfToken} (hx : x ∈ s.chart.seen) (hr : Reads x tok)
    (h : pgf_parsing_add_transition s tok x = .ok s') : Reaches scans starts s s' := by
  obtain ⟨T, ⟨t, hi, hT, hreach⟩, -⟩ := add_transition_ok h
  have hst : Reaches scans starts s t := hreach hx hr
  exact hst.trans (set_insert_reaches hi (.file (hst.grows.seen hx) hr hT) fun m n ho => ho.toks hT)

theorem get_contss_ok {c : PgfCCatId} {l : List (Option PgfItemSetId)} (h : pgf_parsing_get_contss s c = .ok (s', l)) :
    s'.chart = s.chart ∧ s'.conts_map c = some l ∧ s'.heap = s.heap ∧ s'.parse = s.parse ∧ s'.enums = s.enums := by
  unfold pgf_parsing_get_contss at h
  cases hc : s.conts_map c with
  | some contss =>
    simp only [hc, Except.ok.injEq, Prod.mk.injEq] at h
    obtain ⟨rfl, rfl⟩ := h
    exact ⟨rfl, hc, rfl, rfl, rfl⟩
  | none =>
    simp only [hc] at h
    obtain ⟨ccat, -, h⟩ := Exec.bind_ok.1 h
    obtain ⟨n, -, h⟩ := Exec.bind_ok.1 h
    simp only [Exec.pure_eq, Except.ok.injEq, Prod.mk.injEq] at h
    obtain ⟨rfl, rfl⟩ := h
    refine ⟨?_, by simp, rfl, rfl, rfl⟩
    apply Chart.ext <;> try rfl
    -- a row of nulls says as much as no row
    funext c' r
    simp only [chart, Function.update_apply]
    split
    · rename_i he
      subst he
      simp only [hc, Option.bind_some, Option.bind_none, Option.join_none, List.getElem?_replicate]
      split <;> rfl
    · rfl

theorem Reaches.of_chart {t : PgfParsing P} (hc : t.chart = s.chart) (hh : t.heap = s.heap) (hp : t.parse = s.parse)
    (he : ∃ es, t.enums = s.enums ++ es ∧ ∀ e ∈ es, EnumRun 0 e.start e.rounds) : Reaches scans starts s t :=
  ⟨hc ▸ .refl, fun _ _ _ hb => hh ▸ hb, hp, by rw [hh], he⟩

theorem get_contss_reaches {c : PgfCCatId} {l : List (Option PgfItemSetId)}
    (h : pgf_parsing_get_contss s c = .ok (s', l)) : Reaches scans starts s s' := by
  obtain ⟨hc, -, hh, hp, he⟩ := get_contss_ok h
  exact .of_chart hc hh hp (same_enums he)

theorem get_conts_ok {c : PgfCCatId} {r : Nat} {K : PgfItemSetId} {k : Option PgfItem} {ccat : PgfCCat}
    (hw : Chart.Waits starts s.chart c r k) (hccat : s.heap.ccats[c]? = some ccat) (hnull : ccat.prods.isNull = false)
    (h : pgf_parsing_get_conts s c r = .ok (s', K)) :
    Reaches scans starts s s' ∧ s'.chart.conts c r = some K ∧ s'.heap.ccats = s.heap.ccats ∧
      (s'.chart = s.chart ∨ s.chart.conts c r = none ∧ s'.chart = s.chart.addConts c r) := by
  obtain ⟨_, -, h⟩ := Exec.bind_ok.1 h
  obtain ⟨n, -, h⟩ := Exec.bind_ok.1 h
  obtain ⟨_, -, h⟩ := Exec.bind_ok.1 h
  obtain ⟨⟨s₁, contss⟩, h₁, h⟩ := Exec.bind_ok.1 h
  obtain ⟨o, ho, h⟩ := Exec.bind_ok.1 h
  simp only [Exec.deref_ok] at ho h
  obtain ⟨hc₁, hm₁, hh₁, hp₁, he₁⟩ := get_contss_ok h₁
  have hconts : s₁.chart.conts c r = o := by simp [chart, hm₁, ho]
  have hreach : Reaches scans starts s s₁ := get_contss_reaches h₁
  cases o with
  | some K' =>
    simp only [Exec.pure_eq, Except.ok.injEq, Prod.mk.injEq] at h
    obtain ⟨rfl, rfl⟩ := h
    exact ⟨hreach, hconts, by rw [hh₁], .inl hc₁⟩
  | none =>
    obtain ⟨⟨s₂, K₂⟩, h₂, h⟩ := Exec.bind_ok.1 h
    simp only [Exec.pure_eq, Except.ok.injEq, Prod.mk.injEq] at h
    obtain ⟨hs', rfl⟩ := h
    obtain ⟨set, hK, rfl, hc₂⟩ := new_set_ok h₂
    have hr := (List.getElem?_eq_some_iff.1 ho).1
    have hchart : s'.chart = s₁.chart.addConts c r := by
      rw [← hs']
      have hheld := congrArg Chart.held hc₂
      apply Chart.ext <;> try rfl
      · funext c' r'
        simp only [chart, Chart.addConts, Function.update_apply]
        by_cases hcc : c' = c
        · subst hcc
          by_cases hrr : r' = r
          · subst hrr
            simp [List.getElem?_set_self hr, hK]
          · simp [List.getElem?_set_ne (Ne.symm hrr), hrr, hm₁]
        · simp [hcc]
      · simp [chart, Chart.addConts]
      · exact hheld
    have hstep : Chart.Step scans starts s₁.chart (s₁.chart.addConts c r) :=
      .conts (hc₁ ▸ hw) (by rw [hc₁]; exact hccat) hnull hconts
    refine ⟨hreach.trans ?_, ?_, by rw [← hs', hh₁], .inr ⟨hc₁ ▸ hconts, hc₁ ▸ hchart⟩⟩
    · exact new_set_reaches h₂ hchart hstep (by rw [← hs']) (by rw [← hs']) (fun _ _ hb => by rw [← hs']; exact hb)
        (by rw [← hs']) (by rw [← hs']) (by rw [← hs'])
    · rw [hchart]
      simp [Chart.addConts, chart, hK]

theorem see_chart {x : PgfItem} {seen : PgfItemSet P} (h : s.seen_items.gu_set_insert (some x) = .ok seen) :
    ({ s with seen_items := seen } : PgfParsing P).chart = s.chart.see x := by
  apply Chart.ext <;> try rfl
  ext y
  have hm : some y ∈ seen ↔ some y = some x ∨ some y ∈ s.seen_items := by
    rw [GuSet.mem_insert h]
    exact or_congr decide_eq_true_iff Iff.rfl
  simp only [chart, Chart.see, Set.mem_ofPred_eq, hm, Option.some.injEq, Set.mem_insert_iff]

theorem push_prod_ok {g : PgfCCatId} {p : PgfProduction} (h : push_prod s g p = .ok s') :
    ∃ ccat ps, s.heap.ccats[g]? = some ccat ∧ ccat.prods = .buf ps ∧
      s' = { s with heap := { s.heap with ccats := s.heap.ccats.set g { ccat with prods := .buf (ps ++ [p]) } } } ∧
      s'.chart = s.chart.setCCat g { ccat with prods := .buf (ps ++ [p]) } := by
  obtain ⟨ccat, hc, h⟩ := Exec.bind_ok.1 h
  rw [Exec.deref_ok] at hc
  cases hp : ccat.prods with
  | buf ps =>
    simp only [hp, Exec.pure_eq, Except.ok.injEq] at h
    subst h
    exact ⟨ccat, ps, hc, hp, rfl, rfl⟩
  | null => simp [hp] at h
  | seq ps => simp [hp] at h

theorem push_completed_ok {g : PgfCCatId} (h : push_completed s g = .ok s') :
    s'.chart = s.chart.accept g ∧ ∃ parse, s.heap.parses[s.parse]? = some parse ∧
      s' = { s with heap := { s.heap with
        parses := s.heap.parses.set s.parse { parse with completed := parse.completed ++ [g] } } } := by
  obtain ⟨parse, hp, h⟩ := Exec.bind_ok.1 h
  rw [Exec.deref_ok] at hp
  simp only [Exec.pure_eq, Except.ok.injEq] at h
  subst h
  have hlt := (List.getElem?_eq_some_iff.1 hp).1
  refine ⟨?_, parse, hp, rfl⟩
  apply Chart.ext <;> try rfl
  · funext t
    simp only [chart, Chart.accept, List.getElem?_set_self hlt, hp, Option.bind_some]
  · simp only [chart, Chart.accept, List.getElem?_set_self hlt, hp, Option.map_some, Option.getD_some]

theorem push_completed_reaches {K : PgfItemSetId} {g : PgfCCatId} (hg : s.chart.gen K = some g)
    (hk : none ∈ s.chart.held K) (h : push_completed s g = .ok s') : Reaches scans starts s s' := by
  obtain ⟨hc, parse, -, rfl⟩ := push_completed_ok h
  refine ⟨hc ▸ .single (.accept hg hk), fun base _ hp hb => ?_, rfl, by simp, same_enums rfl⟩
  exact ⟨hb.ccats, hb.sets, prefix_set hb.parses hp⟩

/-! ## What the recursive functions do -/

section Rec
variable {f : PgfParsing P → PgfItem → Exec (PgfParsing P)}

theorem item_ok {fuel : Nat} {x : PgfItem} (h : pgf_parsing_item (fuel + 1) s x = .ok s') :
    (x ∈ s.chart.seen ∧ s' = s) ∨ (x ∉ s.chart.seen ∧ ∃ t, pgf_parsing_new_item (pgf_parsing_item fuel) t x = .ok s' ∧
      t.chart = s.chart.see x ∧ t.heap = s.heap ∧ t.parse = s.parse ∧ t.enums = s.enums) := by
  unfold pgf_parsing_item at h
  obtain ⟨has, hh, h⟩ := Exec.bind_ok.1 h
  have hiff := GuSet.has_iff hh
  cases has with
  | true =>
    simp only [if_true, Exec.pure_eq, Except.ok.injEq] at h
    exact .inl ⟨hiff.1 rfl, h.symm⟩
  | false =>
    simp only [Bool.false_eq_true, if_false] at h
    obtain ⟨seen, hi, h⟩ := Exec.bind_ok.1 h
    exact .inr ⟨fun hx => Bool.false_ne_true (hiff.2 hx), _, h, see_chart hi, rfl, rfl, rfl⟩

/-- A new item is completed, predicted or filed by where it stands. -/
theorem new_item_ok {x : PgfItem} (h : pgf_parsing_new_item f s x = .ok s') :
    (Complete x ∧ pgf_parsing_complete f s x = .ok s') ∨
    (∃ c r, Awaits x c r ∧ pgf_parsing_predict f s (some x) c r = .ok s') ∨
    (¬ Complete x ∧ (∀ c r, ¬ Awaits x c r) ∧ ∃ toks, (∀ tok, Reads x tok ↔ tok ∈ toks) ∧
      forEach (fun s tok => pgf_parsing_add_transition s tok x) toks s = .ok s') := by
  unfold pgf_parsing_new_item at h
  cases hp : x.base.prod with
  | COERCE coerce =>
    simp only [hp] at h
    split at h
    · rename_i h0
      exact .inr (.inl ⟨coerce, x.base.lin_idx, by simp [Awaits, hp, h0], h⟩)
    · rename_i h1
      exact .inl ⟨by simp [Complete, hp, h1], h⟩
    · simp at h
  | APPLY g args =>
    simp only [hp] at h
    obtain ⟨seq, hseq, h⟩ := Exec.bind_ok.1 h
    rw [Exec.deref_ok] at hseq
    split at h
    · rename_i hlen
      exact .inl ⟨by simp only [Complete, hp]; exact ⟨seq, hseq, hlen⟩, h⟩
    · rename_i hlen
      obtain ⟨sym, hsym, h⟩ := Exec.bind_ok.1 h
      rw [Exec.deref_ok] at hsym
      have hread : ∀ toks, next_tokens x sym = .ok toks → ∀ tok, Reads x tok ↔ tok ∈ toks := by
        intro toks hn tok
        constructor
        · rintro ⟨g', args', seq', sym', toks', hp', hl', hs', hn', ht⟩
          rw [hp] at hp'
          cases hp'
          rw [hseq] at hl'
          cases hl'
          rw [hsym] at hs'
          cases hs'
          rw [hn] at hn'
          cases hn'
          exact ht
        · exact fun ht => ⟨g, args, seq, sym, toks, hp, hseq, hsym, hn, ht⟩
      by_cases hcat : ∃ d r, sym = .CAT d r
      · obtain ⟨d, r, rfl⟩ := hcat
        obtain ⟨parg, ha, h⟩ := Exec.bind_ok.1 h
        obtain ⟨_, hh, h⟩ := Exec.bind_ok.1 h
        rw [Exec.deref_ok] at ha
        rw [Exec.require_ok] at hh
        refine .inr (.inl ⟨parg.ccat, r, ?_, h⟩)
        simp only [Awaits, hp]
        exact ⟨seq, d, parg, hseq, hsym, ha, hh, rfl⟩
      · have hsymbol : ∃ toks, next_tokens x sym = .ok toks ∧
            forEach (fun s tok => pgf_parsing_add_transition s tok x) toks s = .ok s' := by
          cases sym with
          | CAT d r => exact absurd ⟨d, r, rfl⟩ hcat
          | LIT d r => exact Exec.bind_ok.1 h
          | VAR d r => exact Exec.bind_ok.1 h
          | KS tokens => exact Exec.bind_ok.1 h
          | KP dflt alts => exact Exec.bind_ok.1 h
        obtain ⟨toks, hn, hloop⟩ := hsymbol
        refine .inr (.inr ⟨?_, fun c r hw => ?_, toks, hread toks hn, hloop⟩)
        · simp only [Complete, hp]
          rintro ⟨seq', hl', he⟩
          rw [hseq] at hl'
          cases hl'
          exact hlen he
        · simp only [Awaits, hp] at hw
          obtain ⟨seq', d, parg, hl', hs', -⟩ := hw
          rw [hseq] at hl'
          cases hl'
          rw [hsym] at hs'
          cases hs'
          exact hcat ⟨d, r, rfl⟩

theorem predict_ok {k : Option PgfItem} {c : PgfCCatId} {r : Nat} (h : pgf_parsing_predict f s k c r = .ok s') :
    ∃ ccat, s.heap.ccats[c]? = some ccat ∧ ((ccat.prods.isNull = true ∧ s' = s) ∨
      (ccat.prods.isNull = false ∧ ∃ s₁ K s₃, pgf_parsing_get_conts s c r = .ok (s₁, K) ∧
        ((k ∈ s₁.chart.held K ∧ s₃ = s₁) ∨ (∃ s₂, k ∉ s₁.chart.held K ∧ set_insert s₁ K k = .ok s₂ ∧
          forEach (fun s p => pgf_parsing_production f s c r p K) ccat.prods.elems s₂ = .ok s₃)) ∧
        ((∃ g, s₃.chart.gen K = some g ∧ pgf_parsing_combine f s₃ k g = .ok s') ∨
          (s₃.chart.gen K = none ∧ s' = s₃)))) := by
  obtain ⟨ccat, hc, h⟩ := Exec.bind_ok.1 h
  rw [Exec.deref_ok] at hc
  refine ⟨ccat, hc, ?_⟩
  split at h
  · rename_i hnull
    simp only [Exec.pure_eq, Except.ok.injEq] at h
    exact .inl ⟨hnull, h.symm⟩
  · rename_i hnull
    obtain ⟨⟨s₁, K⟩, h₁, h⟩ := Exec.bind_ok.1 h
    obtain ⟨set, hset, h⟩ := Exec.bind_ok.1 h
    obtain ⟨has, hh, h⟩ := Exec.bind_ok.1 h
    rw [Exec.deref_ok] at hset
    have hiff : has = true ↔ k ∈ s₁.chart.held K := by
      refine (GuSet.has_iff hh).trans ⟨fun hm => ⟨set, hset, hm⟩, ?_⟩
      rintro ⟨set', hset', hm⟩
      rw [hset] at hset'
      cases hset'
      exact hm
    -- the end of both branches
    have finish : ∀ {s₃ : PgfParsing P} {r : Exec (PgfParsing P)}, r = .ok s' →
        (∀ g, pgf_parsing_get_completed s₃ K = some g → r = pgf_parsing_combine f s₃ k g) →
        (pgf_parsing_get_completed s₃ K = none → r = .ok s₃) →
        (∃ g, s₃.chart.gen K = some g ∧ pgf_parsing_combine f s₃ k g = .ok s') ∨
          (s₃.chart.gen K = none ∧ s' = s₃) := by
      intro s₃ r h hsome hnone
      have hgen : s₃.chart.gen K = pgf_parsing_get_completed s₃ K := rfl
      rw [hgen]
      cases hg : pgf_parsing_get_completed s₃ K with
      | some g => exact .inl ⟨g, rfl, (hsome g hg).symm.trans h⟩
      | none =>
        rw [hnone hg, Except.ok.injEq] at h
        exact .inr ⟨rfl, h.symm⟩
    refine .inr ⟨by simpa using hnull, s₁, K, ?_⟩
    cases has with
    | true =>
      refine ⟨s₁, h₁, .inl ⟨hiff.1 rfl, rfl⟩, finish h (fun g hg => ?_) fun hg => ?_⟩
      · simp [hg]
      · simp [hg]
    | false =>
      obtain ⟨s₂, h₂, h⟩ := Exec.bind_ok.1 h
      obtain ⟨s₃, h₃, h⟩ := Exec.bind_ok.1 h
      refine ⟨s₃, h₁, .inr ⟨s₂, fun hm => Bool.false_ne_true (hiff.2 hm), h₂, h₃⟩, finish h (fun g hg => ?_) fun hg => ?_⟩
      · simp only [hg]
      · simp only [hg]
        rfl

theorem repredict_ok {g : PgfCCatId} {p : PgfProduction} {i : Nat} (h : repredict f g p s i = .ok s') :
    (∃ K, s.chart.conts g i = some K ∧ pgf_parsing_production f s g i p K = .ok s') ∨
      (s.chart.conts g i = none ∧ s' = s) := by
  unfold repredict at h
  have hc : s.chart.conts g i = ((s.conts_map g).bind (·[i]?)).join := rfl
  rw [hc]
  generalize (s.conts_map g).bind (·[i]?) = o at h ⊢
  match o with
  | none => exact .inr ⟨rfl, (Except.ok.inj h).symm⟩
  | some none => exact .inr ⟨rfl, (Except.ok.inj h).symm⟩
  | some (some K) => exact .inl ⟨K, rfl, h⟩

theorem complete_ok {x : PgfItem} (h : pgf_parsing_complete f s x = .ok s') :
    ∃ p, completed_prod x = .ok p ∧
      ((∃ g s₁ s₂ l, s.chart.gen x.base.conts = some g ∧ push_prod s g p = .ok s₁ ∧
          pgf_parsing_get_contss s₁ g = .ok (s₂, l) ∧ forEach (repredict f g p) (List.range l.length) s₂ = .ok s') ∨
        (s.chart.gen x.base.conts = none ∧ ∃ ccat s₁ start, s.heap.ccats[x.base.ccat]? = some ccat ∧
          push_prod (pgf_parsing_create_completed s x.base.conts ccat.cnccat).1 s.heap.ccats.length p = .ok s₁ ∧
          s₁.heap.sets[x.base.conts]? = some start ∧
          pgf_parsing_complete_loop f x.base.conts s.heap.ccats.length start sizeMod 0 [] s₁ = .ok s')) := by
  obtain ⟨p, hp, h⟩ := Exec.bind_ok.1 h
  refine ⟨p, hp, ?_⟩
  have hgen : s.chart.gen x.base.conts = pgf_parsing_get_completed s x.base.conts := rfl
  rw [hgen]
  cases hg : pgf_parsing_get_completed s x.base.conts with
  | some g =>
    simp only [hg] at h
    obtain ⟨s₁, h₁, h⟩ := Exec.bind_ok.1 h
    obtain ⟨⟨s₂, l⟩, h₂, h⟩ := Exec.bind_ok.1 h
    exact .inl ⟨g, s₁, s₂, l, rfl, h₁, h₂, h⟩
  | none =>
    simp only [hg] at h
    obtain ⟨ccat, hc, h⟩ := Exec.bind_ok.1 h
    obtain ⟨s₁, h₁, h⟩ := Exec.bind_ok.1 h
    obtain ⟨start, hst, h⟩ := Exec.bind_ok.1 h
    rw [Exec.deref_ok] at hc hst
    exact .inr ⟨rfl, ccat, s₁, start, hc, h₁, hst, h⟩

theorem production_ok {c : PgfCCatId} {r : Nat} {p : PgfProduction} {K : PgfItemSetId}
    (h : pgf_parsing_production f s c r p K = .ok s') :
    ∃ x, pgf_new_item ⟨K, c, p, r⟩ = .ok x ∧ f s x = .ok s' := Exec.bind_ok.1 h

theorem combine_ok {k : Option PgfItem} {g : PgfCCatId} (h : pgf_parsing_combine f s k g = .ok s') :
    (k = none ∧ push_completed s g = .ok s') ∨ ∃ y x, k = some y ∧ combined y g = .ok x ∧ f s x = .ok s' := by
  cases k with
  | none => exact .inl ⟨rfl, h⟩
  | some y =>
    obtain ⟨x, hx, h⟩ := Exec.bind_ok.1 h
    exact .inr ⟨y, x, rfl, hx, h⟩

/-! ## The recursive functions make chart steps -/

section Reaches
variable (hf : ∀ {s x s'}, Chart.Justified scans s.chart x → f s x = .ok s' → Reaches scans starts s s')
include hf

theorem production_reaches {c : PgfCCatId} {r : Nat} {p : PgfProduction} {K : PgfItemSetId}
    (hc : s.chart.conts c r = some K) (hp : s.chart.Prod c p) (h : pgf_parsing_production f s c r p K = .ok s') :
    Reaches scans starts s s' := by
  obtain ⟨x, hx, h⟩ := production_ok h
  exact hf (.predicted hc hp hx) h

theorem combine_reaches {K : PgfItemSetId} {k : Option PgfItem} {g : PgfCCatId} (hg : s.chart.gen K = some g)
    (hk : k ∈ s.chart.held K) (h : pgf_parsing_combine f s k g = .ok s') : Reaches scans starts s s' := by
  obtain ⟨rfl, h⟩ | ⟨y, x, rfl, hx, h⟩ := combine_ok h
  · exact push_completed_reaches hg hk h
  · exact hf (.combined hg hk hx) h

theorem complete_loop_reaches {K : PgfItemSetId} {g : PgfCCatId} {start : PgfItemSet P} :
    ∀ {n cursor : Nat} {rounds : List (EnumRound P)} {s : PgfParsing P}, s.chart.gen K = some g →
      (∀ set rs, s.heap.sets[K]? = some set → EnumRun cursor set rs → EnumRun 0 start (rounds ++ rs)) →
      pgf_parsing_complete_loop f K g start n cursor rounds s = .ok s' → Reaches scans starts s s' := by
  intro n
  induction n with
  | zero => intro cursor rounds s _ _ h; simp [pgf_parsing_complete_loop] at h
  | succ n ih =>
    intro cursor rounds s hg hrun h
    unfold pgf_parsing_complete_loop at h
    obtain ⟨before, hb, h⟩ := Exec.bind_ok.1 h
    rw [Exec.deref_ok] at hb
    cases hn : before.next cursor with
    | none =>
      simp only [hn, Exec.pure_eq, Except.ok.injEq] at h
      subst h
      refine .of_chart rfl rfl rfl ⟨_, rfl, fun e he => ?_⟩
      rw [List.mem_singleton] at he
      have := hrun before [] hb hn
      rw [List.append_nil] at this
      exact he ▸ this
    | some kc =>
      obtain ⟨k, cursor'⟩ := kc
      simp only [hn] at h
      obtain ⟨s₁, h₁, h⟩ := Exec.bind_ok.1 h
      obtain ⟨after, ha, h⟩ := Exec.bind_ok.1 h
      rw [Exec.deref_ok] at ha
      have hr := combine_reaches hf hg ⟨before, hb, (GuSet.next_some hn).2.1⟩ h₁
      refine hr.trans (ih (hr.grows.gen hg) (fun set rs hset hrs => ?_) h)
      rw [ha] at hset
      cases hset
      rw [List.append_assoc, List.singleton_append]
      exact hrun before _ hb ⟨rfl, hn, hrs⟩

theorem predict_reaches {k : Option PgfItem} {c : PgfCCatId} {r : Nat} (hw : Chart.Waits starts s.chart c r k)
    (h : pgf_parsing_predict f s k c r = .ok s') : Reaches scans starts s s' := by
  obtain ⟨ccat, hccat, ⟨-, rfl⟩ | ⟨hnull, s₁, K, s₃, h₁, h₃, h⟩⟩ := predict_ok h
  · exact .refl s'
  obtain ⟨(hr₁ : Reaches scans starts s s₁), hK, -, -⟩ := get_conts_ok hw hccat hnull h₁
  have hheld : Reaches scans starts s s₃ ∧ k ∈ s₃.chart.held K := by
    obtain ⟨hk, rfl⟩ | ⟨s₂, -, h₂, h₃⟩ := h₃
    · exact ⟨hr₁, hk⟩
    · have hr₂ : Reaches scans starts s₁ s₂ :=
        set_insert_reaches h₂ (.hold (hr₁.grows.waits hw) hK) fun m n ho => ho.conts hK
      have hk : k ∈ s₂.chart.held K := by
        obtain ⟨_, -, hc⟩ := set_insert_ok h₂
        rw [hc]
        simp [Chart.hold]
      have hr₃ : Reaches scans starts s₂ s₃ := by
        refine forEach_inv (P := Reaches scans starts s₂) (fun p hp t t' ht h => ht.trans ?_) (.refl s₂) h₃
        have hprod : s.chart.Prod c p := ⟨ccat, hccat, hp⟩
        exact production_reaches hf (ht.grows.conts (hr₂.grows.conts hK)) ((hr₁.trans (hr₂.trans ht)).grows.prod hprod) h
      exact ⟨hr₁.trans (hr₂.trans hr₃), hr₃.grows.held _ hk⟩
  obtain ⟨hr, hk⟩ := hheld
  obtain ⟨g, hg, h⟩ | ⟨-, rfl⟩ := h
  · exact hr.trans (combine_reaches hf hg hk h)
  · exact hr

/-- `s` is the state after `x` is marked as seen in `t`. -/
theorem complete_reaches {t : PgfParsing P} {x : PgfItem} (hj : Chart.Justified scans t.chart x) (hx : x ∉ t.chart.seen)
    (hc : Complete x) (hs : s.chart = t.chart.see x) (hh : s.heap = t.heap) (hp : s.parse = t.parse)
    (he : s.enums = t.enums) (h : pgf_parsing_complete f s x = .ok s') : Reaches scans starts t s' := by
  have hgen : s.chart.gen = t.chart.gen := by rw [hs]; rfl
  have hccats : s.heap.ccats = t.chart.ccats := congrArg Heap.ccats hh
  obtain ⟨p, hprod, ⟨g, s₁, s₂, l, hg, h₁, h₂, h⟩ | ⟨hg, ccat, s₁, start, hccat, h₁, hst, h⟩⟩ := complete_ok h
  · obtain ⟨ccat, ps, hcc, hps, hs₁, hchart⟩ := push_prod_ok h₁
    rw [hgen] at hg
    have hr₁ : Reaches scans starts t s₁ := by
      refine ⟨?_, fun base ho _ hb => ?_, by rw [hs₁]; exact hp, by rw [hs₁, ← hh], same_enums (by rw [hs₁, ← he])⟩
      · rw [hchart, hs]
        exact .single (.complete_old hj hx hc hprod hg (hccats ▸ hcc) hps)
      · rw [hs₁]
        rw [← hh] at hb
        exact ⟨prefix_set hb.ccats (ho.gen hg), hb.sets, hb.parses⟩
    have hp₁ : s₁.chart.Prod g p := by
      have hlt := (List.getElem?_eq_some_iff.1 hcc).1
      refine ⟨{ ccat with prods := .buf (ps ++ [p]) }, ?_, by simp [PgfProductions.elems]⟩
      rw [hs₁]
      exact List.getElem?_set_self hlt
    have hr₂ : Reaches scans starts s₁ s₂ := get_contss_reaches h₂
    refine hr₁.trans (hr₂.trans (forEach_inv (P := Reaches scans starts s₂) (fun i _ u u' hu h => ?_) (.refl s₂) h))
    obtain ⟨K, hK, h⟩ | ⟨-, rfl⟩ := repredict_ok h
    · exact hu.trans (production_reaches hf hK (hu.grows.prod (hr₂.grows.prod hp₁)) h)
    · exact hu
  · obtain ⟨ccat', ps, hcc', hps, hs₁, hchart⟩ := push_prod_ok h₁
    rw [hgen] at hg
    -- the category pushed to is the new one
    have hnew : ccat' = ⟨ccat.cnccat, .buf [], s.heap.next_fid - 1⟩ := by
      simpa [pgf_parsing_create_completed] using hcc'.symm
    subst hnew
    cases hps
    have hchart' : s₁.chart = (t.chart.see x).addGen x.base.conts ⟨ccat.cnccat, .buf [p], s.heap.next_fid - 1⟩ := by
      rw [hchart, ← hs]
      apply Chart.ext <;> try rfl
      simp only [chart, Chart.addGen, Chart.setCCat, pgf_parsing_create_completed]
      rw [List.set_append_right _ _ (Nat.le_refl _), Nat.sub_self]
      rfl
    have hr₁ : Reaches scans starts t s₁ := by
      refine ⟨?_, fun base ho _ hb => ?_, by rw [hs₁]; exact hp, by rw [hs₁, ← hh]; rfl,
        same_enums (by rw [hs₁, ← he]; rfl)⟩
      · rw [hchart']
        exact .single (.complete_new hj hx hc hprod hg (hccats ▸ hccat))
      · rw [hs₁]
        rw [← hh] at hb
        have hle : base.ccats <+: s.heap.ccats ++ [⟨ccat.cnccat, .buf [], s.heap.next_fid - 1⟩] :=
          hb.ccats.trans (List.prefix_append _ _)
        exact ⟨prefix_set hle hb.ccats.length_le, hb.sets, hb.parses⟩
    refine hr₁.trans (complete_loop_reaches hf ?_ (fun set rs hset hrs => ?_) h)
    · rw [hchart']
      simp [Chart.addGen, Chart.see, hccats]
    · rw [hst] at hset
      cases hset
      exact hrs

end Reaches

end Rec

theorem item_reaches : ∀ {fuel : Nat} {s s' : PgfParsing P} {x : PgfItem}, Chart.Justified scans s.chart x →
    pgf_parsing_item fuel s x = .ok s' → Reaches scans starts s s' := by
  intro fuel
  induction fuel with
  | zero => intro s s' x _ h; simp [pgf_parsing_item] at h
  | succ fuel ih =>
    intro s s' x hj h
    obtain ⟨-, rfl⟩ | ⟨hx, t, h, hc, hh, hp, he⟩ := item_ok h
    · exact .refl s'
    have hseen : x ∈ t.chart.seen := hc ▸ Set.mem_insert _ _
    have hr : ¬ Complete x → Reaches scans starts s t := fun hn =>
      ⟨hc ▸ .single (.see hj hx hn), fun _ _ _ hb => hh ▸ hb, hp, by rw [hh], same_enums he⟩
    obtain ⟨hcomp, h⟩ | ⟨c, r, hw, h⟩ | ⟨hn, -, toks, hreads, h⟩ := new_item_ok h
    · exact complete_reaches ih hj hx hcomp hc hh hp he h
    · exact (hr hw.not_complete).trans (predict_reaches (k := some x) ih ⟨hseen, hw⟩ h)
    · refine (hr hn).trans (forEach_inv (P := Reaches scans starts t) (fun tok htok u u' hu h => ?_) (.refl t) h)
      exact hu.trans (add_transition_reaches (hu.grows.seen hseen) ((hreads tok).2 htok) h)

end PgfParsing

end Libpgf
