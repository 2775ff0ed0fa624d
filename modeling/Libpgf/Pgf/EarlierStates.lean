import Libpgf.Pgf.Items
import Libpgf.Pgf.Session
/-!
# Earlier parse states

Everything that the results and the continuations of a parse state depend on
stays as it was, whatever calls are made later on the same parser.

The objects that a parse state can reach all exist when it is made, and calls
change only objects of their own.
-/

namespace Libpgf

variable {P : PgfParser}

/-! ## No dangling pointers -/

/-- An item names sets and categories among the first `m` and `n`. -/
structure PgfItem.Valid (m n : Nat) (x : PgfItem) : Prop where
  conts : x.base.conts < m
  ccat : x.base.ccat < n
  prod : ∀ c ∈ x.base.prod.ccats, c < n
  args : ∀ a ∈ x.args, ∀ c ∈ a.ccats, c < n

namespace PgfItem.Valid
variable {m m' n n' : Nat} {x y k : PgfItem}

theorem mono (h : x.Valid m n) (hm : m ≤ m') (hn : n ≤ n') : x.Valid m' n' where
  conts := Nat.lt_of_lt_of_le h.conts hm
  ccat := Nat.lt_of_lt_of_le h.ccat hn
  prod c hc := Nat.lt_of_lt_of_le (h.prod c hc) hn
  args a ha c hc := Nat.lt_of_lt_of_le (h.args a ha c hc) hn

theorem of_same (h : x.Valid m n) (hb : y.base = x.base) (ha : y.args = x.args) : y.Valid m n where
  conts := hb ▸ h.conts
  ccat := hb ▸ h.ccat
  prod := hb ▸ h.prod
  args := ha ▸ h.args

theorem new {K : PgfItemSetId} {c : PgfCCatId} {p : PgfProduction} {r : Nat} (hx : pgf_new_item ⟨K, c, p, r⟩ = .ok x)
    (hK : K < m) (hc : c < n) (hp : ∀ c ∈ p.ccats, c < n) : x.Valid m n := by
  obtain ⟨-, hb, ha, -⟩ := pgf_new_item_ok hx
  refine ⟨by rw [hb]; exact hK, by rw [hb]; exact hc, by rw [hb]; exact hp, ?_⟩
  rw [ha]
  cases p with
  | APPLY f args => exact fun a hm c hc => hp c (List.mem_flatMap.2 ⟨a, hm, hc⟩)
  | COERCE coerce => simpa [prod_args, PgfPArg.ccats, PgfProduction.ccats] using hp

theorem combined (h : k.Valid m n) {g : PgfCCatId} (hg : g < n) (hx : combined k g = .ok x) : x.Valid m n := by
  obtain ⟨-, hb, -, -, -, d, r, -, -, ha⟩ := combined_ok hx
  refine ⟨by rw [hb]; exact h.conts, by rw [hb]; exact h.ccat, by rw [hb]; exact h.prod, fun a hm c hc => ?_⟩
  rw [ha] at hm
  rcases List.mem_or_eq_of_mem_set hm with hm | rfl
  · exact h.args a hm c hc
  · simp only [PgfPArg.ccats, List.mem_singleton] at hc
    exact hc ▸ hg

theorem completed_prod (h : x.Valid m n) {p : PgfProduction} (hp : completed_prod x = .ok p) : ∀ c ∈ p.ccats, c < n := by
  unfold Libpgf.completed_prod at hp
  split at hp
  · simp only [Except.ok.injEq] at hp
    subst hp
    intro c hc
    obtain ⟨a, ha, hc⟩ := List.mem_flatMap.1 hc
    exact h.args a ha c hc
  · obtain ⟨a, ha, hp⟩ := Exec.bind_ok.1 hp
    obtain ⟨_, -, hp⟩ := Exec.bind_ok.1 hp
    simp only [Exec.deref_ok, Exec.pure_eq, Except.ok.injEq] at ha hp
    subst hp
    intro c hc
    rw [PgfProduction.ccats, List.mem_singleton] at hc
    exact hc ▸ h.args a (List.mem_of_getElem? ha) _ (List.mem_cons_self ..)

end PgfItem.Valid

namespace Chart
variable {scans : PgfItem → Prop} {starts : PgfCCatId → Nat → Prop} {C C' : Chart}

structure Valid (C : Chart) : Prop where
  seen : ∀ x ∈ C.seen, x.Valid C.nsets C.ccats.length
  held : ∀ K x, some x ∈ C.held K → x.Valid C.nsets C.ccats.length
  prods : ∀ ccat ∈ C.ccats, ∀ p ∈ ccat.prods.elems, ∀ c ∈ p.ccats, c < C.ccats.length
  completed : ∀ c ∈ C.completed, c < C.ccats.length

theorem Valid.justified (h : Valid C) (hw : Wf starts C) (hs : ∀ x, scans x → x.Valid C.nsets C.ccats.length) {x : PgfItem}
    (hj : Justified scans C x) : x.Valid C.nsets C.ccats.length := by
  cases hj with
  | scanned hx => exact hs x hx
  | predicted hc hp hx =>
    obtain ⟨ccat, hcc, hp⟩ := hp
    exact .new hx (hw.conts_lt hc).1 (hw.conts_lt hc).2 (h.prods ccat (List.mem_of_getElem? hcc) _ hp)
  | combined hg hk hx => exact (h.held _ _ hk).combined (hw.gen_lt hg) hx

theorem Valid.see (h : Valid C) {x : PgfItem} (hx : x.Valid C.nsets C.ccats.length) : Valid (C.see x) :=
  { h with
    seen := fun y hy => by
      rcases hy with rfl | hy
      · exact hx
      · exact h.seen y hy }

theorem Valid.hold (h : Valid C) {K : PgfItemSetId} {k : Option PgfItem} (hk : ∀ x ∈ k, x.Valid C.nsets C.ccats.length) :
    Valid (C.hold K k) :=
  { h with
    held := fun K' x hx => by
      simp only [Chart.hold] at hx
      split at hx
      · rcases hx with hx | hx
        · exact hk x hx.symm
        · exact h.held _ x hx
      · exact h.held _ x hx }

theorem Valid.more_sets (h : Valid C) {D : Chart} (hs : D.seen = C.seen) (hh : D.held = C.held) (hc : D.ccats = C.ccats)
    (hn : C.nsets ≤ D.nsets) (hd : D.completed = C.completed) : Valid D where
  seen x hx := (h.seen x (hs ▸ hx)).mono hn (by rw [hc])
  held K x hx := (h.held K x (hh ▸ hx)).mono hn (by rw [hc])
  prods := hc ▸ h.prods
  completed := by rw [hd, hc]; exact h.completed

theorem Valid.step (h : Valid C) (hw : Wf starts C) (hsc : ∀ x, scans x → x.Valid C.nsets C.ccats.length)
    (hs : Step scans starts C C') : Valid C' := by
  cases hs with
  | see hj _ _ => exact h.see (h.justified hw hsc hj)
  | @complete_new x p ccat fid hj _ _ hp _ _ =>
    have hx := h.justified hw hsc hj
    have hlt : ∀ c, c < C.ccats.length → c < (C.ccats ++ [(⟨ccat.cnccat, .buf [p], fid⟩ : PgfCCat)]).length :=
      fun c hc => by rw [List.length_append]; exact Nat.lt_add_right _ hc
    have hle : C.ccats.length ≤ (C.ccats ++ [(⟨ccat.cnccat, .buf [p], fid⟩ : PgfCCat)]).length := by simp
    refine ⟨fun y hy => ((h.see hx).seen y hy).mono (Nat.le_refl _) hle, fun K y hy => (h.held K y hy).mono (Nat.le_refl _) hle,
      fun cc hcc q hq c hc => ?_, fun c hc => hlt c (h.completed c hc)⟩
    rcases List.mem_append.1 hcc with hcc | hcc
    · exact hlt c (h.prods cc hcc q hq c hc)
    · rw [List.mem_singleton] at hcc
      subst hcc
      simp only [PgfProductions.elems, List.mem_singleton] at hq
      subst hq
      exact hlt c (hx.completed_prod hp c hc)
  | @complete_old x p g ccat ps hj _ _ hp _ hcc hps =>
    have hx := h.justified hw hsc hj
    have hlen : ∀ cc : PgfCCat, (C.ccats.set g cc).length = C.ccats.length := fun cc => List.length_set
    refine ⟨?_, ?_, ?_, ?_⟩ <;> simp only [setCCat, Chart.see, hlen]
    · exact (h.see hx).seen
    · exact h.held
    · intro cc hm q hq c hc
      rcases List.mem_or_eq_of_mem_set hm with hm | rfl
      · exact h.prods cc hm q hq c hc
      · simp only [PgfProductions.elems, List.mem_append, List.mem_singleton] at hq
        rcases hq with hq | rfl
        · exact h.prods ccat (List.mem_of_getElem? hcc) q (by rw [hps]; exact hq) c hc
        · exact hx.completed_prod hp c hc
    · exact h.completed
  | conts _ _ _ _ => exact h.more_sets rfl rfl rfl (Nat.le_succ _) rfl
  | @hold c r k K hw _ =>
    refine h.hold fun x hx => ?_
    rw [Option.mem_def] at hx
    subst hx
    exact h.seen x hw.1
  | toks _ _ _ => exact h.more_sets rfl rfl rfl (Nat.le_succ _) rfl
  | file hx _ _ =>
    refine h.hold fun y hy => ?_
    rw [Option.mem_def, Option.some.injEq] at hy
    exact hy ▸ h.seen _ hx
  | @accept K g hg _ =>
    refine { h with completed := fun c hc => ?_ }
    rcases List.mem_append.1 hc with hc | hc
    · exact h.completed c hc
    · rw [List.mem_singleton] at hc
      subst hc
      exact hw.gen_lt hg

theorem Valid.steps (h : Valid C) (hw : Wf starts C) (hsc : ∀ x, scans x → x.Valid C.nsets C.ccats.length)
    (hs : Steps scans starts C C') : Valid C' := by
  have := hs.inv (I := fun D => Valid D ∧ Wf starts D ∧ Grows C D) (fun ⟨hv, hw', hg⟩ hs =>
    ⟨hv.step hw' (fun x hx => (hsc x hx).mono hg.nsets hg.ncats) hs, hw'.step hs, hg.trans hs.grows⟩) ⟨h, hw, .refl C⟩
  exact this.1

end Chart

/-- All pointers in memory point to something. -/
structure Heap.Valid (h : Heap P) : Prop where
  items : ∀ K x, h.Held K (some x) → x.Valid h.sets.length h.ccats.length
  prods : ∀ ccat ∈ h.ccats, ∀ p ∈ ccat.prods.elems, ∀ c ∈ p.ccats, c < h.ccats.length
  transitions : ∀ parse ∈ h.parses, ∀ t T, parse.transitions t = some T → T < h.sets.length
  completed : ∀ parse ∈ h.parses, ∀ c ∈ parse.completed, c < h.ccats.length

theorem newHeap_valid (P : PgfParser) : (newHeap P).Valid where
  items := by rintro K x ⟨set, hs, -⟩; simp [newHeap] at hs
  prods := P.concr.prods_valid
  transitions := by simp [newHeap]
  completed := by simp [newHeap]

theorem Heap.Valid.scans {h : Heap P} (hv : h.Valid) {o : Origin} {x : PgfItem} (hx : o.Scans h x) :
    x.Valid h.sets.length h.ccats.length := by
  cases o with
  | parse cat lin_idx => exact hx.elim
  | token p tok =>
    obtain ⟨T, y, forms, alt, toks, -, hy, -, -, hs⟩ := hx
    obtain ⟨hb, ha⟩ := scanned_base hs
    exact (hv.items T y hy).of_same hb ha

theorem Heap.Valid.called {h : Heap P} (hv : h.Valid) {o : Origin} {s : PgfParsing P} (hs : Called h o s) : s.heap.Valid := by
  have hv₀ : h.chart.Valid := ⟨by simp [Heap.chart], hv.items, hv.prods, by simp [Heap.chart]⟩
  have hvs := hv₀.steps (h.chart_wf _) (fun x hx => hv.scans hx) hs.steps
  have hws := (h.chart_wf (o.Starts P)).steps hs.steps
  -- a parse state is an old one or the new one
  have hparses : ∀ parse ∈ s.heap.parses, parse ∈ h.parses ∨ s.heap.parses[s.parse]? = some parse := by
    intro parse hp
    obtain ⟨i, hi⟩ := List.getElem?_of_mem hp
    have hlt := (List.getElem?_eq_some_iff.1 hi).1
    by_cases hih : i < h.parses.length
    · exact .inl (List.mem_of_getElem? ((prefix_getElem? hs.le.parses hih).trans hi))
    · have : i = s.parse := by rw [hs.parse]; have := hs.nparses; omega
      exact .inr (this ▸ hi)
  refine ⟨fun K x hx => hvs.held K x hx, hvs.prods, fun parse hp t T hT => ?_, fun parse hp c hc => ?_⟩
  · rcases hparses parse hp with hp | hp
    · exact Nat.lt_of_lt_of_le (hv.transitions parse hp t T hT) hs.le.sets.length_le
    · exact hws.toks_lt (t := t) (by simp only [PgfParsing.chart, hp, Option.bind_some]; exact hT)
  · rcases hparses parse hp with hp | hp
    · exact Nat.lt_of_lt_of_le (hv.completed parse hp c hc) hs.le.ccats.length_le
    · exact hvs.completed c (by simp only [PgfParsing.chart, hp, Option.map_some, Option.getD_some]; exact hc)

theorem Session.valid {l : List (Call P)} (hl : Session P l) : (heapAfter l).Valid :=
  hl.inv (newHeap_valid P) fun hv hs => hv.called hs

/-! ## What a parse state depends on -/

inductive Obj where
  | set (K : PgfItemSetId)
  | ccat (c : PgfCCatId)

/-- The objects that the results and the continuations of parse state `p` are
made of: the item sets of its transition table, its completed categories, and
all that their items and productions point to. -/
inductive Heap.Reach (h : Heap P) (p : Nat) : Obj → Prop
  | transition {parse t T} : h.parses[p]? = some parse → parse.transitions t = some T → Reach h p (.set T)
  | completed {parse c} : h.parses[p]? = some parse → c ∈ parse.completed → Reach h p (.ccat c)
  | item_conts {K x} : Reach h p (.set K) → h.Held K (some x) → Reach h p (.set x.base.conts)
  | item_ccat {K x} : Reach h p (.set K) → h.Held K (some x) → Reach h p (.ccat x.base.ccat)
  | item_prod {K x c} : Reach h p (.set K) → h.Held K (some x) → c ∈ x.base.prod.ccats → Reach h p (.ccat c)
  | item_arg {K x a c} : Reach h p (.set K) → h.Held K (some x) → a ∈ x.args → c ∈ PgfPArg.ccats a → Reach h p (.ccat c)
  | prod {c ccat q c'} : Reach h p (.ccat c) → h.ccats[c]? = some ccat → q ∈ ccat.prods.elems → c' ∈ q.ccats →
      Reach h p (.ccat c')

/-- The object is in memory. -/
def Heap.Has (h : Heap P) : Obj → Prop
  | .set K => K < h.sets.length
  | .ccat c => c < h.ccats.length

/-- The object is in both memories, and the same. -/
def Heap.Same (h h' : Heap P) : Obj → Prop
  | .set K => ∃ set, h.sets[K]? = some set ∧ h'.sets[K]? = some set
  | .ccat c => ∃ ccat, h.ccats[c]? = some ccat ∧ h'.ccats[c]? = some ccat

theorem Heap.Valid.has {h : Heap P} (hv : h.Valid) {p : Nat} {o : Obj} (ho : h.Reach p o) : h.Has o := by
  induction ho with
  | transition hp ht => exact hv.transitions _ (List.mem_of_getElem? hp) _ _ ht
  | completed hp hc => exact hv.completed _ (List.mem_of_getElem? hp) _ hc
  | item_conts _ hx => exact (hv.items _ _ hx).conts
  | item_ccat _ hx => exact (hv.items _ _ hx).ccat
  | item_prod _ hx hc => exact (hv.items _ _ hx).prod _ hc
  | item_arg _ hx ha hc => exact (hv.items _ _ hx).args _ ha _ hc
  | prod _ hc hq hc' => exact hv.prods _ (List.mem_of_getElem? hc) _ hq _ hc'

section Le
variable {h h' : Heap P} (hle : h.Le h')
include hle

theorem Heap.Has.same {o : Obj} (ho : h.Has o) : h.Same h' o := by
  cases o with
  | set K => exact ⟨h.sets[K], List.getElem?_eq_getElem ho, prefix_getElem? hle.sets ho ▸ List.getElem?_eq_getElem ho⟩
  | ccat c => exact ⟨h.ccats[c], List.getElem?_eq_getElem ho, prefix_getElem? hle.ccats ho ▸ List.getElem?_eq_getElem ho⟩

theorem held_iff {K : PgfItemSetId} (hK : K < h.sets.length) {k : Option PgfItem} : h'.Held K k ↔ h.Held K k := by
  simp only [Heap.Held, prefix_getElem? hle.sets hK]

/-- The later memory has no new ways to reach an object. -/
theorem reach_iff (hv : h.Valid) {p : Nat} (hp : p < h.parses.length) {o : Obj} : h'.Reach p o ↔ h.Reach p o := by
  have hparse := prefix_getElem? hle.parses hp
  constructor
  · intro ho
    induction ho with
    | transition hp ht => exact .transition (hparse ▸ hp) ht
    | completed hp hc => exact .completed (hparse ▸ hp) hc
    | item_conts _ hx ih => exact .item_conts ih ((held_iff hle (hv.has ih)).1 hx)
    | item_ccat _ hx ih => exact .item_ccat ih ((held_iff hle (hv.has ih)).1 hx)
    | item_prod _ hx hc ih => exact .item_prod ih ((held_iff hle (hv.has ih)).1 hx) hc
    | item_arg _ hx ha hc ih => exact .item_arg ih ((held_iff hle (hv.has ih)).1 hx) ha hc
    | prod _ hc hq hc' ih => exact .prod ih ((prefix_getElem? hle.ccats (hv.has ih)).trans hc) hq hc'
  · intro ho
    induction ho with
    | transition hp ht => exact .transition (hparse ▸ hp) ht
    | completed hp hc => exact .completed (hparse ▸ hp) hc
    | item_conts hr hx ih => exact .item_conts ih ((held_iff hle (hv.has hr)).2 hx)
    | item_ccat hr hx ih => exact .item_ccat ih ((held_iff hle (hv.has hr)).2 hx)
    | item_prod hr hx hc ih => exact .item_prod ih ((held_iff hle (hv.has hr)).2 hx) hc
    | item_arg hr hx ha hc ih => exact .item_arg ih ((held_iff hle (hv.has hr)).2 hx) ha hc
    | prod hr hc hq hc' ih => exact .prod ih ((prefix_getElem? hle.ccats (hv.has hr)).symm.trans hc) hq hc'

end Le

/-- Whatever calls are made after parse state `p` exists, in whatever order and
on whatever states, `p` and every object it depends on stay as they were, and
`p` depends on no further object. -/
theorem earlier_state_unaffected {l l' : List (Call P)} (hl : Session P (l ++ l')) {p : Nat} {parse : PgfParse}
    (hp : (heapAfter l).parses[p]? = some parse) :
    (heapAfter (l ++ l')).parses[p]? = some parse ∧
      (∀ o, (heapAfter (l ++ l')).Reach p o ↔ (heapAfter l).Reach p o) ∧
      ∀ o, (heapAfter l).Reach p o → (heapAfter l).Same (heapAfter (l ++ l')) o := by
  have hle := hl.le
  have hv := hl.init.valid
  have hlt := (List.getElem?_eq_some_iff.1 hp).1
  exact ⟨prefix_getElem? hle.parses hlt ▸ hp, fun o => reach_iff hle hv hlt, fun o ho => (hv.has ho).same hle⟩

theorem earlier_state_unaffected_tiny :
    ∃ (c₀ c₁ c₂ : Call Tiny.parser) (parse : PgfParse), (heapAfter [c₀]).parses[0]? = some parse ∧
      (heapAfter ([c₀] ++ [c₁, c₂])).parses[0]? = some parse := by
  obtain ⟨c₀, c₁, c₂, hl⟩ := Tiny.plays
  have hlen : (heapAfter [c₀]).parses.length = 1 := hl.init.parses_length
  have hlt : 0 < (heapAfter [c₀]).parses.length := hlen ▸ Nat.zero_lt_one
  have hp := List.getElem?_eq_getElem hlt
  exact ⟨c₀, c₁, c₂, _, hp, (earlier_state_unaffected hl hp).1⟩

end Libpgf
