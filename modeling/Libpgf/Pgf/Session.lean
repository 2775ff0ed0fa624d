import Libpgf.Pgf.Refine
/-!
# Sessions

The calls that a program makes on one parser, in any order: parses that start
afresh, and tokens fed to any parse state made before. Every call makes one
parse state, so the calls made are also the parse states.

A call leaves all memory that was there before as it was.
-/

namespace Libpgf

variable {P : PgfParser}

/-- What a call was made for. -/
inductive Origin where
  | parse (cat : PgfCId) (lin_idx : Nat)
  | token (parse : Nat) (tok : PgfToken)
  deriving DecidableEq, Repr

namespace Origin

def run (fuel : Nat) (h : Heap P) : Origin → Exec (Option (PgfParsing P))
  | parse cat lin_idx => (pgf_parser_parse fuel h cat lin_idx).map some
  | token p tok => pgf_parse_token fuel h p tok

/-- The items under which a parse state files the token. -/
def Agenda (h : Heap P) (p : Nat) (tok : Option PgfToken) (T : PgfItemSetId) : Prop :=
  ∃ parse, h.parses[p]? = some parse ∧ parse.transitions tok = some T

/-- The items that scanning makes. -/
def Scans (h : Heap P) : Origin → PgfItem → Prop
  | parse _ _, _ => False
  | token p tok, x => ∃ T y forms alt toks, Agenda h p (some tok) T ∧ h.Held T (some y) ∧ scan_forms y = .ok forms ∧
      (alt, toks) ∈ forms ∧ scanned y tok alt toks = .ok (some x)

/-- The constituents that a whole input may be. -/
def Starts (P : PgfParser) : Origin → PgfCCatId → Nat → Prop
  | parse cat lin_idx, c, r => r = lin_idx ∧ ∃ id cnccat, P.concr.cnccats.lookup cat = some id ∧
      P.concr.cnccatMem[id]? = some cnccat ∧ some c ∈ cnccat.cats
  | token _ _, _, _ => False

end Origin

/-! ## What a call does -/

/-- The chart of a parse state that has just been made. -/
def Heap.chart (h : Heap P) : Chart where
  seen := ∅
  conts _ _ := none
  toks _ := none
  gen _ := none
  nsets := h.sets.length
  held K := {k | h.Held K k}
  ccats := h.ccats
  completed := []

theorem Heap.chart_own (h : Heap P) : h.chart.Own h.sets.length h.ccats.length where
  conts hc := by cases hc
  toks ht := by cases ht
  gen hg := by cases hg
  nsets_le := Nat.le_refl _
  ncats_le := Nat.le_refl _

theorem Heap.chart_wf (h : Heap P) (starts : PgfCCatId → Nat → Prop) : h.chart.Wf starts where
  conts_lt hc := by cases hc
  toks_lt ht := by cases ht
  gen_lt hg := by cases hg
  held_lt := fun ⟨_, hs, _⟩ => (List.getElem?_eq_some_iff.1 hs).1
  conts_inj hc := by cases hc
  toks_inj ht := by cases ht
  gen_inj hg := by cases hg
  conts_ne_toks hc := by cases hc
  conts_held hc := by cases hc
  toks_held ht := by cases ht

theorem new_parsing_ok {h : Heap P} {s : PgfParsing P} (hs : pgf_new_parsing h = .ok s) :
    s.chart = h.chart ∧ s.parse = h.parses.length ∧ s.heap.parses.length = h.parses.length + 1 ∧ h.Le s.heap ∧
      s.enums = [] := by
  obtain ⟨seen, hseen, hs⟩ := Exec.bind_ok.1 hs
  simp only [Exec.pure_eq, Except.ok.injEq] at hs
  subst hs
  refine ⟨?_, rfl, by simp, ⟨List.prefix_rfl, List.prefix_rfl, List.prefix_append _ _⟩, rfl⟩
  have hlast : (h.parses ++ [({ transitions := fun _ => none, completed := [] } : PgfParse)])[h.parses.length]? =
      some { transitions := fun _ => none, completed := [] } := by simp
  apply Chart.ext <;> try rfl
  · ext x
    simpa [PgfParsing.chart, Heap.chart] using GuSet.not_mem_new hseen
  · funext t
    simp [PgfParsing.chart, Heap.chart]
  · simp only [PgfParsing.chart, Heap.chart, hlast, Option.map_some, Option.getD_some]

/-- What `pgf_parse_token` and `pgf_parser_parse` do, seen from outside. -/
structure Called (h : Heap P) (o : Origin) (s : PgfParsing P) : Prop where
  le : h.Le s.heap
  parse : s.parse = h.parses.length
  nparses : s.heap.parses.length = h.parses.length + 1
  steps : Chart.Steps (o.Scans h) (o.Starts P) h.chart s.chart
  enums : ∀ e ∈ s.enums, PgfParsing.EnumRun 0 e.start e.rounds

theorem Called.of_reaches {h : Heap P} {o : Origin} {s₀ s : PgfParsing P} (hs : pgf_new_parsing h = .ok s₀)
    (hr : PgfParsing.Reaches (o.Scans h) (o.Starts P) s₀ s) : Called h o s := by
  obtain ⟨hc, hp, hn, hle, he⟩ := new_parsing_ok hs
  obtain ⟨es, hes, hrun⟩ := hr.enums
  refine ⟨hr.frame h ?_ (by omega) hle, by rw [hr.parse, hp], by rw [hr.nparses, hn], hc ▸ hr.steps,
    by rw [hes, he]; exact hrun⟩
  rw [hc]
  exact h.chart_own

section Scan
variable {h : Heap P} {scans : PgfItem → Prop} {starts : PgfCCatId → Nat → Prop} {s s' : PgfParsing P} {x : PgfItem}
  {tok : PgfToken} {fuel : Nat}

theorem scan_toks_ok {alt : Nat} {toks : PgfTokens} {b : Bool} (h : pgf_parsing_scan_toks fuel s x tok alt toks = .ok (s', b)) :
    (∃ y, scanned x tok alt toks = .ok (some y) ∧ pgf_parsing_item fuel s y = .ok s' ∧ b = true) ∨
      (scanned x tok alt toks = .ok none ∧ s' = s ∧ b = false) := by
  obtain ⟨o, ho, h⟩ := Exec.bind_ok.1 h
  cases o with
  | none =>
    simp only [Exec.pure_eq, Except.ok.injEq, Prod.mk.injEq] at h
    exact .inr ⟨ho, h.1.symm, h.2.symm⟩
  | some y =>
    obtain ⟨t, ht, h⟩ := Exec.bind_ok.1 h
    simp only [Exec.pure_eq, Except.ok.injEq, Prod.mk.injEq] at h
    exact .inl ⟨y, ho, h.1 ▸ ht, h.2.symm⟩

theorem scan_ok (h : pgf_parsing_scan fuel s x tok = .ok s') :
    ∃ forms, scan_forms x = .ok forms ∧ forEach (scan_form fuel x tok) forms (s, false) = .ok (s', true) := by
  obtain ⟨forms, hf, h⟩ := Exec.bind_ok.1 h
  obtain ⟨⟨t, b⟩, hl, h⟩ := Exec.bind_ok.1 h
  obtain ⟨_, hb, he⟩ := Exec.bind_ok.1 h
  simp only [Exec.require_ok, Exec.pure_eq, Except.ok.injEq] at hb he
  exact ⟨forms, hf, by rw [hl, hb, he]⟩

theorem scan_reaches (hj : ∀ forms alt toks y, scan_forms x = .ok forms → (alt, toks) ∈ forms →
      scanned x tok alt toks = .ok (some y) → scans y) (h : pgf_parsing_scan fuel s x tok = .ok s') :
    PgfParsing.Reaches scans starts s s' := by
  obtain ⟨forms, hf, h⟩ := scan_ok h
  refine forEach_inv (P := fun a : PgfParsing P × Bool => PgfParsing.Reaches scans starts s a.1)
    (fun form hform a a' ha h => ?_) (.refl s) h
  obtain ⟨⟨t, b⟩, ht, h⟩ := Exec.bind_ok.1 h
  simp only [Exec.pure_eq, Except.ok.injEq] at h
  subst h
  obtain ⟨y, hy, h, -⟩ | ⟨-, rfl, -⟩ := scan_toks_ok ht
  · exact ha.trans (PgfParsing.item_reaches (.scanned (hj forms _ _ y hf hform hy)) h)
  · exact ha

end Scan

/-- The set of an old parse state stays as it is while its items are scanned. -/
theorem token_loop_reaches {h : Heap P} {p : Nat} {tok : PgfToken} {T : PgfItemSetId} (hT : Origin.Agenda h p tok T) {fuel : Nat} :
    ∀ {n cursor : Nat} {s s' : PgfParsing P}, s.chart.Own h.sets.length h.ccats.length → h.parses.length ≤ s.parse →
      h.Le s.heap → T < h.sets.length → pgf_parse_token_loop fuel T tok n cursor s = .ok s' →
      PgfParsing.Reaches ((Origin.token p tok).Scans h) ((Origin.token p tok).Starts P) s s' := by
  intro n
  induction n with
  | zero => intro cursor s s' _ _ _ _ h; simp [pgf_parse_token_loop] at h
  | succ n ih =>
    intro cursor s s' ho hp hle hlt hs
    unfold pgf_parse_token_loop at hs
    obtain ⟨items, hi, hs⟩ := Exec.bind_ok.1 hs
    rw [Exec.deref_ok] at hi
    cases hn : items.next cursor with
    | none =>
      simp only [hn, Exec.pure_eq, Except.ok.injEq] at hs
      exact hs ▸ .refl s
    | some kc =>
      obtain ⟨k, cursor'⟩ := kc
      simp only [hn] at hs
      obtain ⟨y, hy, hs⟩ := Exec.bind_ok.1 hs
      obtain ⟨s₁, h₁, hs'⟩ := Exec.bind_ok.1 hs
      rw [Exec.deref_ok] at hy
      subst hy
      have hold : h.Held T (some y) := by
        refine ⟨items, ?_, (GuSet.next_some hn).2.1⟩
        rw [← hi]
        exact prefix_getElem? hle.sets hlt
      have hr : PgfParsing.Reaches ((Origin.token p tok).Scans h) ((Origin.token p tok).Starts P) s s₁ :=
        scan_reaches (fun forms alt toks z hf hm hz => ⟨T, y, forms, alt, toks, hT, hold, hf, hm, hz⟩) h₁
      exact hr.trans (ih (ho.steps hr.steps) (hr.parse ▸ hp) (hr.frame h ho hp hle) hlt hs')

theorem token_called {h : Heap P} {p : Nat} {tok : PgfToken} {fuel : Nat} {s : PgfParsing P}
    (hs : pgf_parse_token fuel h p tok = .ok (some s)) : Called h (.token p tok) s := by
  obtain ⟨parse, hparse, hs⟩ := Exec.bind_ok.1 hs
  rw [Exec.deref_ok] at hparse
  cases hT : parse.transitions (some tok) with
  | none => simp [hT] at hs
  | some T =>
    simp only [hT] at hs
    obtain ⟨s₀, h₀, hs⟩ := Exec.bind_ok.1 hs
    obtain ⟨s₁, h₁, hs⟩ := Exec.bind_ok.1 hs
    simp only [Exec.pure_eq, Except.ok.injEq, Option.some.injEq] at hs
    subst hs
    obtain ⟨hc, hp, -, hle, -⟩ := new_parsing_ok h₀
    refine .of_reaches h₀ (token_loop_reaches ⟨parse, hparse, hT⟩ ?_ hp.ge hle ?_ h₁)
    · exact hc ▸ h.chart_own
    · -- the loop looks the set up before it makes any other
      obtain ⟨items, hi, -⟩ := Exec.bind_ok.1 h₁
      rw [Exec.deref_ok] at hi
      have hn : s₀.heap.sets.length = h.sets.length := congrArg Chart.nsets hc
      exact hn ▸ (List.getElem?_eq_some_iff.1 hi).1

theorem parse_called {h : Heap P} {cat : PgfCId} {lin_idx fuel : Nat} {s : PgfParsing P}
    (hs : pgf_parser_parse fuel h cat lin_idx = .ok s) : Called h (.parse cat lin_idx) s := by
  obtain ⟨s₀, h₀, hs⟩ := Exec.bind_ok.1 hs
  refine .of_reaches h₀ ?_
  cases hl : P.concr.cnccats.lookup cat with
  | none =>
    simp only [hl, Exec.pure_eq, Except.ok.injEq] at hs
    exact hs ▸ .refl s₀
  | some id =>
    simp only [hl] at hs
    obtain ⟨cnccat, hcnc, hs⟩ := Exec.bind_ok.1 hs
    obtain ⟨_, -, hs⟩ := Exec.bind_ok.1 hs
    rw [Exec.deref_ok] at hcnc
    refine forEach_inv (P := PgfParsing.Reaches _ _ s₀) (fun c hc t t' ht h => ?_) (.refl s₀) hs
    cases c with
    | none =>
      simp only [predict_start, Except.ok.injEq] at h
      exact h ▸ ht
    | some c =>
      have hw : Chart.Waits ((Origin.parse cat lin_idx).Starts P) t.chart c lin_idx none := ⟨rfl, id, cnccat, hl, hcnc, hc⟩
      exact ht.trans (PgfParsing.predict_reaches PgfParsing.item_reaches hw h)

/-- Every call is a run of chart steps that leaves all older memory alone. -/
theorem Origin.run_called {h : Heap P} {o : Origin} {fuel : Nat} {s : PgfParsing P} (hs : o.run fuel h = .ok (some s)) :
    Called h o s := by
  cases o with
  | parse cat lin_idx =>
    cases hp : pgf_parser_parse fuel h cat lin_idx with
    | error e => simp [Origin.run, hp, Except.map] at hs
    | ok s' =>
      simp only [Origin.run, hp, Except.map, Except.ok.injEq, Option.some.injEq] at hs
      exact parse_called (hs ▸ hp)
  | token p tok => exact token_called hs

/-! ## Sessions -/

/-- A call that returned a parse state, and the state it ended in. -/
structure Call (P : PgfParser) where
  origin : Origin
  state : PgfParsing P

/-- The memory after some calls. -/
def heapAfter : List (Call P) → Heap P := fun l => (l.getLast?.map fun c => c.state.heap).getD (newHeap P)

@[simp] theorem heapAfter_nil : heapAfter ([] : List (Call P)) = newHeap P := rfl

@[simp] theorem heapAfter_append (l : List (Call P)) (c : Call P) : heapAfter (l ++ [c]) = c.state.heap := by
  simp [heapAfter]

/-- The calls made on a parser so far. Calls that return `NULL` change nothing
and are left out. -/
inductive Session (P : PgfParser) : List (Call P) → Prop
  | nil : Session P []
  | call {l o s fuel} : Session P l → o.run fuel (heapAfter l) = .ok (some s) → Session P (l ++ [⟨o, s⟩])

/-- Makes the calls in turn. -/
def play (fuel : Nat) : List Origin → List (Call P) → Exec (List (Call P))
  | [], l => .ok l
  | o :: os, l => do
    match ← o.run fuel (heapAfter l) with
    | some s => play fuel os (l ++ [⟨o, s⟩])
    | none => play fuel os l

namespace Session

theorem of_play {fuel : Nat} {os : List Origin} {l l' : List (Call P)} (hl : Session P l) (h : play fuel os l = .ok l') :
    Session P l' := by
  induction os generalizing l with
  | nil =>
    simp only [play, Except.ok.injEq] at h
    exact h ▸ hl
  | cons o os ih =>
    obtain ⟨r, hr, h⟩ := Exec.bind_ok.1 h
    cases r with
    | none => exact ih hl h
    | some s => exact ih (hl.call hr) h

/-- Calls that can be made, and of which a check holds, make a session of which it holds. -/
theorem of_check (fuel : Nat) (os : List Origin) (check : List (Call P) → Bool)
    (h : (play fuel os []).toOption.map check = some true) : ∃ l, Session P l ∧ check l = true := by
  cases hp : play fuel os ([] : List (Call P)) with
  | error e => simp [hp, Except.toOption] at h
  | ok l =>
    simp only [hp, Except.toOption, Option.map_some, Option.some.injEq] at h
    exact ⟨l, of_play .nil hp, h⟩

/-- A property of the memory that every call keeps. -/
theorem inv {I : Heap P → Prop} (h0 : I (newHeap P)) (hI : ∀ {h o s}, I h → Called h o s → I s.heap) {l : List (Call P)}
    (hl : Session P l) : I (heapAfter l) := by
  induction hl with
  | nil => exact h0
  | call _ hr ih => exact heapAfter_append _ _ ▸ hI ih (Origin.run_called hr)

theorem parses_length {l : List (Call P)} (hl : Session P l) : (heapAfter l).parses.length = l.length := by
  induction hl with
  | nil => rfl
  | call _ hr ih =>
    simp only [heapAfter_append, (Origin.run_called hr).nparses, ih, List.length_append, List.length_singleton]

/-- The last call of a session was made in a session. -/
theorem last {l : List (Call P)} {c : Call P} (hl : Session P (l ++ [c])) :
    Session P l ∧ ∃ fuel, c.origin.run fuel (heapAfter l) = .ok (some c.state) := by
  generalize hm : l ++ [c] = m at hl
  cases hl with
  | nil => simp at hm
  | call hl hr =>
    obtain ⟨rfl, hc⟩ := List.append_inj' hm rfl
    cases hc
    exact ⟨hl, _, hr⟩

/-- The first calls of a session make a session. -/
theorem init {l l' : List (Call P)} (hl : Session P (l ++ l')) : Session P l := by
  induction l' using List.reverseRecOn with
  | nil => exact List.append_nil l ▸ hl
  | append_singleton l' c ih =>
    rw [← List.append_assoc] at hl
    exact ih hl.last.1

/-- Later calls leave the memory of earlier ones alone. -/
theorem le {l l' : List (Call P)} (hl : Session P (l ++ l')) : (heapAfter l).Le (heapAfter (l ++ l')) := by
  induction l' using List.reverseRecOn with
  | nil =>
    rw [List.append_nil]
    exact .refl _
  | append_singleton l' c ih =>
    rw [← List.append_assoc] at hl ⊢
    obtain ⟨hl', fuel, hr⟩ := hl.last
    rw [heapAfter_append]
    exact (ih hl').trans (Origin.run_called hr).le

end Session

/-! ## A small grammar

`S → f[A]` with `f` = `<0,0> "b"`, and `A → a[]` with `a` = `"a"`, or `"c"` as a variant. -/

namespace Tiny

def f : PgfCncFun := { fun_ := [102], lins := [[.CAT 0 0, .KS [[98]]]], fid := 0 }

def a : PgfCncFun := { fun_ := [97], lins := [[.KP [[97]] [⟨[[99]], []⟩]]], fid := 1 }

def concr : PgfConcr where
  ccatMem := [⟨some 0, .seq [.APPLY f [⟨[], 1⟩]], 0⟩, ⟨some 1, .seq [.APPLY a []], 1⟩]
  cnccatMem := [⟨[83], [some 0], 1, [[115]]⟩, ⟨[65], [some 1], 1, [[115]]⟩]
  cnccats := [([83], 0), ([65], 1)]
  extra_ccats := []
  prods_fixed := by decide
  prods_valid := by decide
  cats_valid := by decide

def parser : PgfParser := ⟨concr, fun _ => 0⟩

/-- The calls that parse `c b`. -/
def calls : List Origin := [.parse [83] 0, .token 0 [99], .token 1 [98]]

theorem plays : ∃ c₀ c₁ c₂ : Call parser, Session parser ([c₀] ++ [c₁, c₂]) := by
  obtain ⟨l, hl, hn⟩ := Session.of_check 20 calls (fun l : List (Call parser) => decide (l.length = 3)) (by decide +kernel)
  obtain ⟨c₀, c₁, c₂, rfl⟩ := List.length_eq_three.1 (of_decide_eq_true hn)
  exact ⟨c₀, c₁, c₂, hl⟩

end Tiny

end Libpgf
