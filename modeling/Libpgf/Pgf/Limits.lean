import Libpgf.Pgf.EarlierStates
import Libpgf.Pgf.Trees
/-!
# Grammars within the limits of the parser

The counters of an item are 16 and 8 bits wide. In a grammar whose rows and
forms are short enough for them they never wrap, so an item always says where
in its row it stands.
-/

namespace Libpgf

variable {P : PgfParser}

/-! ## The limits -/

/-- A symbol that the parser can read: its forms are not empty, shorter than
256 tokens and fewer than 256. -/
def PgfSymbol.Fits : PgfSymbol → Prop
  | CAT _ _ => True
  | LIT _ _ => False
  | VAR _ _ => False
  | KS tokens => tokens ≠ [] ∧ tokens.length < 2 ^ 8
  | KP default_form alts => default_form ≠ [] ∧ default_form.length < 2 ^ 8 ∧ alts.length < 2 ^ 8 - 1 ∧
      ∀ a ∈ alts, a.form ≠ [] ∧ a.form.length < 2 ^ 8

def PgfCncFun.Fits (f : PgfCncFun) : Prop := ∀ seq ∈ f.lins, seq.length < 2 ^ 16 ∧ ∀ sym ∈ seq, sym.Fits

def PgfProduction.Fits : PgfProduction → Prop
  | APPLY f args => f.Fits ∧ ∀ a ∈ args, a.hypos = []
  | COERCE _ => True

/-- The productions of a category of the grammar. -/
def PgfConcr.Prod (concr : PgfConcr) (c : PgfCCatId) (p : PgfProduction) : Prop :=
  ∃ ccat, concr.ccatMem[c]? = some ccat ∧ p ∈ ccat.prods.elems

/-- Every production of the grammar is within the limits. -/
def PgfConcr.Fits (concr : PgfConcr) : Prop := ∀ c p, concr.Prod c p → p.Fits

theorem PgfProduction.Fits.row {p : PgfProduction} (h : p.Fits) {r : Nat} {seq : PgfSequence} (hr : p.row r = some seq) :
    seq.length < 2 ^ 16 ∧ ∀ sym ∈ seq, sym.Fits := by
  cases p with
  | APPLY f args => exact h.1 seq (List.mem_of_getElem? hr)
  | COERCE c =>
    simp only [PgfProduction.row, Option.some.injEq] at hr
    subst hr
    simp [PgfSymbol.Fits]

/-! ## Forms -/

/-- The forms of a symbol, by the `alt` that stands for each. -/
def PgfSymbol.Form : PgfSymbol → Nat → PgfTokens → Prop
  | KS tokens, alt, form => alt = 0 ∧ form = tokens
  | KP default_form alts, alt, form => (alt = 0 ∧ form = default_form) ∨
      ∃ i a, alt = i + 1 ∧ alts[i]? = some a ∧ form = a.form
  | _, _, _ => False

namespace PgfSymbol.Form
variable {sym : PgfSymbol} {alt : Nat} {form form' : PgfTokens}

theorem unique (h : sym.Form alt form) (h' : sym.Form alt form') : form = form' := by
  cases sym with
  | KS tokens => exact h.2.trans h'.2.symm
  | KP dflt alts =>
    rcases h with ⟨h0, rfl⟩ | ⟨i, a, rfl, ha, rfl⟩ <;> rcases h' with ⟨h0', rfl⟩ | ⟨j, b, hj, hb, rfl⟩
    · rfl
    · omega
    · omega
    · obtain rfl : i = j := Nat.succ.inj hj
      rw [ha, Option.some.injEq] at hb
      rw [hb]
  | CAT d r => exact h.elim
  | LIT d r => exact h.elim
  | VAR d r => exact h.elim

theorem yields {sub : Nat → Nat → List PgfToken → Prop} (h : sym.Form alt form) : YieldsSym sub sym form := by
  cases sym with
  | KS tokens => exact h.2
  | KP dflt alts =>
    rcases h with ⟨-, rfl⟩ | ⟨i, a, -, ha, rfl⟩
    · exact .inl rfl
    · exact .inr ⟨a, List.mem_of_getElem? ha, rfl⟩
  | CAT d r => exact h.elim
  | LIT d r => exact h.elim
  | VAR d r => exact h.elim

/-- The forms of a symbol within the limits can be counted in 8 bits, and so can their tokens. -/
theorem lt (h : sym.Form alt form) (hf : sym.Fits) : form ≠ [] ∧ form.length < 2 ^ 8 ∧ alt < 2 ^ 8 := by
  cases sym with
  | KS tokens =>
    obtain ⟨rfl, rfl⟩ := h
    exact ⟨hf.1, hf.2, by omega⟩
  | KP dflt alts =>
    obtain ⟨hne, hlt, hn, halts⟩ := hf
    rcases h with ⟨rfl, rfl⟩ | ⟨i, a, rfl, ha, rfl⟩
    · exact ⟨hne, hlt, by omega⟩
    · have := (List.getElem?_eq_some_iff.1 ha).1
      obtain ⟨hne', hlt'⟩ := halts a (List.mem_of_getElem? ha)
      exact ⟨hne', hlt', by omega⟩
  | CAT d r => exact h.elim
  | LIT d r => exact h.elim
  | VAR d r => exact h.elim

end PgfSymbol.Form

theorem mem_kp_alts {default_form : PgfTokens} {alts : List PgfAlternative} {alt : Nat} {form : PgfTokens} :
    (alt, form) ∈ kp_alts default_form alts ↔
      ∃ i a, alt = i + 1 ∧ alts[i]? = some a ∧ form = a.form ∧ kp_skip default_form alts i = false := by
  simp only [kp_alts, List.mem_filterMap, List.mem_filter, List.mem_range, Bool.not_eq_true', Option.map_eq_some_iff,
    Prod.mk.injEq]
  constructor
  · rintro ⟨i, ⟨-, hs⟩, a, ha, rfl, rfl⟩
    exact ⟨i, a, rfl, ha, rfl, hs⟩
  · rintro ⟨i, a, rfl, ha, rfl, hs⟩
    exact ⟨i, ⟨(List.getElem?_eq_some_iff.1 ha).1, hs⟩, a, ha, rfl, rfl⟩

/-- Scanning tries forms of the symbol; inside one, no other. -/
theorem scan_forms_form {x : PgfItem} {forms : List (Nat × PgfTokens)} {alt : Nat} {form : PgfTokens}
    (h : scan_forms x = .ok forms) (hm : (alt, form) ∈ forms) : ∃ sym, x.curr_sym = some sym ∧ sym.Form alt form ∧
      (x.tok_idx ≠ 0 → ∀ form', sym.Form x.alt form' → x.alt = alt) := by
  unfold scan_forms at h
  split at h
  · rename_i tokens hsym
    rw [Except.ok.injEq] at h
    subst h
    simp only [List.mem_singleton, Prod.mk.injEq] at hm
    exact ⟨_, hsym, hm, fun _ form' hf => hf.1.trans hm.1.symm⟩
  · rename_i dflt alts hsym
    split at h
    · rename_i h0
      rw [Except.ok.injEq] at h
      subst h
      refine ⟨_, hsym, ?_, fun hne => absurd h0 hne⟩
      rcases List.mem_cons.1 hm with hm | hm
      · simp only [Prod.mk.injEq] at hm
        exact .inl hm
      · obtain ⟨i, a, hi, ha, hf, -⟩ := mem_kp_alts.1 hm
        exact .inr ⟨i, a, hi, ha, hf⟩
    split at h
    · rename_i halt
      rw [Except.ok.injEq] at h
      subst h
      simp only [List.mem_singleton, Prod.mk.injEq] at hm
      exact ⟨_, hsym, .inl hm, fun _ _ _ => halt.trans hm.1.symm⟩
    · rename_i halt
      obtain ⟨a, ha, h⟩ := Exec.bind_ok.1 h
      simp only [Exec.deref_ok, Exec.pure_eq, Except.ok.injEq] at ha h
      subst h
      simp only [List.mem_singleton, Prod.mk.injEq] at hm
      exact ⟨_, hsym, .inr ⟨x.alt - 1, a, by omega, ha, hm.2⟩, fun _ _ _ => hm.1.symm⟩
  · simp at h

/-! ## Items within the limits -/

/-- Where an item within the limits stands. -/
structure PgfItem.Fits (x : PgfItem) : Prop where
  prod : x.base.prod.Fits
  located : Located x
  args : x.args.length = (prod_args x.base.prod).length
  hypos : ∀ a ∈ x.args, a.hypos = []
  coerce : ∀ {c}, x.base.prod = .COERCE c → x.seq_idx = 0 → x.args = [⟨[], c⟩]
  /-- Between symbols, or inside a form. -/
  begun : x.tok_idx = 0 ∨ ∃ sym form, x.curr_sym = some sym ∧ sym.Form x.alt form ∧ x.tok_idx < form.length

theorem prod_args_hypos {p : PgfProduction} (h : p.Fits) : ∀ a ∈ prod_args p, a.hypos = [] := by
  cases p with
  | APPLY f args => exact h.2
  | COERCE c => simp [prod_args]

namespace PgfItem.Fits
variable {x y k : PgfItem}

theorem new {K : PgfItemSetId} {c : PgfCCatId} {p : PgfProduction} {r : Nat} (hp : p.Fits)
    (hx : pgf_new_item ⟨K, c, p, r⟩ = .ok x) : x.Fits := by
  obtain ⟨hl, hb, ha, hs, ht, -⟩ := pgf_new_item_ok hx
  refine ⟨by rw [hb]; exact hp, hl, by rw [ha, hb], by rw [ha]; exact prod_args_hypos hp, fun {c'} hc _ => ?_, .inl ht⟩
  rw [hb] at hc
  simp only at hc
  rw [ha, hc]
  rfl

/-- The row of the item, and the symbol before which it stands. -/
theorem row (h : x.Fits) : ∃ seq, x.base.prod.row x.base.lin_idx = some seq ∧ x.seq_idx ≤ seq.length ∧
    seq[x.seq_idx]? = x.curr_sym ∧ seq.length < 2 ^ 16 ∧ ∀ sym ∈ seq, sym.Fits := by
  obtain ⟨seq, hseq, hle, hsym⟩ := located_iff.1 h.located
  exact ⟨seq, hseq, hle, hsym, h.prod.row hseq⟩

/-- The position does not wrap. -/
theorem seq_idx_succ (h : x.Fits) {sym : PgfSymbol} (hsym : x.curr_sym = some sym) :
    (x.seq_idx + 1) % 2 ^ 16 = x.seq_idx + 1 := by
  obtain ⟨seq, -, -, hs, hlt, -⟩ := h.row
  have := (List.getElem?_eq_some_iff.1 (hs.trans hsym)).1
  exact Nat.mod_eq_of_lt (by omega)

theorem sym_fits (h : x.Fits) {sym : PgfSymbol} (hsym : x.curr_sym = some sym) : sym.Fits := by
  obtain ⟨seq, -, -, hs, -, hf⟩ := h.row
  exact hf sym (List.mem_of_getElem? (hs.trans hsym))

/-- An item that waits for a category is between symbols. -/
theorem tok_idx_eq_zero (h : x.Fits) {d r : Nat} (hsym : x.curr_sym = some (.CAT d r)) : x.tok_idx = 0 := by
  rcases h.begun with h0 | ⟨sym, form, hs, hf, -⟩
  · exact h0
  · rw [hsym, Option.some.injEq] at hs
    subst hs
    exact hf.elim

theorem combined (h : k.Fits) {g : PgfCCatId} (hx : combined k g = .ok x) : x.Fits ∧ x.seq_idx = k.seq_idx + 1 := by
  obtain ⟨hl, hb, hs, ht, -, d, r, hsym, hd, ha⟩ := combined_ok hx
  rw [h.seq_idx_succ hsym] at hs
  refine ⟨⟨by rw [hb]; exact h.prod, hl, by rw [ha, hb, List.length_set]; exact h.args, fun a hm => ?_, fun _ h0 => ?_,
    .inl (ht.trans (h.tok_idx_eq_zero hsym))⟩, hs⟩
  · rw [ha] at hm
    rcases List.mem_or_eq_of_mem_set hm with hm | rfl
    · exact h.hypos a hm
    · rfl
  · omega

/-- What scanning `tok` as part of `form` does to an item. -/
structure Scanned (y x : PgfItem) (sym : PgfSymbol) (tok : PgfToken) (alt : Nat) (form : PgfTokens) : Prop where
  at_sym : y.curr_sym = some sym
  is_form : sym.Form alt form
  same_alt : y.tok_idx ≠ 0 → y.alt = alt
  tok : form[y.tok_idx]? = some tok
  base : x.base = y.base
  args : x.args = y.args
  alt : x.alt = alt
  idx : (y.tok_idx + 1 = form.length ∧ x.seq_idx = y.seq_idx + 1 ∧ x.tok_idx = 0) ∨
    (y.tok_idx + 1 < form.length ∧ x.seq_idx = y.seq_idx ∧ x.tok_idx = y.tok_idx + 1 ∧ x.curr_sym = y.curr_sym)

theorem scanned (h : y.Fits) {forms : List (Nat × PgfTokens)} {tok : PgfToken} {alt : Nat} {form : PgfTokens}
    (hf : scan_forms y = .ok forms) (hm : (alt, form) ∈ forms) (hx : scanned y tok alt form = .ok (some x)) :
    x.Fits ∧ ∃ sym, Scanned y x sym tok alt form := by
  obtain ⟨sym, hsym, hform, hsame⟩ := scan_forms_form hf hm
  obtain ⟨-, hlen, halt⟩ := hform.lt (h.sym_fits hsym)
  obtain ⟨htok, hb, ha, hxa, hidx⟩ := scanned_ok hx
  have hlt := (List.getElem?_eq_some_iff.1 htok).1
  have hmod : (y.tok_idx + 1) % 2 ^ 8 = y.tok_idx + 1 := Nat.mod_eq_of_lt (by omega)
  rw [Nat.mod_eq_of_lt halt] at hxa
  rw [hmod, h.seq_idx_succ hsym] at hidx
  have hsc : Scanned y x sym tok alt form := by
    refine ⟨hsym, hform, fun hne => ?_, htok, hb, ha, hxa, ?_⟩
    · rcases h.begun with h0 | ⟨sym', form', hs', hf', -⟩
      · exact absurd h0 hne
      · rw [hsym, Option.some.injEq] at hs'
        subst hs'
        exact hsame hne form' hf'
    · rcases hidx with ⟨he, -, hs, ht⟩ | ⟨hne, hc, hs, ht⟩
      · exact .inl ⟨he, hs, ht⟩
      · exact .inr ⟨by omega, hs, ht, hc⟩
  have hprod : x.base.prod.Fits := by rw [hb]; exact h.prod
  have hargs : x.args.length = (prod_args x.base.prod).length := by rw [ha, hb]; exact h.args
  have hhypos : ∀ a ∈ x.args, a.hypos = [] := by rw [ha]; exact h.hypos
  refine ⟨?_, sym, hsc⟩
  rcases hidx with ⟨-, hl, hs, ht⟩ | ⟨hne, hc, hs, ht⟩
  · exact ⟨hprod, hl, hargs, hhypos, fun _ h0 => by omega, .inl ht⟩
  · refine ⟨hprod, ?_, hargs, hhypos, fun hc' h0 => ?_, .inr ⟨sym, form, hc.trans hsym, hxa ▸ hform, by omega⟩⟩
    · simp only [Located, hb, hs, hc]
      exact h.located
    · rw [ha]
      exact h.coerce (hb ▸ hc') (hs ▸ h0)

theorem completed_prod (h : x.Fits) {p : PgfProduction} (hp : completed_prod x = .ok p) : p.Fits ∧ prod_args p = x.args := by
  unfold Libpgf.completed_prod at hp
  split at hp
  · rename_i f args hprod
    rw [Except.ok.injEq] at hp
    subst hp
    have := h.prod
    rw [hprod] at this
    exact ⟨⟨this.1, h.hypos⟩, rfl⟩
  · rename_i c hprod
    obtain ⟨a, ha, hp⟩ := Exec.bind_ok.1 hp
    obtain ⟨_, hh, hp⟩ := Exec.bind_ok.1 hp
    simp only [Exec.deref_ok, Exec.require_ok, Exec.pure_eq, Except.ok.injEq] at ha hh hp
    subst hp
    refine ⟨trivial, ?_⟩
    have hlen := h.args
    rw [hprod] at hlen
    obtain ⟨b, hb⟩ := List.length_eq_one_iff.1 hlen
    rw [hb] at ha ⊢
    simp only [List.getElem?_cons_zero, Option.some.injEq] at ha
    subst ha
    simp only [prod_args, ← hh]

/-- What an item waits for is an argument of it. -/
theorem awaits (h : x.Fits) {c : PgfCCatId} {r : Nat} (ha : Awaits x c r) :
    ∃ d parg, x.curr_sym = some (.CAT d r) ∧ x.args[d]? = some parg ∧ parg.ccat = c := by
  obtain ⟨seq, hseq, -, hsym, -⟩ := h.row
  cases hp : x.base.prod with
  | APPLY f args =>
    simp only [Awaits, hp] at ha
    obtain ⟨seq', d, parg, hl, hs, hd, -, hc⟩ := ha
    rw [hp, PgfProduction.row, hl, Option.some.injEq] at hseq
    subst hseq
    exact ⟨d, parg, hsym.symm.trans hs, hd, hc⟩
  | COERCE coerce =>
    simp only [Awaits, hp] at ha
    obtain ⟨h0, rfl, rfl⟩ := ha
    rw [hp, PgfProduction.row, Option.some.injEq] at hseq
    subst hseq
    rw [h0] at hsym
    exact ⟨0, ⟨[], coerce⟩, hsym.symm, by rw [h.coerce hp h0]; rfl, rfl⟩

theorem awaits_of (h : x.Fits) {d r : Nat} {parg : PgfPArg} (hsym : x.curr_sym = some (.CAT d r))
    (hparg : x.args[d]? = some parg) : Awaits x parg.ccat r := by
  obtain ⟨seq, hseq, -, hcurr, -⟩ := h.row
  cases hp : x.base.prod with
  | APPLY f args =>
    simp only [Awaits, hp]
    rw [hp] at hseq
    exact ⟨seq, d, parg, hseq, hcurr.trans hsym, hparg, h.hypos _ (List.mem_of_getElem? hparg), rfl⟩
  | COERCE c =>
    simp only [Awaits, hp]
    rw [hp, PgfProduction.row, Option.some.injEq] at hseq
    subst hseq
    have hs := hcurr.trans hsym
    have h0 : x.seq_idx = 0 := Nat.lt_one_iff.1 (List.getElem?_eq_some_iff.1 hs).1
    rw [h0, List.getElem?_cons_zero, Option.some.injEq, PgfSymbol.CAT.injEq] at hs
    obtain ⟨rfl, rfl⟩ := hs
    rw [h.coerce hp h0, List.getElem?_cons_zero, Option.some.injEq] at hparg
    exact ⟨h0, hparg ▸ rfl, rfl⟩

end PgfItem.Fits

/-! ## Sessions within the limits -/

/-- The productions of a category in memory. -/
def Heap.Prod (h : Heap P) (c : PgfCCatId) (p : PgfProduction) : Prop :=
  ∃ ccat, h.ccats[c]? = some ccat ∧ p ∈ ccat.prods.elems

theorem inherited_fits {h : Heap P} (hheld : ∀ K x, h.Held K (some x) → x.Fits) (o : Origin) :
    Chart.Inherited (o.Scans h) PgfItem.Fits PgfProduction.Fits where
  new hp hx := .new hp hx
  combined hk hx := (hk.combined hx).1
  scanned {x} hx := by
    cases o with
    | parse cat lin_idx => exact hx.elim
    | token p tok =>
      obtain ⟨T, y, forms, alt, toks, -, hy, hf, hm, hx⟩ := hx
      exact ((hheld T y hy).scanned hf hm hx).1
  completed hx _ hp := (hx.completed_prod hp).1

/-- All that a session makes of a grammar within the limits is within them. -/
structure Heap.Fits (h : Heap P) : Prop where
  held : ∀ K x, h.Held K (some x) → x.Fits
  prods : ∀ c p, h.Prod c p → p.Fits

theorem Called.all_fits {h : Heap P} {o : Origin} {s : PgfParsing P} (hf : h.Fits) (hs : Called h o s) :
    s.chart.All PgfItem.Fits PgfProduction.Fits := by
  have h0 : h.chart.All PgfItem.Fits PgfProduction.Fits := ⟨fun _ hx => hx.elim, hf.held, hf.prods⟩
  exact h0.steps (inherited_fits hf.held o) hs.steps

theorem Session.heap_fits (hP : P.concr.Fits) {l : List (Call P)} (hl : Session P l) : (heapAfter l).Fits := by
  refine hl.inv (I := Heap.Fits) ⟨?_, ?_⟩ fun hf hs => ⟨(hs.all_fits hf).held, (hs.all_fits hf).prods⟩
  · rintro K x ⟨set, hs, -⟩
    simp [newHeap] at hs
  · exact hP

end Libpgf
