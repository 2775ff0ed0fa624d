import Libpgf.Pgf.Continuations
import Libpgf.Pgf.Soundness
/-!
# Completeness of the chart

Where enumerations visit what the set held when they began, no tree is lost:
from an item that has been seen, the tokens of the rest of its row lead to an
item that is complete. By induction on trees, a category that has been
predicted is completed with every tree that yields the tokens fed.
-/

namespace Libpgf

variable {P : PgfParser} {l : List (Call P)}

/-- Every enumeration of the session visits what its set held when it began. -/
def Covered (l : List (Call P)) : Prop := ∀ c ∈ l, ∀ e ∈ c.state.enums, e.Covers

/-! ## Closed charts in a session -/

namespace Session
variable {i j : Nat} {a b : Call P} {x : PgfItem}

theorem processed (hl : Session P l) (ha : l[i]? = some a) (hx : x ∈ a.state.chart.seen) : a.state.chart.Processed x := by
  rcases (hl.finished ha).closed.processed hx with h | h
  · exact h
  · exact h.elim

theorem produced (hl : Session P l) (ha : l[i]? = some a) {c : PgfCCatId} {r : Nat} {K : PgfItemSetId} {p : PgfProduction}
    (hc : a.state.chart.conts c r = some K) (hp : a.state.chart.Prod c p) : a.state.chart.Produced ⟨K, c, p, r⟩ := by
  rcases (hl.finished ha).closed.produced hc hp with h | h
  · exact h
  · exact h.elim

/-- All continuations, whenever they were filed, are moved over a completed category. -/
theorem combined (hl : Session P l) (hcov : Covered l) (hb : l[j]? = some b) {K : PgfItemSetId} {g : PgfCCatId}
    (hg : b.state.chart.gen K = some g) {k : Option PgfItem} (hk : (heapAfter l).Held K k) : b.state.chart.Combined k g := by
  have hK : K < b.state.heap.sets.length := by
    obtain ⟨i, o, C, c, r, hi, hL, hc⟩ := (hl.traced j b hb).gens hg
    obtain ⟨a, ha, rfl, rfl⟩ := logOf_getElem?.1 hL
    have hlt : K < a.state.heap.sets.length := ((hl.wf ha).conts_lt hc).1
    rcases Nat.lt_or_eq_of_le hi with hi | rfl
    · exact Nat.lt_of_lt_of_le hlt ((hl.le_take ha hi).sets.length_le.trans (hl.called hb).le.sets.length_le)
    · rw [ha, Option.some.injEq] at hb
      exact hb ▸ hlt
  rcases (hl.finished hb).closed.combined (hl.gen_isConts hb hg) hg ((held_iff (hl.heap_le hb) hK).1 hk) with h | ⟨e, he, hk, hno⟩ | h
  · exact h
  · obtain ⟨r, hr, hrk⟩ := hcov b (List.mem_of_getElem? hb) e he k hk
    exact absurd hrk (hno r hr)
  · exact h.elim

/-- A token is fed to a parse state that exists. -/
theorem token_lt (hl : Session P l) (hb : l[j]? = some b) {p : Nat} {tok : PgfToken} (ho : b.origin = .token p tok) : p < j := by
  obtain ⟨hs, fuel, hr⟩ := (hl.at_call hb).last
  rw [ho] at hr
  obtain ⟨parse, hp, -⟩ := Exec.bind_ok.1 hr
  rw [Exec.deref_ok] at hp
  have := (List.getElem?_eq_some_iff.1 hp).1
  rw [hs.parses_length, List.length_take] at this
  exact Nat.lt_of_lt_of_le this (Nat.min_le_left _ _)

/-- The transitions of a parse state, in the memory of any later time. -/
theorem agenda_of (hl : Session P l) (ha : l[i]? = some a) {tok : Option PgfToken} {T : PgfItemSetId} {h : Heap P}
    (hle : a.state.heap.Le h) (hT : a.state.chart.toks tok = some T) : Origin.Agenda h i tok T := by
  obtain ⟨parse, hp, ht⟩ := Option.bind_eq_some_iff.1 hT
  have hi := hl.parse_eq ha
  have hlt := (List.getElem?_eq_some_iff.1 hp).1
  rw [prefix_getElem? hle.parses hlt, hi] at hp
  exact ⟨parse, hp, ht⟩

end Session

theorem Fed.exists_call {i j : Nat} {a : Call P} {w : List PgfToken} (ha : l[i]? = some a)
    (h : Fed (logOf l) i w j) : ∃ b, l[j]? = some b := by
  cases h with
  | refl => exact ⟨a, ha⟩
  | token _ hk =>
    obtain ⟨b, hb, -⟩ := logOf_getElem?.1 hk
    exact ⟨b, hb⟩

/-! ## Where tokens lead -/

/-- When the tokens are fed to parse state `i`, each of them is expected. -/
def Expects (l : List (Call P)) (i : Nat) (w : List PgfToken) : Prop :=
  ∀ u tok v j b, w = u ++ tok :: v → Fed (logOf l) i u j → l[j]? = some b → ∃ T, b.state.chart.toks (some tok) = some T

/-- The tokens are expected, and the parse state they lead to has seen an item as described. -/
def Leads (l : List (Call P)) (i : Nat) (w : List PgfToken) (Q : PgfItem → Prop) : Prop :=
  Expects l i w ∧ ∀ j b, Fed (logOf l) i w j → l[j]? = some b → ∃ x ∈ b.state.chart.seen, Q x

theorem Expects.nil {i : Nat} : Expects l i [] := by
  intro u tok v j b he
  simp at he

theorem Expects.append {i : Nat} {a : Call P} (ha : l[i]? = some a) {u v : List PgfToken} (h : Expects l i u)
    (h' : ∀ j b, Fed (logOf l) i u j → l[j]? = some b → Expects l j v) : Expects l i (u ++ v) := by
  intro u₁ tok v₁ j b he hfed hb
  rcases List.append_eq_append_iff.1 he with ⟨s, rfl, rfl⟩ | ⟨s, rfl, hs⟩
  · obtain ⟨j₁, hu, hs⟩ := hfed.split
    obtain ⟨b₁, hb₁⟩ := hu.exists_call ha
    exact h' j₁ b₁ hu hb₁ s tok v₁ j b rfl hs hb
  · cases s with
    | nil =>
      rw [List.append_nil] at h h'
      exact h' j b hfed hb [] tok v₁ j b hs.symm .refl hb
    | cons tok' s =>
      simp only [List.cons_append, List.cons.injEq] at hs
      obtain ⟨rfl, -⟩ := hs
      exact h u₁ _ s j b rfl hfed hb

theorem Leads.of_seen {i : Nat} {a : Call P} (ha : l[i]? = some a) {x : PgfItem} (hx : x ∈ a.state.chart.seen)
    {Q : PgfItem → Prop} (hQ : Q x) : Leads l i [] Q := by
  refine ⟨.nil, fun j b hfed hb => ?_⟩
  obtain rfl := hfed.eq_of_nil
  rw [ha, Option.some.injEq] at hb
  exact hb ▸ ⟨x, hx, hQ⟩

theorem Leads.append {i : Nat} {a : Call P} (ha : l[i]? = some a) {u v : List PgfToken} {Q Q' : PgfItem → Prop}
    (h : Leads l i u Q) (h' : ∀ {j b x}, l[j]? = some b → x ∈ b.state.chart.seen → Q x → Leads l j v Q') :
    Leads l i (u ++ v) Q' := by
  have hnext : ∀ j b, Fed (logOf l) i u j → l[j]? = some b → Leads l j v Q' := by
    intro j b hfed hb
    obtain ⟨x, hx, hQ⟩ := h.2 j b hfed hb
    exact h' hb hx hQ
  refine ⟨h.1.append ha fun j b hfed hb => (hnext j b hfed hb).1, fun k c hfed hc => ?_⟩
  obtain ⟨j, hu, hv⟩ := hfed.split
  obtain ⟨b, hb⟩ := hu.exists_call ha
  exact (hnext j b hu hb).2 k c hv hc

/-! ## Reading a form -/

/-- The forms of a symbol that are tried when it begins. -/
def PgfSymbol.Tried : PgfSymbol → Nat → PgfTokens → Prop
  | KS tokens, alt, form => alt = 0 ∧ form = tokens
  | KP default_form alts, alt, form => (alt, form) ∈ (0, default_form) :: kp_alts default_form alts
  | _, _, _ => False

namespace PgfSymbol.Tried
variable {sym : PgfSymbol} {alt : Nat} {form : PgfTokens} {y : PgfItem} {tok : PgfToken}

theorem is_form (h : sym.Tried alt form) : sym.Form alt form := by
  cases sym with
  | KS tokens => exact h
  | KP dflt alts =>
    rcases List.mem_cons.1 h with h | h
    · exact .inl (Prod.mk.inj h)
    · obtain ⟨i, a, hi, ha, hf, -⟩ := mem_kp_alts.1 h
      exact .inr ⟨i, a, hi, ha, hf⟩
  | CAT d r => exact h.elim
  | LIT d r => exact h.elim
  | VAR d r => exact h.elim

theorem scan_forms (h : sym.Tried alt form) (hsym : y.curr_sym = some sym) (halt : y.tok_idx = 0 ∨ y.alt = alt) :
    ∃ forms, scan_forms y = .ok forms ∧ (alt, form) ∈ forms := by
  unfold Libpgf.scan_forms
  rw [hsym]
  cases sym with
  | KS tokens => exact ⟨_, rfl, by simp [h.1, h.2]⟩
  | KP dflt alts =>
    simp only
    split
    · exact ⟨_, rfl, h⟩
    rename_i hne
    have halt : y.alt = alt := halt.resolve_left hne
    rcases h.is_form with ⟨rfl, rfl⟩ | ⟨i, a, rfl, ha, rfl⟩
    · rw [if_pos halt]
      exact ⟨_, rfl, List.mem_singleton_self _⟩
    · rw [if_neg (by omega), halt]
      simp [Exec.deref, ha]
  | CAT d r => exact h.elim
  | LIT d r => exact h.elim
  | VAR d r => exact h.elim

theorem mapM_token_at {as : List (Nat × PgfTokens)} {idx : Nat} (h : ∀ a ∈ as, ∃ t, a.2[idx]? = some t) :
    ∃ toks, as.mapM (fun a => token_at a.2 idx) = .ok toks ∧ ∀ a ∈ as, ∀ t, a.2[idx]? = some t → some t ∈ toks := by
  induction as with
  | nil => exact ⟨[], rfl, by simp⟩
  | cons a as ih =>
    obtain ⟨t, ht⟩ := h a List.mem_cons_self
    obtain ⟨toks, htoks, hmem⟩ := ih fun b hb => h b (List.mem_cons_of_mem _ hb)
    refine ⟨some t :: toks, by simp [List.mapM_cons, token_at_some.2 ht, htoks], fun b hb t' ht' => ?_⟩
    rcases List.mem_cons.1 hb with rfl | hb
    · rw [ht, Option.some.injEq] at ht'
      exact ht' ▸ List.mem_cons_self
    · exact List.mem_cons_of_mem _ (hmem b hb t' ht')

theorem next_tokens (h : sym.Tried alt form) (hf : sym.Fits) (halt : y.tok_idx = 0 ∨ y.alt = alt)
    (htok : form[y.tok_idx]? = some tok) : ∃ toks, next_tokens y sym = .ok toks ∧ some tok ∈ toks := by
  cases sym with
  | KS tokens =>
    obtain ⟨-, rfl⟩ := h
    exact ⟨[some tok], by simp [Libpgf.next_tokens, token_at_some.2 htok], List.mem_singleton_self _⟩
  | KP dflt alts =>
    simp only [Libpgf.next_tokens]
    by_cases h0 : y.tok_idx = 0
    · rw [if_pos h0]
      rw [h0] at htok
      obtain ⟨hne, -, -, halts⟩ := hf
      obtain ⟨tok₀, htok₀⟩ : ∃ t, dflt[0]? = some t := by
        cases dflt with
        | nil => exact absurd rfl hne
        | cons t ts => exact ⟨t, rfl⟩
      have hfirst : ∀ a ∈ kp_alts dflt alts, ∃ t, a.2[0]? = some t := by
        rintro ⟨n, fm⟩ hm
        obtain ⟨i, a, -, ha, rfl, -⟩ := mem_kp_alts.1 hm
        have hne' := (halts a (List.mem_of_getElem? ha)).1
        cases hfm : a.form with
        | nil => exact absurd hfm hne'
        | cons t ts => exact ⟨t, rfl⟩
      obtain ⟨toks, htoks, hmem⟩ := mapM_token_at hfirst
      refine ⟨some tok₀ :: toks, by simp [token_at_some.2 htok₀, htoks], ?_⟩
      rcases List.mem_cons.1 h with h | h
      · cases h
        rw [htok₀, Option.some.injEq] at htok
        exact htok ▸ List.mem_cons_self
      · exact List.mem_cons_of_mem _ (hmem _ h tok htok)
    · have halt : y.alt = alt := halt.resolve_left h0
      rw [if_neg h0]
      rcases h.is_form with ⟨rfl, rfl⟩ | ⟨i, a, rfl, ha, rfl⟩
      · rw [if_pos halt]
        exact ⟨[some tok], by simp [token_at_some.2 htok], List.mem_singleton_self _⟩
      · rw [if_neg (by omega), halt]
        exact ⟨[some tok], by simp [ha, token_at_some.2 htok, Exec.deref], List.mem_singleton_self _⟩
  | CAT d r => exact h.elim
  | LIT d r => exact h.elim
  | VAR d r => exact h.elim

/-- An item before a form can read the next token of it. -/
theorem reads (h : sym.Tried alt form) (hy : y.Fits) (hsym : y.curr_sym = some sym) (halt : y.tok_idx = 0 ∨ y.alt = alt)
    (htok : form[y.tok_idx]? = some tok) : Reads y (some tok) := by
  obtain ⟨toks, ht, hm⟩ := h.next_tokens (hy.sym_fits hsym) halt htok
  obtain ⟨seq, hseq, -, hcurr, -⟩ := hy.row
  cases hp : y.base.prod with
  | APPLY f args =>
    rw [hp] at hseq
    exact ⟨f, args, seq, sym, toks, hp, hseq, hcurr.trans hsym, ht, hm⟩
  | COERCE c =>
    -- the row of a coercion has no form
    rw [hp, PgfProduction.row, Option.some.injEq] at hseq
    subst hseq
    have := List.mem_of_getElem? (hcurr.trans hsym)
    rw [List.mem_singleton] at this
    subst this
    exact h.elim

end PgfSymbol.Tried

/-- A form that is skipped repeats one that is tried. -/
theorem PgfSymbol.Form.tried {sym : PgfSymbol} {alt : Nat} {form : PgfTokens} (h : sym.Form alt form) :
    ∃ alt', sym.Tried alt' form := by
  cases sym with
  | CAT d r => exact h.elim
  | LIT d r => exact h.elim
  | VAR d r => exact h.elim
  | KS tokens => exact ⟨alt, h⟩
  | KP dflt alts =>
    by_cases hd : form = dflt
    · exact ⟨0, by rw [hd]; exact List.mem_cons_self⟩
    -- the first alternative with this form is tried
    have hex : ∃ n : Nat, ∃ a : PgfAlternative, alts[n]? = some a ∧ a.form = form := by
      rcases h with ⟨-, h⟩ | ⟨n, a, -, ha, rfl⟩
      · exact absurd h hd
      · exact ⟨n, a, ha, rfl⟩
    classical
    obtain ⟨a, ha, hform⟩ := Nat.find_spec hex
    refine ⟨Nat.find hex + 1, List.mem_cons_of_mem _ (mem_kp_alts.2 ⟨_, a, rfl, ha, hform.symm, ?_⟩)⟩
    simp only [kp_skip, ha, Bool.or_eq_false_iff, decide_eq_false_iff_not, List.any_eq_false, decide_eq_true_eq]
    refine ⟨fun he => hd (hform.symm.trans he), fun b hb he => ?_⟩
    obtain ⟨m, hm⟩ := List.getElem?_of_mem hb
    have hlt := (List.getElem?_eq_some_iff.1 hm).1
    rw [List.length_take] at hlt
    rw [List.getElem?_take_of_lt (by omega)] at hm
    exact Nat.find_min hex (by omega) ⟨b, hm, he.trans hform⟩

theorem yields_tried {sub : Nat → Nat → List PgfToken → Prop} {sym : PgfSymbol} {w : List PgfToken} (h : YieldsSym sub sym w)
    (hf : sym.Fits) : (∃ alt, sym.Tried alt w) ∨ ∃ d r, sym = .CAT d r ∧ sub d r w := by
  cases sym with
  | CAT d r => exact .inr ⟨d, r, rfl, h⟩
  | LIT d r => exact hf.elim
  | VAR d r => exact hf.elim
  | KS tokens => exact .inl ⟨0, rfl, h⟩
  | KP dflt alts =>
    rcases h with rfl | ⟨a, ha, rfl⟩
    · exact .inl ⟨0, List.mem_cons_self⟩
    · obtain ⟨n, hn⟩ := List.getElem?_of_mem ha
      have hform : (PgfSymbol.KP dflt alts).Form (n + 1) a.form := .inr ⟨n, a, rfl, hn, rfl⟩
      exact .inl hform.tried

theorem scanned_exists {y : PgfItem} (hy : y.Fits) {sym : PgfSymbol} (hsym : y.curr_sym = some sym) {tok : PgfToken} (alt : Nat)
    {form : PgfTokens} (htok : form[y.tok_idx]? = some tok) : ∃ x, scanned y tok alt form = .ok (some x) := by
  obtain ⟨seq, hseq, -, hcurr, -⟩ := hy.row
  have hlt := (List.getElem?_eq_some_iff.1 (hcurr.trans hsym)).1
  have hadv : pgf_item_base_symbol y.base ((y.seq_idx + 1) % 2 ^ 16) = .ok seq[y.seq_idx + 1]? := by
    rw [hy.seq_idx_succ hsym]
    exact pgf_item_base_symbol_ok.2 ⟨seq, hseq, hlt, rfl⟩
  unfold scanned
  rw [token_at_some.2 htok]
  simp only [Exec.ok_bind, ne_eq, not_true_eq_false, if_false]
  split
  · simp only [pgf_item_advance, hadv, Exec.ok_bind, Exec.pure_eq]
    exact ⟨_, rfl⟩
  · exact ⟨_, rfl⟩

section Items
variable (hP : P.concr.Fits) (hl : Session P l) {i : Nat} {a : Call P} (ha : l[i]? = some a) {y : PgfItem}
  (hy : y ∈ a.state.chart.seen)
include hP hl ha hy

/-- One token of a form. -/
theorem leads_token {sym : PgfSymbol} (hsym : y.curr_sym = some sym) {alt : Nat} {form : PgfTokens} (htry : sym.Tried alt form)
    (halt : y.tok_idx = 0 ∨ y.alt = alt) {tok : PgfToken} (htok : form[y.tok_idx]? = some tok) :
    Leads l i [tok] fun x => PgfItem.Fits.Scanned y x sym tok alt form := by
  have hyf := (hl.all_fits hP ha).seen y hy
  obtain ⟨T, hT, hm⟩ := (hl.processed ha hy).reads (htry.reads hyf hsym halt htok)
  constructor
  · intro u tok' v j b he hfed hb
    obtain ⟨rfl, htl⟩ : u = [] ∧ [tok] = tok' :: v := by
      cases u with
      | nil => exact ⟨rfl, he⟩
      | cons t u => simp at he
    cases htl
    obtain rfl := hfed.eq_of_nil
    rw [ha, Option.some.injEq] at hb
    exact hb ▸ ⟨T, hT⟩
  · intro j b hfed hb
    obtain ⟨i', C, hfed', hL⟩ := Fed.last (w := []) hfed
    obtain rfl := hfed'.eq_of_nil
    obtain ⟨b', hb', ho, -⟩ := logOf_getElem?.1 hL
    rw [hb, Option.some.injEq] at hb'
    subst hb'
    obtain ⟨forms, hforms, hmem⟩ := htry.scan_forms hsym halt
    obtain ⟨x, hx⟩ := scanned_exists hyf hsym alt htok
    have hle := hl.le_take ha (hl.token_lt hb ho)
    have hscan : b.origin.Scans (heapAfter (l.take j)) x := by
      rw [ho]
      exact ⟨T, y, forms, alt, form, hl.agenda_of ha hle hT, (held_iff hle ((hl.wf ha).held_lt hm)).2 hm, hforms, hmem, hx⟩
    obtain ⟨sym', hs⟩ := (hyf.scanned hforms hmem hx).2
    obtain rfl : sym = sym' := Option.some.inj (hsym.symm.trans hs.at_sym)
    exact ⟨x, (hl.finished hb).scanned x hscan, hs⟩

/-- The rest of a form. -/
theorem leads_form {sym : PgfSymbol} (hsym : y.curr_sym = some sym) {alt : Nat} {form : PgfTokens} (htry : sym.Tried alt form)
    (halt : y.tok_idx = 0 ∨ y.alt = alt) (hlt : y.tok_idx < form.length) :
    Leads l i (form.drop y.tok_idx) fun x =>
      x.base = y.base ∧ x.args = y.args ∧ x.seq_idx = y.seq_idx + 1 ∧ x.tok_idx = 0 := by
  induction hn : form.length - y.tok_idx generalizing y i a with
  | zero => omega
  | succ n ih =>
    have htok := List.getElem?_eq_getElem hlt
    have hdrop : form.drop y.tok_idx = [form[y.tok_idx]] ++ form.drop (y.tok_idx + 1) := List.drop_eq_getElem_cons hlt
    rw [hdrop]
    refine (leads_token hP hl ha hy hsym htry halt htok).append ha fun {j b x} hb hx hs => ?_
    rcases hs.idx with ⟨hlen, hsi, hti⟩ | ⟨hlt', hsi, hti, hc⟩
    · rw [hlen, List.drop_length]
      exact .of_seen hb hx ⟨hs.base, hs.args, hsi, hti⟩
    · have := ih hb hx (hc.trans hsym) (.inr hs.alt) (by omega) (by omega)
      rw [hti, hs.base, hs.args, hsi] at this
      exact this

end Items

/-! ## Reading a row -/

/-- A tree that a predicted category has is found: the tokens it yields are
expected, and lead to a category that has it too. -/
def Recognized (l : List (Call P)) (t : Tree) : Prop :=
  ∀ {i : Nat} {a : Call P} {c : PgfCCatId} {r : Nat} {K : PgfItemSetId} {w : List PgfToken}, l[i]? = some a →
    a.state.chart.conts c r = some K → TreeOf (heapAfter l).Prod c t → t.Yields r w → Expects l i w ∧
      ∀ j b, Fed (logOf l) i w j → l[j]? = some b → ∃ g, b.state.chart.gen K = some g ∧ TreeOf (heapAfter l).Prod g t

theorem Heap.no_trees {h : Heap P} {c : PgfCCatId} {ccat : PgfCCat} (hc : h.ccats[c]? = some ccat)
    (hn : ccat.prods.isNull = true) {t : Tree} : ¬ TreeOf h.Prod c t := by
  intro ht
  cases ht with
  | leaf h => exact h
  | node hp _ _ =>
    obtain ⟨ccat', hc', hm⟩ := hp
    rw [hc, Option.some.injEq] at hc'
    subst hc'
    unfold PgfProductions.isNull at hn
    split at hn
    · rename_i he
      simp [he, PgfProductions.elems] at hm
    · cases hn

section Rows
variable (hP : P.concr.Fits) (hl : Session P l) (hcov : Covered l) {ts : List Tree} (hts : ∀ t ∈ ts, Recognized l t)
include hP hl hcov hts

/-- An item that waits for an argument is moved over it. -/
theorem leads_arg {i : Nat} {a : Call P} (ha : l[i]? = some a) {y : PgfItem} (hy : y ∈ a.state.chart.seen) {d r : Nat}
    (hsym : y.curr_sym = some (.CAT d r)) (hlen : ts.length = y.args.length)
    (hargs : ArgTrees (heapAfter l).Prod y.args ts) {w : List PgfToken} (hw : argsYield ts d r w) :
    Leads l i w fun x => x.base = y.base ∧ x.seq_idx = y.seq_idx + 1 ∧ x.tok_idx = 0 ∧ ts.length = x.args.length ∧
      ArgTrees (heapAfter l).Prod x.args ts := by
  have hyf := (hl.all_fits hP ha).seen y hy
  obtain ⟨t, ht, hyield⟩ := hw
  have hd : d < y.args.length := hlen ▸ (List.getElem?_eq_some_iff.1 ht).1
  obtain ⟨parg, hparg⟩ : ∃ parg, y.args[d]? = some parg := ⟨_, List.getElem?_eq_getElem hd⟩
  have hct := hargs d _ t hparg ht
  rcases (hl.processed ha hy).awaits (hyf.awaits_of hsym hparg) with ⟨ccat, hcc, hnull⟩ | ⟨K, hK, hm⟩
  · refine absurd hct (Heap.no_trees ?_ hnull)
    have hlt : parg.ccat < a.state.heap.ccats.length := (List.getElem?_eq_some_iff.1 hcc).1
    rw [← prefix_getElem? (hl.heap_le ha).ccats hlt]
    exact hcc
  · obtain ⟨hexp, hgen⟩ := hts t (List.mem_of_getElem? ht) ha hK hct hyield
    refine ⟨hexp, fun j b hfed hb => ?_⟩
    obtain ⟨g, hg, hgt⟩ := hgen j b hfed hb
    obtain ⟨x, hx, hseen⟩ := hl.combined hcov hb hg (hl.held_of ha hm)
    obtain ⟨-, hb', -, hti, -, d', r', hsym', -, hxa⟩ := combined_ok hx
    rw [hsym, Option.some.injEq, PgfSymbol.CAT.injEq] at hsym'
    obtain ⟨rfl, rfl⟩ := hsym'
    refine ⟨x, hseen, hb', (hyf.combined hx).2, hti.trans (hyf.tok_idx_eq_zero hsym), by rw [hxa, List.length_set]; exact hlen,
      fun e q t' he ht' => ?_⟩
    by_cases hde : d = e
    · subst hde
      rw [hxa, List.getElem?_set_self hd] at he
      rw [ht, Option.some.injEq] at ht'
      rw [Option.some.injEq] at he
      subst he ht'
      exact hgt
    · rw [hxa, List.getElem?_set_ne hde] at he
      exact hargs e q t' he ht'

theorem leads_row {syms : PgfSequence} {w : List PgfToken} (hsyms : YieldsSeq (argsYield ts) syms w) :
    ∀ {i : Nat} {a : Call P} {y : PgfItem} {seq : PgfSequence}, l[i]? = some a → y ∈ a.state.chart.seen → y.tok_idx = 0 →
      y.base.prod.row y.base.lin_idx = some seq → seq.drop y.seq_idx = syms → ts.length = y.args.length →
      ArgTrees (heapAfter l).Prod y.args ts → Leads l i w fun x => x.base = y.base ∧ Complete x ∧
        ts.length = x.args.length ∧ ArgTrees (heapAfter l).Prod x.args ts := by
  induction hsyms with
  | nil =>
    intro i a y seq ha hy _ hseq hdrop hlen hargs
    obtain ⟨seq', hseq', hle, -⟩ := ((hl.all_fits hP ha).seen y hy).row
    obtain rfl : seq = seq' := Option.some.inj (hseq.symm.trans hseq')
    have hge := List.drop_eq_nil_iff.1 hdrop
    exact .of_seen ha hy ⟨rfl, complete_iff.2 ⟨seq, hseq, Nat.le_antisymm hle hge⟩, hlen, hargs⟩
  | @cons sym syms u v hs _ ih =>
    intro i a y seq ha hy h0 hseq hdrop hlen hargs
    have hyf := (hl.all_fits hP ha).seen y hy
    obtain ⟨seq', hseq', -, hcurr, -⟩ := hyf.row
    obtain rfl : seq = seq' := Option.some.inj (hseq.symm.trans hseq')
    have hsym : y.curr_sym = some sym := by
      rw [← hcurr, ← Nat.add_zero y.seq_idx, ← List.getElem?_drop, hdrop]
      rfl
    have hdrop' : seq.drop (y.seq_idx + 1) = syms := by
      rw [← List.drop_drop, hdrop]
      rfl
    -- what is left to do after the first symbol
    have hrest : ∀ {j b x}, l[j]? = some b → x ∈ b.state.chart.seen → x.base = y.base → x.seq_idx = y.seq_idx + 1 →
        x.tok_idx = 0 → ts.length = x.args.length → ArgTrees (heapAfter l).Prod x.args ts → Leads l j v fun x =>
          x.base = y.base ∧ Complete x ∧ ts.length = x.args.length ∧ ArgTrees (heapAfter l).Prod x.args ts := by
      intro j b x hb hx hbase hsi hti hlen' hargs'
      have := ih hb hx hti (by rw [hbase]; exact hseq) (by rw [hsi]; exact hdrop') hlen' hargs'
      rwa [hbase] at this
    rcases yields_tried hs (hyf.sym_fits hsym) with ⟨alt, htry⟩ | ⟨d, r, rfl, hsub⟩
    · have hpos : 0 < u.length := List.length_pos_iff.2 (htry.is_form.lt (hyf.sym_fits hsym)).1
      have hform := leads_form hP hl ha hy hsym htry (.inl h0) (by omega)
      rw [h0, List.drop_zero] at hform
      refine hform.append ha fun hb hx ⟨hbase, hxa, hsi, hti⟩ => ?_
      exact hrest hb hx hbase hsi hti (by rw [hxa]; exact hlen) (by rw [hxa]; exact hargs)
    · refine (leads_arg hP hl hcov hts ha hy hsym hlen hargs hsub).append ha ?_
      exact fun hb hx ⟨hbase, hsi, hti, hlen', hargs'⟩ => hrest hb hx hbase hsi hti hlen' hargs'

end Rows

theorem recognized (hP : P.concr.Fits) (hl : Session P l) (hcov : Covered l) (t : Tree) : Recognized l t := by
  induction hn : sizeOf t using Nat.strong_induction_on generalizing t with
  | _ n ih =>
    intro i a c r K w ha hK hct hy
    cases hct with
    | leaf h => exact h.elim
    | @node _ p ts hp hlen hts =>
      have hsub : ∀ t ∈ ts, Recognized l t := fun t ht => ih _ (hn ▸ mem_tree_lt hlen ht) t rfl
      obtain ⟨x, hx, hseen⟩ := hl.produced ha hK ((hl.prod_iff ha ((hl.wf ha).conts_lt hK).2).2 hp)
      obtain ⟨-, hb, hxa, hsi, hti, -⟩ := pgf_new_item_ok hx
      obtain ⟨seq, hseq, hyseq⟩ := (yields_tree hlen).1 hy
      obtain ⟨hexp, hlead⟩ := leads_row hP hl hcov hsub hyseq ha hseen hti (by rw [hb]; exact hseq)
        (by rw [hsi, List.drop_zero]) (by rw [hxa]; exact hlen) (by rw [hxa]; exact hts)
      refine ⟨hexp, fun j b hfed hbj => ?_⟩
      obtain ⟨z, hz, hbase, hcomp, hlen', hargs⟩ := hlead j b hfed hbj
      obtain ⟨q, g, hq, hg, hgq⟩ := (hl.processed hbj hz).complete hcomp
      have hqa := (((hl.all_fits hP hbj).seen z hz).completed_prod hq).2
      refine ⟨g, by rw [hbase, hb] at hg; exact hg, ?_⟩
      have htree : p.tree ts = q.tree ts := by
        rw [completed_prod_tree hq (by rw [hqa]; exact hlen'), hbase, hb]
      rw [htree]
      exact .node (hl.prod_of hbj hgq) (by rw [hqa]; exact hlen') (by rw [hqa]; exact hargs)

/-- If a tree of a category that a whole input may be yields `w`, then no token
of `w` is refused, and the state after `w` has a completed category with that tree. -/
theorem chart_complete (hP : P.concr.Fits) (hl : Session P l) (hcov : Covered l) {i : Nat} {a : Call P} {cat : PgfCId}
    {lin_idx : Nat} (ha : l[i]? = some a) (ho : a.origin = .parse cat lin_idx) {c : PgfCCatId}
    (hc : (Origin.parse cat lin_idx).Starts P c lin_idx) {t : Tree} (ht : TreeOf P.concr.Prod c t) {w : List PgfToken}
    (hy : t.Yields lin_idx w) :
    (∀ u tok v j fuel r, w = u ++ tok :: v → Fed (logOf l) i u j →
      pgf_parse_token fuel (heapAfter l) j tok = .ok r → r ≠ none) ∧
    ∀ j parse, Fed (logOf l) i w j → (heapAfter l).parses[j]? = some parse →
      ∃ g ∈ parse.completed, TreeOf (heapAfter l).Prod g t := by
  have ht' : TreeOf (heapAfter l).Prod c t := ht.mono fun _ _ h => hl.concr_prod h
  obtain ⟨K, hK, hnull⟩ : ∃ K, a.state.chart.conts c lin_idx = some K ∧ none ∈ a.state.chart.held K := by
    rcases (hl.finished ha).started c lin_idx (ho ▸ hc) with ⟨ccat, hcc, hn⟩ | h
    · refine absurd ht' (Heap.no_trees ?_ hn)
      have hlt : c < a.state.heap.ccats.length := (List.getElem?_eq_some_iff.1 hcc).1
      rw [← prefix_getElem? (hl.heap_le ha).ccats hlt]
      exact hcc
    · exact h
  obtain ⟨hexp, hgen⟩ := recognized hP hl hcov t ha hK ht' hy
  constructor
  · rintro u tok v j fuel r he hfed hr rfl
    obtain ⟨b, hb⟩ := hfed.exists_call ha
    obtain ⟨T, hT⟩ := hexp u tok v j b he hfed hb
    obtain ⟨parse, hp, htr⟩ := hl.agenda_of hb (hl.heap_le hb) hT
    simp [pgf_parse_token, hp, htr, Exec.bind_ok] at hr
  · intro j parse hfed hp
    obtain ⟨b, hb, hcomp, -⟩ := hl.parse_call hp
    obtain ⟨g, hg, hgt⟩ := hgen j b hfed hb
    exact ⟨g, hcomp ▸ hl.combined hcov hb hg (hl.held_of ha hnull), hgt⟩

namespace Tiny

/-- The tree of `c b`. -/
def tree : Tree := .apply f [.apply a []]

theorem tree_derives : TreeOf concr.Prod 0 tree := by
  have ha : TreeOf concr.Prod 1 (.apply a []) :=
    Derives.node (p := .APPLY a []) ⟨_, rfl, List.mem_singleton_self _⟩ rfl (by simp [prod_args])
  refine Derives.node (p := .APPLY f [⟨[], 1⟩]) ⟨_, rfl, List.mem_singleton_self _⟩ rfl fun d parg t hd ht => ?_
  cases d with
  | zero =>
    cases hd
    cases ht
    exact ha
  | succ d => simp [prod_args] at hd

theorem tree_yields : tree.Yields 0 [[99], [98]] := by
  have ha : (Tree.apply a []).Yields 0 [[99]] := by
    simp only [Tree.Yields]
    exact ⟨_, rfl, .single (.inr ⟨_, List.mem_singleton_self _, rfl⟩)⟩
  simp only [tree, Tree.Yields]
  exact ⟨_, rfl, .cons (u := [[99]]) (v := [[98]]) ⟨Nat.zero_lt_one, ha⟩ (.single rfl)⟩

theorem fits : concr.Fits := by
  rintro c p ⟨ccat, hc, hp⟩
  match c with
  | 0 =>
    cases hc
    simp only [PgfProductions.elems, List.mem_singleton] at hp
    subst hp
    simp [PgfProduction.Fits, PgfCncFun.Fits, f, PgfSymbol.Fits]
  | 1 =>
    cases hc
    simp only [PgfProductions.elems, List.mem_singleton] at hp
    subst hp
    simp [PgfProduction.Fits, PgfCncFun.Fits, a, PgfSymbol.Fits]
  | c + 2 => simp [concr] at hc

/-- The session that parses `c b`; all its enumerations are stable. -/
theorem session : ∃ l : List (Call parser), Session parser l ∧ l.map Call.origin = calls ∧ Covered l := by
  obtain ⟨l, hl, hcheck⟩ := Session.of_check 20 calls (fun l : List (Call parser) =>
    decide (l.map Call.origin = calls) && l.all fun c => c.state.enums.all fun e => e.rounds.all EnumRound.unchanged)
    (by decide +kernel)
  simp only [Bool.and_eq_true, decide_eq_true_eq, List.all_eq_true] at hcheck
  refine ⟨l, hl, hcheck.1, fun c hc e he => ?_⟩
  obtain ⟨n, hn⟩ := List.getElem?_of_mem hc
  exact Enumeration.Stable.covers (fun r hr => EnumRound.stable_of_unchanged (hcheck.2 c hc e he r hr)) ((hl.called hn).enums e he)

theorem fed {l : List (Call parser)} (h : l.map Call.origin = calls) :
    (∃ a, l[0]? = some a ∧ a.origin = .parse [83] 0) ∧ Fed (logOf l) 0 [[99], [98]] 2 := by
  have horigin : ∀ {i : Nat} {o : Origin}, calls[i]? = some o → ∃ a : Call parser, l[i]? = some a ∧ a.origin = o := by
    intro i o ho
    rw [← h, List.getElem?_map, Option.map_eq_some_iff] at ho
    exact ho
  obtain ⟨b, hb, hbo⟩ := horigin (i := 1) rfl
  obtain ⟨c, hc, hco⟩ := horigin (i := 2) rfl
  refine ⟨horigin rfl, ?_⟩
  exact ((Fed.refl (i := 0)).token (logOf_getElem?.2 ⟨b, hb, hbo, rfl⟩)).token (logOf_getElem?.2 ⟨c, hc, hco, rfl⟩)

end Tiny

theorem chart_complete_tiny : ∃ (l : List (Call Tiny.parser)) (parse : PgfParse), Session Tiny.parser l ∧
    (heapAfter l).parses[2]? = some parse ∧ ∃ g ∈ parse.completed, TreeOf (heapAfter l).Prod g Tiny.tree := by
  obtain ⟨l, hl, ho, hcov⟩ := Tiny.session
  obtain ⟨⟨a, ha, hao⟩, hfed⟩ := Tiny.fed ho
  have hlen : l.length = 3 := by simpa [Tiny.calls] using congrArg List.length ho
  have hp := List.getElem?_eq_getElem (l := (heapAfter l).parses) (i := 2) (by rw [hl.parses_length]; omega)
  have hstart : (Origin.parse [83] 0).Starts Tiny.parser 0 0 := ⟨rfl, 0, _, rfl, rfl, List.mem_singleton_self _⟩
  exact ⟨l, _, hl, hp, (chart_complete Tiny.fits hl hcov ha hao hstart Tiny.tree_derives Tiny.tree_yields).2 2 _ hfed hp⟩

end Libpgf
