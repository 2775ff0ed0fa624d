import Libpgf.Pgf.Completeness
/-!
# Filing and scanning

`pgf_parsing_symbol` files an item under the tokens that may come next, and
`pgf_parsing_scan` moves a filed item over one of them. Each works out for
itself, from the symbol of the item, its `tok_idx` and its `alt`, with which
forms the item can go on.
-/

namespace Libpgf

variable {P : PgfParser}

/-- The symbol is read token by token. -/
def PgfSymbol.HasForms : PgfSymbol → Prop
  | KS _ => True
  | KP _ _ => True
  | _ => False

/-- The form is one that the item can go on with: any at the start of the symbol, and the one of its `alt` inside. -/
def PgfItem.Selects (x : PgfItem) (sym : PgfSymbol) (form : PgfTokens) : Prop :=
  ∃ alt, sym.Form alt form ∧ (x.tok_idx = 0 ∨ x.alt = alt)

/-- Of the scans that `pgf_parsing_scan` tries one succeeds, and its final assertion holds. -/
def Scannable (x : PgfItem) (tok : PgfToken) : Prop :=
  ∃ forms, scan_forms x = .ok forms ∧ (∃ f ∈ forms, ∃ y, scanned x tok f.1 f.2 = .ok (some y)) ∧
    ∀ (P : PgfParser) (fuel : Nat) (s : PgfParsing P) (r : PgfParsing P × Bool),
      forEach (scan_form fuel x tok) forms (s, false) = .ok r → r.2 = true

/-- The item is filed under the tokens with which its forms go on, under nothing else, and can be scanned with each of them. -/
def FilesWell (x : PgfItem) (sym : PgfSymbol) : Prop :=
  ∃ toks, next_tokens x sym = .ok toks ∧
    (∀ t, t ∈ toks ↔ ∃ tok form, t = some tok ∧ x.Selects sym form ∧ form[x.tok_idx]? = some tok) ∧
    ∀ tok, some tok ∈ toks → Scannable x tok

/-- None of the forms that the item can go on with has ended. -/
def PgfItem.Unended (x : PgfItem) (sym : PgfSymbol) : Prop := ∀ form, x.Selects sym form → x.tok_idx < form.length

/-- A call on memory `h` may be about to process the item. -/
def Heap.Processing (h : Heap P) (o : Origin) (x : PgfItem) : Prop :=
  ∃ C, Chart.Steps (o.Scans h) (o.Starts P) h.chart C ∧ Chart.Justified (o.Scans h) C x

/-- A parse state files the item under the token, or under the null string. -/
def Heap.Files (h : Heap P) (p : Nat) (tok : Option PgfToken) (x : PgfItem) : Prop :=
  ∃ T, Origin.Agenda h p tok T ∧ h.Held T (some x)

/-- What a call has processed it was once about to process. -/
theorem Called.processing {h : Heap P} {o : Origin} {s : PgfParsing P} (hs : Called h o s) {x : PgfItem}
    (hx : x ∈ s.chart.seen) : h.Processing o x := by
  have main : ∀ C, Chart.Steps (o.Scans h) (o.Starts P) h.chart C → ∀ y ∈ C.seen, h.Processing o y := by
    intro C hC
    induction hC with
    | refl => exact fun y hy => hy.elim
    | @tail C C' hC hstep ih =>
      have hsee : ∀ {z}, Chart.Justified (o.Scans h) C z → ∀ y ∈ insert z C.seen, h.Processing o y := by
        rintro z hz y (rfl | hy)
        · exact ⟨C, hC, hz⟩
        · exact ih y hy
      cases hstep with
      | see hj _ _ => exact hsee hj
      | complete_new hj _ _ _ _ _ => exact hsee hj
      | complete_old hj _ _ _ _ _ _ => exact hsee hj
      | conts _ _ _ _ => exact ih
      | hold _ _ => exact ih
      | toks _ _ _ => exact ih
      | file _ _ _ => exact ih
      | accept _ _ => exact ih
  exact main s.chart hs.steps x hx

/-! ## The forms to go on with -/

/-- Filing and scanning agree on the forms. -/
theorem next_tokens_eq {x : PgfItem} {sym : PgfSymbol} (hsym : x.curr_sym = some sym) (hf : sym.HasForms) :
    next_tokens x sym = scan_forms x >>= fun forms => forms.mapM fun f => token_at f.2 x.tok_idx := by
  unfold scan_forms
  rw [hsym]
  cases sym with
  | CAT d r => exact hf.elim
  | LIT d r => exact hf.elim
  | VAR d r => exact hf.elim
  | KS tokens => simp [next_tokens]
  | KP dflt alts =>
    simp only [next_tokens]
    by_cases h0 : x.tok_idx = 0
    · simp [h0, List.mapM_cons]
    · by_cases ha : x.alt = 0
      · simp [h0, ha]
      · simp [h0, ha]

/-- A number that is at most that of a form is that of a form. -/
theorem PgfSymbol.Form.of_le {sym : PgfSymbol} {alt n : Nat} {form : PgfTokens} (h : sym.Form alt form) (hn : n ≤ alt) :
    ∃ form', sym.Form n form' := by
  cases sym with
  | CAT d r => exact h.elim
  | LIT d r => exact h.elim
  | VAR d r => exact h.elim
  | KS tokens => exact ⟨tokens, by have := h.1; omega, rfl⟩
  | KP dflt alts =>
    rcases h with ⟨rfl, -⟩ | ⟨i, a, rfl, ha, -⟩
    · exact ⟨dflt, .inl ⟨by omega, rfl⟩⟩
    cases n with
    | zero => exact ⟨dflt, .inl ⟨rfl, rfl⟩⟩
    | succ n =>
      have hlt := (List.getElem?_eq_some_iff.1 ha).1
      have hn := List.getElem?_eq_getElem (l := alts) (i := n) (by omega)
      exact ⟨_, .inr ⟨n, _, rfl, hn, rfl⟩⟩

/-- Between symbols, or inside a form that `alt` stands for. -/
structure PgfItem.Placed (x : PgfItem) : Prop where
  located : Located x
  inside : x.tok_idx = 0 ∨ ∃ sym form, x.curr_sym = some sym ∧ sym.Form x.alt form

/-- Scanning tries the forms that the item can go on with. -/
theorem PgfItem.Placed.scan_forms {x : PgfItem} (h : x.Placed) {sym : PgfSymbol} (hsym : x.curr_sym = some sym)
    (hf : sym.HasForms) : ∃ forms, scan_forms x = .ok forms ∧ ∀ form, x.Selects sym form ↔ ∃ alt, (alt, form) ∈ forms := by
  by_cases h0 : x.tok_idx = 0
  · -- at the start of the symbol
    have hall : ∀ forms : List (Nat × PgfTokens), (∀ alt form, sym.Tried alt form ↔ (alt, form) ∈ forms) →
        ∀ form, x.Selects sym form ↔ ∃ alt, (alt, form) ∈ forms := by
      intro forms htry form
      constructor
      · rintro ⟨alt, hform, -⟩
        obtain ⟨alt', h'⟩ := hform.tried
        exact ⟨alt', (htry _ _).1 h'⟩
      · rintro ⟨alt, hm⟩
        exact ⟨alt, ((htry _ _).2 hm).is_form, .inl h0⟩
    unfold Libpgf.scan_forms
    rw [hsym]
    cases sym with
    | CAT d r => exact hf.elim
    | LIT d r => exact hf.elim
    | VAR d r => exact hf.elim
    | KS tokens => exact ⟨_, rfl, hall _ fun alt form => by simp [PgfSymbol.Tried]⟩
    | KP dflt alts =>
      simp only [if_pos h0]
      exact ⟨_, rfl, hall _ fun alt form => .rfl⟩
  · -- inside a form
    obtain ⟨sym', form, hsym', hform⟩ := h.inside.resolve_left h0
    rw [hsym, Option.some.injEq] at hsym'
    subst hsym'
    have hone : ∀ form', x.Selects sym form' ↔ ∃ n, (n, form') ∈ [(x.alt, form)] := by
      intro form'
      constructor
      · rintro ⟨alt, hform', halt⟩
        obtain rfl := halt.resolve_left h0
        exact ⟨_, by rw [hform.unique hform']; exact List.mem_singleton_self _⟩
      · rintro ⟨n, hn⟩
        rw [List.mem_singleton, Prod.mk.injEq] at hn
        exact ⟨x.alt, hn.2 ▸ hform, .inr rfl⟩
    refine ⟨[(x.alt, form)], ?_, hone⟩
    unfold Libpgf.scan_forms
    rw [hsym]
    cases sym with
    | CAT d r => exact hf.elim
    | LIT d r => exact hf.elim
    | VAR d r => exact hf.elim
    | KS tokens => rw [hform.1, hform.2]
    | KP dflt alts =>
      simp only [if_neg h0]
      rcases hform with ⟨halt, rfl⟩ | ⟨i, a, halt, ha, rfl⟩
      · rw [if_pos halt, halt]
      · rw [if_neg (by omega), halt, Nat.add_sub_cancel, ha]
        rfl

theorem mapM_ok {α β : Type} {as : List α} {g : α → Exec β} {bs : List β} : as.mapM g = .ok bs ↔ as.map g = bs.map .ok := by
  induction as generalizing bs with
  | nil => cases bs <;> simp
  | cons a as ih =>
    rw [List.mapM_cons, List.map_cons]
    cases bs with
    | nil => simp [Exec.bind_ok]
    | cons b bs =>
      simp only [Exec.bind_ok, ih, Exec.pure_eq, Except.ok.injEq, List.map_cons, List.cons.injEq]
      constructor
      · rintro ⟨b', hb, bs', hbs, rfl, rfl⟩
        exact ⟨hb, hbs⟩
      · rintro ⟨hb, hbs⟩
        exact ⟨b, hb, bs, hbs, rfl, rfl⟩

/-- The item can be moved over the next token of a form. -/
theorem PgfItem.Placed.scanned {x : PgfItem} (h : x.Placed) {sym : PgfSymbol} (hsym : x.curr_sym = some sym) {tok : PgfToken}
    (alt : Nat) {form : PgfTokens} (htok : form[x.tok_idx]? = some tok) : ∃ y, scanned x tok alt form = .ok (some y) := by
  obtain ⟨seq, hseq, -, hcurr⟩ := located_iff.1 h.located
  have hlt := (List.getElem?_eq_some_iff.1 (hcurr.trans hsym)).1
  -- also a position that wraps is one in the row
  have hle : (x.seq_idx + 1) % 2 ^ 16 ≤ seq.length := (Nat.mod_le _ _).trans hlt
  have hadv : pgf_item_base_symbol x.base ((x.seq_idx + 1) % 2 ^ 16) = .ok seq[(x.seq_idx + 1) % 2 ^ 16]? :=
    pgf_item_base_symbol_ok.2 ⟨seq, hseq, hle, rfl⟩
  unfold Libpgf.scanned
  rw [token_at_some.2 htok]
  simp only [Exec.ok_bind, ne_eq, not_true_eq_false, if_false]
  split
  · simp only [pgf_item_advance, hadv, Exec.ok_bind, Exec.pure_eq]
    exact ⟨_, rfl⟩
  · exact ⟨_, rfl⟩

/-- A scan that succeeds is remembered. -/
theorem scan_form_true {x : PgfItem} {tok : PgfToken} {fuel : Nat} {forms : List (Nat × PgfTokens)} {s : PgfParsing P}
    {b : Bool} {r : PgfParsing P × Bool} (h : forEach (scan_form fuel x tok) forms (s, b) = .ok r)
    (hb : b = true ∨ ∃ f ∈ forms, ∃ y, scanned x tok f.1 f.2 = .ok (some y)) : r.2 = true := by
  induction forms generalizing s b with
  | nil =>
    simp only [forEach_nil, Except.ok.injEq] at h
    subst h
    simpa using hb
  | cons f forms ih =>
    obtain ⟨⟨s', b'⟩, h₁, h₂⟩ := Exec.bind_ok.1 h
    obtain ⟨⟨s'', b''⟩, hs, he⟩ := Exec.bind_ok.1 h₁
    simp only [Exec.pure_eq, Except.ok.injEq, Prod.mk.injEq] at he
    obtain ⟨rfl, rfl⟩ := he
    refine ih h₂ ?_
    rcases hb with rfl | ⟨g, hg, hy⟩
    · exact .inl rfl
    rcases List.mem_cons.1 hg with rfl | hg
    · obtain ⟨-, -, -, rfl⟩ | ⟨hn, -⟩ := scan_toks_ok hs
      · exact .inl (Bool.or_true b)
      · obtain ⟨y, hy⟩ := hy
        rw [hy] at hn
        cases hn
    · exact .inr ⟨g, hg, hy⟩

namespace PgfItem.Placed
variable {x : PgfItem} {sym : PgfSymbol} {form : PgfTokens}

theorem scannable (h : x.Placed) (hsym : x.curr_sym = some sym) (hf : sym.HasForms) (hs : x.Selects sym form) {t : PgfToken}
    (ht : form[x.tok_idx]? = some t) : Scannable x t := by
  obtain ⟨forms, hforms, hall⟩ := h.scan_forms hsym hf
  obtain ⟨alt, hm⟩ := (hall form).1 hs
  have hone : ∃ f ∈ forms, ∃ y, Libpgf.scanned x t f.1 f.2 = .ok (some y) := ⟨_, hm, h.scanned hsym alt ht⟩
  exact ⟨forms, hforms, hone, fun P fuel s r hr => scan_form_true hr (.inr hone)⟩

/-- What an item is filed under. -/
theorem mem_next_tokens (h : x.Placed) (hsym : x.curr_sym = some sym) (hf : sym.HasForms) {toks : List (Option PgfToken)}
    (hn : next_tokens x sym = .ok toks) {t : Option PgfToken} :
    t ∈ toks ↔ ∃ form, x.Selects sym form ∧ token_at form x.tok_idx = .ok t := by
  obtain ⟨forms, hforms, hall⟩ := h.scan_forms hsym hf
  rw [next_tokens_eq hsym hf, hforms, Exec.ok_bind, mapM_ok] at hn
  have hmem : t ∈ toks ↔ (Except.ok t : Exec (Option PgfToken)) ∈ forms.map fun f => token_at f.2 x.tok_idx := by
    rw [hn]
    simp
  rw [hmem, List.mem_map]
  constructor
  · rintro ⟨⟨alt, form⟩, hm, ht⟩
    exact ⟨form, (hall form).2 ⟨alt, hm⟩, ht⟩
  · rintro ⟨form, hs, ht⟩
    obtain ⟨alt, hm⟩ := (hall form).1 hs
    exact ⟨(alt, form), hm, ht⟩

/-- What can be read of each form, when the tokens are. -/
theorem form_read (h : x.Placed) (hsym : x.curr_sym = some sym) (hf : sym.HasForms) {toks : List (Option PgfToken)}
    (hn : next_tokens x sym = .ok toks) (hs : x.Selects sym form) : ∃ t ∈ toks, token_at form x.tok_idx = .ok t := by
  obtain ⟨forms, hforms, hall⟩ := h.scan_forms hsym hf
  rw [next_tokens_eq hsym hf, hforms, Exec.ok_bind, mapM_ok] at hn
  obtain ⟨alt, hm⟩ := (hall form).1 hs
  have hmem : token_at form x.tok_idx ∈ toks.map Except.ok :=
    hn ▸ List.mem_map_of_mem (f := fun f : Nat × PgfTokens => token_at f.2 x.tok_idx) hm
  obtain ⟨t, ht, heq⟩ := List.mem_map.1 hmem
  exact ⟨t, ht, heq.symm⟩

/-- The tokens can be read when no form has ended. -/
theorem next_tokens_exists (h : x.Placed) (hsym : x.curr_sym = some sym) (hf : sym.HasForms) (hu : x.Unended sym) :
    ∃ toks, next_tokens x sym = .ok toks := by
  obtain ⟨forms, hforms, hall⟩ := h.scan_forms hsym hf
  refine ⟨forms.map fun f => f.2[x.tok_idx]?, ?_⟩
  rw [next_tokens_eq hsym hf, hforms, Exec.ok_bind, mapM_ok, List.map_map]
  refine List.map_congr_left fun f hm => ?_
  have hlt := hu f.2 ((hall f.2).2 ⟨f.1, hm⟩)
  show token_at f.2 x.tok_idx = .ok f.2[x.tok_idx]?
  rw [List.getElem?_eq_getElem hlt]
  exact token_at_some.2 (List.getElem?_eq_getElem hlt)

/-- Where no form has ended, only tokens are read. -/
theorem mem_of_unended (h : x.Placed) (hsym : x.curr_sym = some sym) (hf : sym.HasForms) (hu : x.Unended sym)
    {toks : List (Option PgfToken)} (hn : next_tokens x sym = .ok toks) {t : Option PgfToken} :
    t ∈ toks ↔ ∃ tok form, t = some tok ∧ x.Selects sym form ∧ form[x.tok_idx]? = some tok := by
  rw [h.mem_next_tokens hsym hf hn]
  constructor
  · rintro ⟨form, hs, ht⟩
    cases t with
    | some tok => exact ⟨tok, form, rfl, hs, token_at_some.1 ht⟩
    | none =>
      have hlt := hu form hs
      obtain ⟨rfl, -⟩ := token_at_none.1 ht
      exact absurd hlt (Nat.not_lt_zero _)
  · rintro ⟨tok, form, rfl, hs, ht⟩
    exact ⟨form, hs, token_at_some.2 ht⟩

theorem filesWell_iff (h : x.Placed) (hsym : x.curr_sym = some sym) (hf : sym.HasForms) :
    FilesWell x sym ↔ x.Unended sym := by
  constructor
  · rintro ⟨toks, hn, hmem, -⟩ form hs
    obtain ⟨t, ht, hform⟩ := h.form_read hsym hf hn hs
    obtain ⟨tok, -, rfl, -⟩ := (hmem t).1 ht
    exact (List.getElem?_eq_some_iff.1 (token_at_some.1 hform)).1
  · intro hu
    obtain ⟨toks, hn⟩ := h.next_tokens_exists hsym hf hu
    refine ⟨toks, hn, fun t => h.mem_of_unended hsym hf hu hn, fun tok ht => ?_⟩
    obtain ⟨_, form, heq, hs, hform⟩ := (h.mem_of_unended hsym hf hu hn).1 ht
    cases heq
    exact h.scannable hsym hf hs hform

end PgfItem.Placed

/-! ## The items of a session -/

namespace PgfItem.Placed
variable {x y k : PgfItem}

theorem new {base : PgfItemBase} (hx : pgf_new_item base = .ok x) : x.Placed := by
  obtain ⟨hl, -, -, -, ht, -⟩ := pgf_new_item_ok hx
  exact ⟨hl, .inl ht⟩

theorem combined (h : k.Placed) {g : PgfCCatId} (hx : combined k g = .ok x) : x.Placed ∧ x.tok_idx = 0 := by
  obtain ⟨hl, -, -, ht, -, d, r, hsym, -⟩ := combined_ok hx
  have h0 : x.tok_idx = 0 := by
    rw [ht]
    rcases h.inside with h0 | ⟨sym, form, hs, hform⟩
    · exact h0
    · -- a category has no forms
      rw [hsym, Option.some.injEq] at hs
      subst hs
      exact hform.elim
  exact ⟨⟨hl, .inl h0⟩, h0⟩

/-- The number of an alternative, cut to a byte, still is that of a form. -/
theorem scan {forms : List (Nat × PgfTokens)} {tok : PgfToken} {alt : Nat} {form : PgfTokens} (h : y.Placed)
    (hf : Libpgf.scan_forms y = .ok forms) (hm : (alt, form) ∈ forms) (hx : Libpgf.scanned y tok alt form = .ok (some x)) :
    x.Placed := by
  obtain ⟨sym, hsym, hform, -⟩ := scan_forms_form hf hm
  obtain ⟨-, hb, -, halt, ⟨-, hl, -, ht⟩ | ⟨-, hc, hs, -⟩⟩ := scanned_ok hx
  · exact ⟨hl, .inl ht⟩
  · have hl : Located x := by
      unfold Located
      rw [hb, hs, hc]
      exact h.located
    obtain ⟨form', hform'⟩ := hform.of_le (Nat.mod_le alt (2 ^ 8))
    exact ⟨hl, .inr ⟨sym, form', hc.trans hsym, halt ▸ hform'⟩⟩

end PgfItem.Placed

/-- A symbol whose alternatives can be counted in `alt`. -/
def PgfSymbol.Numbered : PgfSymbol → Prop
  | KP _ alts => alts.length < 2 ^ 8
  | _ => True

def PgfProduction.Numbered (p : PgfProduction) : Prop := ∀ r seq, p.row r = some seq → ∀ sym ∈ seq, sym.Numbered

/-- Inside a form there is a token left. -/
structure PgfItem.Counted (x : PgfItem) : Prop extends x.Placed where
  numbered : x.base.prod.Numbered
  unended : x.tok_idx ≠ 0 → ∀ sym, x.curr_sym = some sym → x.Unended sym

theorem PgfItem.Counted.scan {x y : PgfItem} {forms : List (Nat × PgfTokens)} {tok : PgfToken} {alt : Nat} {form : PgfTokens}
    (h : y.Counted) (hf : scan_forms y = .ok forms) (hm : (alt, form) ∈ forms) (hx : scanned y tok alt form = .ok (some x)) :
    x.Counted := by
  have hp := h.toPlaced.scan hf hm hx
  obtain ⟨sym, hsym, hform, -⟩ := scan_forms_form hf hm
  obtain ⟨htok, hb, -, halt, hidx⟩ := scanned_ok hx
  refine { hp with numbered := hb ▸ h.numbered, unended := fun hne sym' hsym' form' hs => ?_ }
  obtain ⟨-, -, -, ht⟩ | ⟨hlen, hc, -, ht⟩ := hidx
  · exact absurd ht hne
  rw [hc, hsym, Option.some.injEq] at hsym'
  subst hsym'
  have hlt : alt < 2 ^ 8 := by
    obtain ⟨seq, hseq, -, hcurr⟩ := located_iff.1 h.located
    have hnum := h.numbered _ seq hseq sym (List.mem_of_getElem? (hcurr.trans hsym))
    cases sym with
    | CAT d r => exact hform.elim
    | LIT d r => exact hform.elim
    | VAR d r => exact hform.elim
    | KS tokens =>
      rw [hform.1]
      decide
    | KP dflt alts =>
      rcases hform with ⟨rfl, -⟩ | ⟨i, a, rfl, ha, -⟩
      · decide
      · have := (List.getElem?_eq_some_iff.1 ha).1
        simp only [PgfSymbol.Numbered] at hnum
        omega
  obtain ⟨alt', hform', halt'⟩ := hs
  rw [Nat.mod_eq_of_lt hlt] at halt
  obtain rfl := (halt'.resolve_left hne).symm.trans halt
  rw [hform'.unique hform]
  have := (List.getElem?_eq_some_iff.1 htok).1
  rw [ht] at hne ⊢
  omega

/-- A filed item stands before a symbol with forms. -/
theorem Reads.next_tokens {x : PgfItem} {t : Option PgfToken} (h : Reads x t) (hx : x.Placed) :
    ∃ sym toks, x.curr_sym = some sym ∧ sym.HasForms ∧ next_tokens x sym = .ok toks ∧ t ∈ toks := by
  obtain ⟨f, args, seq, sym, toks, hprod, hseq, hsym, hn, ht⟩ := h
  obtain ⟨seq', hseq', -, hcurr⟩ := located_iff.1 hx.located
  rw [hprod, PgfProduction.row, hseq, Option.some.injEq] at hseq'
  subst hseq'
  refine ⟨sym, toks, hcurr.symm.trans hsym, ?_, hn, ht⟩
  have hnil : Libpgf.next_tokens x sym = .ok [] → sym.HasForms := by
    intro he
    rw [hn, Except.ok.injEq] at he
    simp [he] at ht
  cases sym with
  | KS tokens => trivial
  | KP dflt alts => trivial
  | CAT d r => exact hnil rfl
  | LIT d r => exact hnil rfl
  | VAR d r => exact hnil rfl

/-- An item whose forms have not ended can read the next token of each. -/
theorem PgfItem.Placed.reads {x : PgfItem} (h : x.Placed) {sym : PgfSymbol} (hsym : x.curr_sym = some sym)
    (hu : x.Unended sym) {form : PgfTokens} (hs : x.Selects sym form) {t : PgfToken} (ht : form[x.tok_idx]? = some t) :
    Reads x (some t) := by
  have hf : sym.HasForms := by
    obtain ⟨alt, hform, -⟩ := hs
    cases sym with
    | KS tokens => trivial
    | KP dflt alts => trivial
    | CAT d r => exact hform.elim
    | LIT d r => exact hform.elim
    | VAR d r => exact hform.elim
  obtain ⟨toks, hn⟩ := h.next_tokens_exists hsym hf hu
  have hmem := (h.mem_next_tokens hsym hf hn).2 ⟨form, hs, token_at_some.2 ht⟩
  obtain ⟨seq, hseq, -, hcurr⟩ := located_iff.1 h.located
  cases hp : x.base.prod with
  | APPLY f args =>
    rw [hp] at hseq
    exact ⟨f, args, seq, sym, toks, hp, hseq, hcurr.trans hsym, hn, hmem⟩
  | COERCE c =>
    -- the row of a coercion has no form
    rw [hp, PgfProduction.row, Option.some.injEq] at hseq
    subst hseq
    have hcat := List.mem_of_getElem? (hcurr.trans hsym)
    rw [List.mem_singleton] at hcat
    subst hcat
    exact hf.elim

section Inherit
variable {I : PgfItem → Prop} {Q : PgfProduction → Prop} {l : List (Call P)}
  (hi : ∀ (h : Heap P) (o : Origin), (∀ K x, h.Held K (some x) → I x) → Chart.Inherited (o.Scans h) I Q)
  (hQ : ∀ c p, P.concr.Prod c p → Q p)
include hi hQ

/-- What predicting, combining and scanning hand on holds of all items and productions in memory. -/
theorem Session.inherits (hl : Session P l) :
    (∀ K x, (heapAfter l).Held K (some x) → I x) ∧ ∀ c p, (heapAfter l).Prod c p → Q p := by
  refine hl.inv (I := fun h => (∀ K x, h.Held K (some x) → I x) ∧ ∀ c p, h.Prod c p → Q p) ⟨?_, hQ⟩ fun {h o s} hh hs => ?_
  · rintro K x ⟨set, hs, -⟩
    simp [newHeap] at hs
  · have h0 : h.chart.All I Q := ⟨fun _ hx => hx.elim, hh.1, hh.2⟩
    have hall := h0.steps (hi h o hh.1) hs.steps
    exact ⟨hall.held, hall.prods⟩

/-- It holds of the items that a call is about to process. -/
theorem Session.processing (hl : Session P l) {o : Origin} {x : PgfItem} (hx : (heapAfter l).Processing o x) : I x := by
  obtain ⟨hheld, hprods⟩ := hl.inherits hi hQ
  obtain ⟨C, hsteps, hj⟩ := hx
  have h0 : (heapAfter l).chart.All I Q := ⟨fun _ hx => hx.elim, hheld, hprods⟩
  have hin := hi _ o hheld
  have hall := h0.steps hin hsteps
  cases hj with
  | scanned hx => exact hin.scanned hx
  | predicted _ hp hx => exact hin.new (hall.prods _ _ hp) hx
  | combined _ hk hx => exact hin.combined (hall.held _ _ hk) hx

/-- It holds of the items that a call has processed. -/
theorem Session.seen (hl : Session P l) {i : Nat} {c : Call P} (hc : l[i]? = some c) {x : PgfItem}
    (hx : x ∈ c.state.chart.seen) : I x :=
  (hl.at_call hc).init.processing hi hQ ((hl.called hc).processing hx)

end Inherit

theorem inherited_placed (h : Heap P) (o : Origin) (hheld : ∀ K x, h.Held K (some x) → x.Placed) :
    Chart.Inherited (o.Scans h) PgfItem.Placed fun _ => True where
  new _ hx := .new hx
  combined hk hx := (hk.combined hx).1
  scanned {x} hx := by
    cases o with
    | parse cat lin_idx => exact hx.elim
    | token p tok =>
      obtain ⟨T, y, forms, alt, toks, -, hy, hf, hm, hx⟩ := hx
      exact (hheld T y hy).scan hf hm hx
  completed _ _ _ := trivial

theorem inherited_counted (h : Heap P) (o : Origin) (hheld : ∀ K x, h.Held K (some x) → x.Counted) :
    Chart.Inherited (o.Scans h) PgfItem.Counted PgfProduction.Numbered where
  new {K c p r x} hp hx := by
    obtain ⟨-, hb, -, -, ht, -⟩ := pgf_new_item_ok hx
    exact { PgfItem.Placed.new hx with numbered := hb ▸ hp, unended := fun hne => absurd ht hne }
  combined {k g x} hk hx := by
    obtain ⟨hp, h0⟩ := hk.toPlaced.combined hx
    obtain ⟨-, hb, -⟩ := combined_ok hx
    exact { hp with numbered := hb ▸ hk.numbered, unended := fun hne => absurd h0 hne }
  scanned {x} hx := by
    cases o with
    | parse cat lin_idx => exact hx.elim
    | token p tok =>
      obtain ⟨T, y, forms, alt, toks, -, hy, hf, hm, hx⟩ := hx
      exact (hheld T y hy).scan hf hm hx
  completed hx _ hp := fun r seq hrow => hx.numbered r seq (completed_prod_row hp r ▸ hrow)

/-- In whatever session, an item that a call is about to process is filed well exactly when none of the forms that it can go
on with has ended: at the start of a symbol, when none of its forms is empty. (Inside a form that cannot fail, as long as no
symbol of the grammar has more alternatives than `alt` can count.) Every item that a parse state files under a token can be
scanned with it, one that it files under the null string has an empty form, and one whose forms have not ended is filed under
the next token of each of them. -/
theorem filed_items_scan {l : List (Call P)} (hl : Session P l) :
    (∀ o x sym, (heapAfter l).Processing o x → x.curr_sym = some sym → sym.HasForms → (FilesWell x sym ↔ x.Unended sym)) ∧
    ((∀ c p, P.concr.Prod c p → p.Numbered) → ∀ o x sym, (heapAfter l).Processing o x → x.curr_sym = some sym →
      x.tok_idx ≠ 0 → x.Unended sym) ∧
    (∀ p t x, (heapAfter l).Files p (some t) x → ∃ sym form, x.curr_sym = some sym ∧ x.Selects sym form ∧
      form[x.tok_idx]? = some t ∧ Scannable x t) ∧
    (∀ p x, (heapAfter l).Files p none x → ∃ sym, x.curr_sym = some sym ∧ x.Selects sym [] ∧ x.tok_idx = 0) ∧
    ∀ i c x sym form t, l[i]? = some c → x ∈ c.state.chart.seen → x.curr_sym = some sym → x.Unended sym →
      x.Selects sym form → form[x.tok_idx]? = some t → (heapAfter l).Files i (some t) x := by
  have hplaced : ∀ c p, P.concr.Prod c p → True := fun _ _ _ => trivial
  have hfiled : ∀ p t x, (heapAfter l).Files p t x → ∃ sym form, x.curr_sym = some sym ∧ sym.HasForms ∧ x.Placed ∧
      x.Selects sym form ∧ token_at form x.tok_idx = .ok t := by
    rintro p t x ⟨T, hT, hx⟩
    have hp := (hl.inherits inherited_placed hplaced).1 T x hx
    obtain ⟨c, -, -, hheld⟩ := hl.agenda hT
    obtain ⟨x', he, -, hr⟩ := hheld _ hx
    cases he
    obtain ⟨sym, toks, hsym, hf, hn, ht⟩ := hr.next_tokens hp
    obtain ⟨form, hs, hform⟩ := (hp.mem_next_tokens hsym hf hn).1 ht
    exact ⟨sym, form, hsym, hf, hp, hs, hform⟩
  refine ⟨fun o x sym hx hsym hf => ?_, fun hnum o x sym hx hsym hne => ?_, fun p t x hx => ?_, fun p x hx => ?_,
    fun i c x sym form t hc hx hsym hu hs ht => ?_⟩
  · exact (hl.processing inherited_placed hplaced hx).filesWell_iff hsym hf
  · exact (hl.processing inherited_counted hnum hx).unended hne sym hsym
  · obtain ⟨sym, form, hsym, hf, hp, hs, hform⟩ := hfiled p (some t) x hx
    exact ⟨sym, form, hsym, hs, token_at_some.1 hform, hp.scannable hsym hf hs (token_at_some.1 hform)⟩
  · obtain ⟨sym, form, hsym, -, -, hs, hform⟩ := hfiled p none x hx
    obtain ⟨rfl, h0⟩ := token_at_none.1 hform
    exact ⟨sym, hsym, hs, h0⟩
  · have hp := hl.seen inherited_placed hplaced hc hx
    obtain ⟨T, hT, hm⟩ := (hl.processed hc hx).reads (hp.reads hsym hu hs ht)
    exact ⟨T, hl.agenda_of hc (hl.heap_le hc) hT, (held_iff (hl.heap_le hc) ((hl.wf hc).held_lt hm)).2 hm⟩

/-! ## A form without tokens -/

namespace Hollow

def f : PgfCncFun := { fun_ := [102], lins := [[.KS []]], fid := 0 }

def concr : PgfConcr where
  ccatMem := [⟨some 0, .seq [.APPLY f []], 0⟩]
  cnccatMem := [⟨[83], [some 0], 1, [[115]]⟩]
  cnccats := [([83], 0)]
  extra_ccats := []
  prods_fixed := by decide
  prods_valid := by decide
  cats_valid := by decide

def parser : PgfParser := ⟨concr, fun _ => 0⟩

/-- The item of the only production. -/
def item : PgfItem := ⟨⟨0, 0, .APPLY f [], 0⟩, [], some (.KS []), 0, 0, 0⟩

theorem processing : (heapAfter ([] : List (Call parser))).Processing (.parse [83] 0) item := by
  have hstart : Origin.Starts parser (.parse [83] 0) 0 0 := ⟨rfl, 0, _, rfl, rfl, List.mem_singleton_self _⟩
  refine ⟨_, .single (.conts (c := 0) (r := 0) (k := none) hstart rfl rfl rfl), ?_⟩
  exact .predicted (c := 0) (r := 0) (K := 0) rfl ⟨_, rfl, List.mem_singleton_self _⟩ rfl

/-- The item is in the set of the null string. -/
def isFiled (h : Heap parser) : Bool :=
  match h.parses[0]?.bind fun parse => (parse.transitions none).bind fun T => h.sets[T]? with
  | some set =>
    match set.gu_set_has (some item) with
    | .ok b => b
    | .error _ => false
  | none => false

theorem isFiled_spec {h : Heap parser} (hf : isFiled h = true) : h.Files 0 none item := by
  unfold isFiled at hf
  split at hf
  · rename_i set hset
    obtain ⟨parse, hp, hset⟩ := Option.bind_eq_some_iff.1 hset
    obtain ⟨T, hT, hset⟩ := Option.bind_eq_some_iff.1 hset
    split at hf
    · rename_i b hhas
      exact ⟨T, ⟨parse, hp, hT⟩, set, hset, (GuSet.has_iff hhas).1 hf⟩
    · cases hf
  · cases hf

end Hollow

/-- A form without tokens has no first token: the code reads the word of zeros of the empty sequence, and files the item under
the null string. -/
theorem empty_form_filed : (heapAfter ([] : List (Call Hollow.parser))).Processing (.parse [83] 0) Hollow.item ∧
    Hollow.item.curr_sym = some (.KS []) ∧ ¬ FilesWell Hollow.item (.KS []) ∧
    ∃ c : Call Hollow.parser, Session Hollow.parser [c] ∧ (heapAfter [c]).Files 0 none Hollow.item := by
  refine ⟨Hollow.processing, rfl, ?_, ?_⟩
  · rintro ⟨toks, hn, hmem, -⟩
    cases hn
    obtain ⟨tok, -, htok, -⟩ := (hmem none).1 List.mem_cons_self
    cases htok
  · obtain ⟨l, hl, hcheck⟩ := Session.of_check 20 [.parse [83] 0] (fun l : List (Call Hollow.parser) =>
      decide (l.length = 1) && Hollow.isFiled (heapAfter l)) (by decide +kernel)
    rw [Bool.and_eq_true, decide_eq_true_eq] at hcheck
    obtain ⟨c, rfl⟩ := List.length_eq_one_iff.1 hcheck.1
    exact ⟨c, hl, Hollow.isFiled_spec hcheck.2⟩

theorem filed_items_scan_tiny : ∃ c₀ c₁ c₂ : Call Tiny.parser,
    ∀ p t x, (heapAfter ([c₀] ++ [c₁, c₂])).Files p (some t) x → Scannable x t := by
  obtain ⟨c₀, c₁, c₂, hl⟩ := Tiny.plays
  refine ⟨c₀, c₁, c₂, fun p t x hx => ?_⟩
  obtain ⟨-, -, hfiled, -⟩ := filed_items_scan hl
  obtain ⟨-, -, -, -, -, hs⟩ := hfiled p t x hx
  exact hs

end Libpgf
