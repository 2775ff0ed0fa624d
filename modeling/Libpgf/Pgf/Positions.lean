import Libpgf.Pgf.Filing
/-!
# Positions

An item keeps its position in three counters, `seq_idx` of 16 bits and `alt` and
`tok_idx` of 8 bits each. The rows and the forms of a grammar may be of any
length, and a symbol may have any number of alternatives.
-/

namespace Libpgf

variable {P : PgfParser}

/-! ## Moving through a form -/

/-- What becomes of the item as it is moved over the first tokens of a form: at first over the form it is to begin, then over
any form that it is in by its own account. -/
inductive Moved (x : PgfItem) (alt : Nat) (form : PgfTokens) : Nat → PgfItem → Prop
  | first {t : PgfToken} {y : PgfItem} : form[0]? = some t → scanned x t alt form = .ok (some y) → Moved x alt form 1 y
  | next {k : Nat} {t : PgfToken} {y z : PgfItem} {forms : List (Nat × PgfTokens)} {f : Nat × PgfTokens} :
    Moved x alt form k y → form[k]? = some t → scan_forms y = .ok forms → f ∈ forms → scanned y t f.1 f.2 = .ok (some z) →
    Moved x alt form (k + 1) z

/-- Where the item ought to stand after `k` tokens of the form. -/
def StandsAfter (x : PgfItem) (alt : Nat) (form : PgfTokens) (k : Nat) (y : PgfItem) : Prop :=
  (k < form.length → y.seq_idx = x.seq_idx ∧ y.curr_sym = x.curr_sym ∧ y.alt = alt ∧ y.tok_idx = k) ∧
    (k = form.length → y.seq_idx = x.seq_idx + 1 ∧ y.tok_idx = 0)

/-- The item gets through the form, and always stands where it ought to. -/
def Tracks (x : PgfItem) (alt : Nat) (form : PgfTokens) : Prop :=
  ∀ k, 0 < k → k ≤ form.length → (∃ y, Moved x alt form k y) ∧ ∀ y, Moved x alt form k y → StandsAfter x alt form k y

theorem Moved.pos {x y : PgfItem} {alt k : Nat} {form : PgfTokens} (h : Moved x alt form k y) : 0 < k := by
  cases h with
  | first _ _ => exact Nat.one_pos
  | next _ _ _ _ _ => exact Nat.succ_pos _

theorem Moved.one {x y : PgfItem} {alt : Nat} {form : PgfTokens} (h : Moved x alt form 1 y) :
    ∃ t, form[0]? = some t ∧ scanned x t alt form = .ok (some y) := by
  generalize hk : 1 = k at h
  cases h with
  | first ht hy => exact ⟨_, ht, hy⟩
  | next h _ _ _ _ =>
    have := h.pos
    omega

section Form
variable {x : PgfItem} {sym : PgfSymbol} {alt : Nat} {form : PgfTokens} (hx : x.Placed) (hsym : x.curr_sym = some sym)
  (h0 : x.tok_idx = 0) (htry : sym.Tried alt form)
include hx hsym h0 htry

/-- The first token. -/
theorem moved_first (hne : form ≠ []) : (∃ y, Moved x alt form 1 y) ∧ ∀ y, Moved x alt form 1 y → y.Placed ∧
    ((form.length = 1 ∧ y.seq_idx = (x.seq_idx + 1) % 2 ^ 16 ∧ y.tok_idx = 0) ∨
      (form.length ≠ 1 ∧ y.seq_idx = x.seq_idx ∧ y.curr_sym = x.curr_sym ∧ y.alt = alt % 2 ^ 8 ∧ y.tok_idx = 1)) := by
  have hlt : 0 < form.length := List.length_pos_iff.2 hne
  have ht : form[0]? = some form[0] := List.getElem?_eq_getElem hlt
  have htok : form[x.tok_idx]? = some form[0] := by
    rw [h0]
    exact ht
  obtain ⟨forms, hforms, hm⟩ := htry.scan_forms hsym (.inl h0)
  constructor
  · obtain ⟨y, hy⟩ := hx.scanned hsym alt htok
    exact ⟨y, .first ht hy⟩
  · intro y hy
    obtain ⟨t, -, hy⟩ := hy.one
    refine ⟨hx.scan hforms hm hy, ?_⟩
    obtain ⟨-, -, -, halt, hidx⟩ := scanned_ok hy
    rw [h0] at hidx
    rcases hidx with ⟨hlen, -, hs, hti⟩ | ⟨hlen, hc, hs, hti⟩
    · exact .inl ⟨hlen.symm, hs, hti⟩
    · exact .inr ⟨fun he => hlen he.symm, hs, hc, halt, hti⟩

omit hx h0 in
/-- A token inside the form, for an item that stands where it ought to. -/
theorem moved_next {k : Nat} {y : PgfItem} (hk : 0 < k) (hlt : k < form.length) (hmoved : Moved x alt form k y) (hy : y.Placed)
    (hstands : StandsAfter x alt form k y) : (∃ z, Moved x alt form (k + 1) z) ∧
    ∀ t z forms f, form[k]? = some t → scan_forms y = .ok forms → f ∈ forms → scanned y t f.1 f.2 = .ok (some z) → z.Placed ∧
      (((k + 1) % 2 ^ 8 = form.length ∧ z.seq_idx = (x.seq_idx + 1) % 2 ^ 16 ∧ z.tok_idx = 0) ∨
        ((k + 1) % 2 ^ 8 ≠ form.length ∧ z.seq_idx = x.seq_idx ∧ z.curr_sym = x.curr_sym ∧ z.alt = alt % 2 ^ 8 ∧
          z.tok_idx = (k + 1) % 2 ^ 8)) := by
  obtain ⟨hs, hc, halt, hti⟩ := hstands.1 hlt
  have ht : form[k]? = some form[k] := List.getElem?_eq_getElem hlt
  have htok : form[y.tok_idx]? = some form[k] := by
    rw [hti]
    exact ht
  have hysym : y.curr_sym = some sym := hc.trans hsym
  constructor
  · obtain ⟨forms, hforms, hm⟩ := htry.scan_forms hysym (.inr halt)
    obtain ⟨z, hz⟩ := hy.scanned hysym alt htok
    exact ⟨z, .next hmoved ht hforms hm hz⟩
  · rintro t z forms ⟨alt', form'⟩ - hforms hm hz
    refine ⟨hy.scan hforms hm hz, ?_⟩
    -- inside the form there is no other to scan
    obtain ⟨sym', hsym', hform', hsame⟩ := scan_forms_form hforms hm
    rw [hysym, Option.some.injEq] at hsym'
    subst hsym'
    obtain rfl : alt = alt' := halt.symm.trans (hsame (by omega) form (halt ▸ htry.is_form))
    obtain rfl := htry.is_form.unique hform'
    obtain ⟨-, -, -, hzalt, hidx⟩ := scanned_ok hz
    rw [hti, hs, hc] at hidx
    rcases hidx with ⟨hlen, -, hzs, hzt⟩ | ⟨hlen, hzc, hzs, hzt⟩
    · exact .inl ⟨hlen, hzs, hzt⟩
    · exact .inr ⟨hlen, hzs, hzc, hzalt, hzt⟩

/-- Within the limits of the counters the item stands where it ought to. -/
theorem tracks_of_short (hne : form ≠ []) (hlen : form.length < 2 ^ 8) (halt : form.length = 1 ∨ alt < 2 ^ 8)
    (hseq : x.seq_idx + 1 < 2 ^ 16) : Tracks x alt form := by
  have hsucc : (x.seq_idx + 1) % 2 ^ 16 = x.seq_idx + 1 := Nat.mod_eq_of_lt hseq
  have main : ∀ k, 0 < k → k ≤ form.length →
      (∃ y, Moved x alt form k y) ∧ ∀ y, Moved x alt form k y → y.Placed ∧ StandsAfter x alt form k y := by
    intro k hk
    induction k, hk using Nat.le_induction with
    | base =>
      intro _
      obtain ⟨hex, hall⟩ := moved_first hx hsym h0 htry hne
      refine ⟨hex, fun y hy => ?_⟩
      obtain ⟨hp, hy⟩ := hall y hy
      refine ⟨hp, fun hlt => ?_, fun he => ?_⟩
      · obtain ⟨-, hs, hc, ha, ht⟩ := hy.resolve_left (by omega)
        rw [Nat.mod_eq_of_lt (halt.resolve_left (by omega))] at ha
        exact ⟨hs, hc, ha, ht⟩
      · obtain ⟨-, hs, ht⟩ := hy.resolve_right (by omega)
        exact ⟨hs.trans hsucc, ht⟩
    | succ k hk ih =>
      intro hle
      obtain ⟨⟨y, hy⟩, hall⟩ := ih (by omega)
      obtain ⟨hp, hstands⟩ := hall y hy
      refine ⟨(moved_next hsym htry hk hle hy hp hstands).1, fun z hz => ?_⟩
      have hmod : (k + 1) % 2 ^ 8 = k + 1 := Nat.mod_eq_of_lt (by omega)
      cases hz with
      | first _ _ => exact absurd hk (by decide)
      | @next _ t y _ forms f hy ht hforms hf hz =>
        obtain ⟨hp, hstands⟩ := hall y hy
        obtain ⟨hzp, hz⟩ := (moved_next hsym htry hk hle hy hp hstands).2 t z forms f ht hforms hf hz
        rw [hmod] at hz
        refine ⟨hzp, fun hlt => ?_, fun he => ?_⟩
        · obtain ⟨-, hs, hc, ha, ht⟩ := hz.resolve_left (by omega)
          rw [Nat.mod_eq_of_lt (halt.resolve_left (by omega))] at ha
          exact ⟨hs, hc, ha, ht⟩
        · obtain ⟨-, hs, ht⟩ := hz.resolve_right (by omega)
          exact ⟨hs.trans hsucc, ht⟩
  exact fun k hk hle => ⟨(main k hk hle).1, fun y hy => ((main k hk hle).2 y hy).2⟩

/-- An item that gets through the form as it ought to is within the limits of the counters. -/
theorem short_of_tracks (hne : form ≠ []) (h : Tracks x alt form) :
    form.length < 2 ^ 8 ∧ (form.length = 1 ∨ alt < 2 ^ 8) ∧ x.seq_idx + 1 < 2 ^ 16 := by
  have hpos : 0 < form.length := List.length_pos_iff.2 hne
  have hplaced : ∀ k y, Moved x alt form k y → k ≤ form.length → y.Placed := by
    intro k y hy
    induction hy with
    | first ht hy => exact fun _ => ((moved_first hx hsym h0 htry hne).2 _ (.first ht hy)).1
    | @next k t y z forms f hy ht hforms hf hz ih =>
      intro hle
      exact ((moved_next hsym htry hy.pos hle hy (ih (by omega)) ((h k hy.pos (by omega)).2 y hy)).2 t z forms f ht
        hforms hf hz).1
  have hlen : form.length < 2 ^ 8 := by
    -- after 256 tokens `tok_idx` is back at 0, and the item has not left the symbol
    by_contra hge
    obtain ⟨⟨z, hz⟩, hall⟩ := h (255 + 1) (by omega) (by omega)
    have hstands := hall z hz
    cases hz with
    | @next _ t y _ forms f hy ht hforms hf hz =>
      have hy' := (h 255 (by omega) (by omega)).2 y hy
      obtain ⟨-, hz⟩ := (moved_next hsym htry (by omega) (by omega) hy (hplaced 255 y hy (by omega)) hy').2 t z forms f ht
        hforms hf hz
      obtain ⟨-, hs, -, -, ht⟩ := hz.resolve_left (by omega)
      rcases Nat.lt_or_ge 256 form.length with hlt | hle
      · have := (hstands.1 hlt).2.2.2
        omega
      · have := (hstands.2 (by omega)).1
        omega
  have halt : form.length = 1 ∨ alt < 2 ^ 8 := by
    by_cases h1 : form.length = 1
    · exact .inl h1
    · obtain ⟨⟨y, hy⟩, hall⟩ := h 1 Nat.one_pos hpos
      obtain ⟨-, -, -, ha, -⟩ := ((moved_first hx hsym h0 htry hne).2 y hy).2.resolve_left fun he => h1 he.1
      have := ((hall y hy).1 (by omega)).2.2.1
      omega
  refine ⟨hlen, halt, ?_⟩
  -- the step past the end of the form
  obtain ⟨⟨y, hy⟩, hall⟩ := h form.length hpos (Nat.le_refl _)
  have hend := ((hall y hy).2 rfl).1
  have hstep : y.seq_idx = (x.seq_idx + 1) % 2 ^ 16 := by
    generalize hn : form.length = n at hy
    cases hy with
    | first ht hy =>
      obtain ⟨-, hs, -⟩ := ((moved_first hx hsym h0 htry hne).2 y (.first ht hy)).2.resolve_right fun he => he.1 hn
      exact hs
    | @next k t w _ forms f hw ht hforms hf hy =>
      have hw' := (h k hw.pos (by omega)).2 w hw
      obtain ⟨-, hz⟩ := (moved_next hsym htry hw.pos (by omega) hw (hplaced k w hw (by omega)) hw').2 t y forms f ht hforms hf hy
      rw [hn, Nat.mod_eq_of_lt (by omega)] at hz
      exact (hz.resolve_right fun he => he.1 rfl).2.1
  omega

end Form

/-! ## The positions of a row -/

/-- Before a symbol or at the end of the row, or behind the first `k` tokens of a form. -/
inductive Position where
  | start (seq_idx : Nat)
  | inside (seq_idx alt k : Nat)
  deriving DecidableEq, Repr

def Position.InRow (seq : PgfSequence) : Position → Prop
  | start s => s ≤ seq.length
  | inside s alt k => ∃ sym form, seq[s]? = some sym ∧ sym.Tried alt form ∧ 0 < k ∧ k < form.length

/-- The counters of the item hold the position. -/
def PgfItem.Shows (x : PgfItem) : Position → Prop
  | .start s => x.seq_idx = s % 2 ^ 16 ∧ x.tok_idx = 0
  | .inside s alt k => x.seq_idx = s % 2 ^ 16 ∧ x.alt = alt % 2 ^ 8 ∧ x.tok_idx = k % 2 ^ 8

/-- The row and its forms are short enough, and no two forms share a number, for the counters to tell all positions apart. -/
structure Distinguished (seq : PgfSequence) : Prop where
  row : seq.length < 2 ^ 16
  form : ∀ sym ∈ seq, ∀ alt form, sym.Tried alt form → form.length ≤ 2 ^ 8
  alt : ∀ sym ∈ seq, ∀ alt form alt' form', sym.Tried alt form → sym.Tried alt' form' → 1 < form.length → 1 < form'.length →
    alt % 2 ^ 8 = alt' % 2 ^ 8 → alt = alt'

theorem Distinguished.unique {seq : PgfSequence} (h : Distinguished seq) {p q : Position} (hp : p.InRow seq) (hq : q.InRow seq)
    {x : PgfItem} (hxp : x.Shows p) (hxq : x.Shows q) : p = q := by
  have hlt : ∀ {s sym}, seq[s]? = some sym → s < 2 ^ 16 ∧ sym ∈ seq := by
    intro s sym hs
    have := (List.getElem?_eq_some_iff.1 hs).1
    have := h.row
    exact ⟨by omega, List.mem_of_getElem? hs⟩
  have hrow := h.row
  cases p with
  | start s =>
    have hs : s ≤ seq.length := hp
    cases q with
    | start s' =>
      have hs' : s' ≤ seq.length := hq
      have := hxp.1.symm.trans hxq.1
      rw [Nat.mod_eq_of_lt (by omega), Nat.mod_eq_of_lt (by omega)] at this
      rw [this]
    | inside s' alt k =>
      obtain ⟨sym, form, hsym, htry, hk, hkf⟩ := hq
      have := h.form sym (hlt hsym).2 alt form htry
      have := hxp.2.symm.trans hxq.2.2
      omega
  | inside s alt k =>
    obtain ⟨sym, form, hsym, htry, hk, hkf⟩ := hp
    have hform := h.form sym (hlt hsym).2 alt form htry
    cases q with
    | start s' =>
      have := hxp.2.2.symm.trans hxq.2
      omega
    | inside s' alt' k' =>
      obtain ⟨sym', form', hsym', htry', hk', hkf'⟩ := hq
      have hform' := h.form sym' (hlt hsym').2 alt' form' htry'
      have hs := hxp.1.symm.trans hxq.1
      rw [Nat.mod_eq_of_lt (hlt hsym).1, Nat.mod_eq_of_lt (hlt hsym').1] at hs
      subst hs
      rw [hsym, Option.some.injEq] at hsym'
      subst hsym'
      have hkk := hxp.2.2.symm.trans hxq.2.2
      have halt := h.alt sym (hlt hsym).2 alt form alt' form' htry htry' (by omega) (by omega) (hxp.2.1.symm.trans hxq.2.1)
      rw [Nat.mod_eq_of_lt (by omega), Nat.mod_eq_of_lt (by omega)] at hkk
      rw [halt, hkk]

/-- The counters tell the positions of a row apart only if it is within these limits. -/
theorem distinguished_iff (base : PgfItem) (seq : PgfSequence) : Distinguished seq ↔
    ∀ (p q : Position) (x : PgfItem), p.InRow seq → q.InRow seq → x.base = base.base → x.Shows p → x.Shows q → p = q := by
  constructor
  · exact fun h p q x hp hq _ hxp hxq => h.unique hp hq hxp hxq
  intro h
  have hrow : seq.length < 2 ^ 16 := by
    by_contra hge
    have := h (.start 0) (.start (2 ^ 16)) { base with seq_idx := 0, tok_idx := 0 } (Nat.zero_le _) (Nat.le_of_not_lt hge) rfl
      ⟨rfl, rfl⟩ ⟨rfl, rfl⟩
    cases this
  refine ⟨hrow, fun sym hm alt form htry => ?_, fun sym hm alt form alt' form' htry htry' h1 h1' he => ?_⟩
  · obtain ⟨s, hs⟩ := List.getElem?_of_mem hm
    by_contra hge
    have hle : s ≤ seq.length := Nat.le_of_lt (List.getElem?_eq_some_iff.1 hs).1
    have := h (.start s) (.inside s alt (2 ^ 8)) { base with seq_idx := s % 2 ^ 16, alt := alt % 2 ^ 8, tok_idx := 0 } hle
      ⟨sym, form, hs, htry, by decide, Nat.lt_of_not_le hge⟩ rfl ⟨rfl, rfl⟩ ⟨rfl, rfl, rfl⟩
    cases this
  · obtain ⟨s, hs⟩ := List.getElem?_of_mem hm
    have := h (.inside s alt 1) (.inside s alt' 1) { base with seq_idx := s % 2 ^ 16, alt := alt % 2 ^ 8, tok_idx := 1 }
      ⟨sym, form, hs, htry, Nat.one_pos, h1⟩ ⟨sym, form', hs, htry', Nat.one_pos, h1'⟩ rfl ⟨rfl, rfl, rfl⟩ ⟨rfl, he, rfl⟩
    exact (Position.inside.inj this).2.1

/-- An item that a call is about to process before a symbol gets through a form of it as it ought to exactly when the form is
shorter than 256 tokens, its number fits `alt` or is not needed, and the symbol is not the 65536th of its row. The counters
tell the positions of the row apart exactly when it is within their limits. -/
theorem positions_do_not_wrap {l : List (Call P)} (hl : Session P l) {o : Origin} {x : PgfItem}
    (hx : (heapAfter l).Processing o x) {sym : PgfSymbol} (hsym : x.curr_sym = some sym) (h0 : x.tok_idx = 0) :
    (∀ alt form, sym.Tried alt form → form ≠ [] →
      (Tracks x alt form ↔ form.length < 2 ^ 8 ∧ (form.length = 1 ∨ alt < 2 ^ 8) ∧ x.seq_idx + 1 < 2 ^ 16)) ∧
    ∀ seq, x.base.prod.row x.base.lin_idx = some seq →
      ((∀ (p q : Position) (y : PgfItem), p.InRow seq → q.InRow seq → y.base = x.base → y.Shows p → y.Shows q → p = q) ↔
        Distinguished seq) := by
  have hp : x.Placed := hl.processing inherited_placed (fun _ _ _ => trivial) hx
  refine ⟨fun alt form htry hne => ⟨short_of_tracks hp hsym h0 htry hne, ?_⟩, fun seq _ => (distinguished_iff x seq).symm⟩
  rintro ⟨hlen, halt, hs⟩
  exact tracks_of_short hp hsym h0 htry hne hlen halt hs

namespace Idiom

/-- `a b`, or `c d e` as a variant. -/
def sym : PgfSymbol := .KP [[97], [98]] [⟨[[99], [100], [101]], []⟩]

def row : PgfSequence := [sym, .KS [[102], [103]]]

def f : PgfCncFun := { fun_ := [102], lins := [row], fid := 0 }

def concr : PgfConcr where
  ccatMem := [⟨some 0, .seq [.APPLY f []], 0⟩]
  cnccatMem := [⟨[83], [some 0], 1, [[115]]⟩]
  cnccats := [([83], 0)]
  extra_ccats := []
  prods_fixed := by decide
  prods_valid := by decide
  cats_valid := by decide

def parser : PgfParser := ⟨concr, fun _ => 0⟩

def item : PgfItem := ⟨⟨0, 0, .APPLY f [], 0⟩, [], some sym, 0, 0, 0⟩

theorem processing : (heapAfter ([] : List (Call parser))).Processing (.parse [83] 0) item := by
  have hstart : Origin.Starts parser (.parse [83] 0) 0 0 := ⟨rfl, 0, _, rfl, rfl, List.mem_singleton_self _⟩
  refine ⟨_, .single (.conts (c := 0) (r := 0) (k := none) hstart rfl rfl rfl), ?_⟩
  exact .predicted (c := 0) (r := 0) (K := 0) rfl ⟨_, rfl, List.mem_singleton_self _⟩ rfl

theorem tried {sym : PgfSymbol} (hm : sym ∈ row) {alt : Nat} {form : PgfTokens} (h : sym.Tried alt form) :
    alt < 2 ∧ form.length ≤ 3 := by
  have hforms : kp_alts [[97], [98]] [⟨[[99], [100], [101]], []⟩] = [(1, [[99], [100], [101]])] := by decide
  rcases List.mem_pair.1 hm with rfl | rfl
  · simp only [Idiom.sym, PgfSymbol.Tried, hforms, List.mem_cons, List.not_mem_nil, or_false, Prod.mk.injEq] at h
    rcases h with ⟨rfl, rfl⟩ | ⟨rfl, rfl⟩ <;> decide
  · obtain ⟨rfl, rfl⟩ := h
    decide

theorem distinguished : Distinguished row := by
  refine ⟨by decide, fun sym hm alt form htry => ?_, fun sym hm alt form alt' form' htry htry' _ _ he => ?_⟩
  · have := (tried hm htry).2
    omega
  · have := (tried hm htry).1
    have := (tried hm htry').1
    omega

end Idiom

theorem positions_do_not_wrap_idiom : Tracks Idiom.item 0 [[97], [98]] ∧ Tracks Idiom.item 1 [[99], [100], [101]] ∧
    ∀ (p q : Position) (y : PgfItem), p.InRow Idiom.row → q.InRow Idiom.row → y.base = Idiom.item.base → y.Shows p → y.Shows q → p = q := by
  obtain ⟨htracks, hrow⟩ := positions_do_not_wrap .nil Idiom.processing rfl rfl
  have htry : Idiom.sym.Tried 0 [[97], [98]] ∧ Idiom.sym.Tried 1 [[99], [100], [101]] := by
    simp only [Idiom.sym, PgfSymbol.Tried]
    decide
  exact ⟨(htracks 0 _ htry.1 (by simp)).2 ⟨by decide, .inr (by decide), by decide⟩,
    (htracks 1 _ htry.2 (by simp)).2 ⟨by decide, .inr (by decide), by decide⟩, (hrow _ rfl).2 Idiom.distinguished⟩

/-! ## A form of 256 tokens -/

namespace Long

def form : PgfTokens := List.replicate 256 [97]

theorem length_form : form.length = 256 := List.length_replicate

def f : PgfCncFun := { fun_ := [102], lins := [[.KS form]], fid := 0 }

def concr : PgfConcr where
  ccatMem := [⟨some 0, .seq [.APPLY f []], 0⟩]
  cnccatMem := [⟨[83], [some 0], 1, [[115]]⟩]
  cnccats := [([83], 0)]
  extra_ccats := []
  prods_fixed := by decide
  prods_valid := by decide
  cats_valid := by decide

def parser : PgfParser := ⟨concr, fun _ => 0⟩

def item : PgfItem := ⟨⟨0, 0, .APPLY f [], 0⟩, [], some (.KS form), 0, 0, 0⟩

theorem processing : (heapAfter ([] : List (Call parser))).Processing (.parse [83] 0) item := by
  have hstart : Origin.Starts parser (.parse [83] 0) 0 0 := ⟨rfl, 0, _, rfl, rfl, List.mem_singleton_self _⟩
  refine ⟨_, .single (.conts (c := 0) (r := 0) (k := none) hstart rfl rfl rfl), ?_⟩
  exact .predicted (c := 0) (r := 0) (K := 0) rfl ⟨_, rfl, List.mem_singleton_self _⟩ rfl

end Long

/-- After 256 tokens `tok_idx` is 0 again, and the item begins the form anew. -/
theorem long_form_wraps : Session Long.parser [] ∧ (heapAfter ([] : List (Call Long.parser))).Processing (.parse [83] 0) Long.item ∧
    Long.item.curr_sym = some (.KS Long.form) ∧ (PgfSymbol.KS Long.form).Tried 0 Long.form ∧ Long.form ≠ [] ∧
      ¬ Tracks Long.item 0 Long.form := by
  have hne : Long.form ≠ [] := List.length_pos_iff.1 (Long.length_form ▸ by decide)
  have hp : Long.item.Placed := Session.nil.processing inherited_placed (fun _ _ _ => trivial) Long.processing
  refine ⟨.nil, Long.processing, rfl, ⟨rfl, rfl⟩, hne, fun h => ?_⟩
  have hlt := (short_of_tracks hp rfl rfl ⟨rfl, rfl⟩ hne h).1
  rw [Long.length_form] at hlt
  exact absurd hlt (by decide)

end Libpgf
