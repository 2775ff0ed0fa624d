import Libpgf.Pgf.ExtraPass
/-!
# Concrete grammars that are accepted

The check of the reader runs from the categories of a range, before the pass
over the category map gives the others their concrete categories. Both follow
coercions, and neither leaves out a production: in a grammar that is accepted,
the functions that a category leads to have as many constituents as its concrete
category says.
-/

namespace Libpgf

/-! ## The functions of a category -/

/-- Coercions lead from `c` to a production with the function. -/
inductive Under (mem : List PgfCCat) : PgfCCatId → PgfCncFun → Prop
  | here {c : PgfCCatId} {ccat : PgfCCat} {f : PgfCncFun} {args : List PgfPArg} :
    mem[c]? = some ccat → .APPLY f args ∈ ccat.prods.elems → Under mem c f
  | through {c d : PgfCCatId} {f : PgfCncFun} : Coerces mem d c → Under mem d f → Under mem c f

/-- The functions of the productions `ps`. -/
def UnderProds (mem : List PgfCCat) (ps : List PgfProduction) (f : PgfCncFun) : Prop :=
  (∃ args, .APPLY f args ∈ ps) ∨ ∃ d, .COERCE d ∈ ps ∧ Under mem d f

section Under
variable {mem mem' : List PgfCCat} {c d : PgfCCatId} {ccat : PgfCCat} {f : PgfCncFun} {ps : List PgfProduction} {n n' : Int}

theorem under_iff (hc : mem[c]? = some ccat) : Under mem c f ↔ UnderProds mem ccat.prods.elems f := by
  constructor
  · intro h
    cases h with
    | here hc' hp =>
      rw [hc, Option.some.injEq] at hc'
      exact .inl ⟨_, hc' ▸ hp⟩
    | through hd hf =>
      obtain ⟨ccat', hc', hd⟩ := hd
      rw [hc, Option.some.injEq] at hc'
      exact .inr ⟨_, hc' ▸ hd, hf⟩
  · rintro (⟨args, hp⟩ | ⟨d, hd, hf⟩)
    · exact .here hc hp
    · exact .through ⟨ccat, hc, hd⟩ hf

theorem SameProds.coerces (h : SameProds mem mem') : Coerces mem' d c ↔ Coerces mem d c := by
  constructor
  · rintro ⟨ccat, hc, hd⟩
    obtain ⟨old, hold, he⟩ := h.back hc
    exact ⟨old, hold, by rwa [he] at hd⟩
  · rintro ⟨ccat, hc, hd⟩
    obtain ⟨k, hk⟩ := h.ccats c ccat hc
    exact ⟨_, hk, hd⟩

theorem SameProds.under (h : SameProds mem mem') : Under mem' c f ↔ Under mem c f := by
  constructor
  · intro hf
    induction hf with
    | here hc hp =>
      obtain ⟨old, hold, he⟩ := h.back hc
      exact .here hold (by rwa [he] at hp)
    | through hd _ ih => exact .through (h.coerces.1 hd) ih
  · intro hf
    induction hf with
    | here hc hp =>
      obtain ⟨k, hk⟩ := h.ccats _ _ hc
      exact .here hk hp
    | through hd _ ih => exact .through (h.coerces.2 hd) ih

/-- A bare category leads to no function. -/
theorem Bare.not_under (h : Bare mem c) : ¬ Under mem c f := by
  induction h with
  | intro hc _ _ hco _ ih =>
    rw [under_iff hc]
    rintro (⟨args, hp⟩ | ⟨d, hd, hf⟩)
    · obtain ⟨d, hd⟩ := hco _ hp
      cases hd
    · exact ih d hd hf

/-- A walk that finds no disagreement has counted the constituents of every function. -/
theorem Walked.counts {b : Bool} (h : Walked mem ps n b n') (hb : b = true) (hf : UnderProds mem ps f) : n' = f.lins.length := by
  induction h with
  | nil =>
    rcases hf with ⟨_, hp⟩ | ⟨_, hd, -⟩
    · exact absurd hp List.not_mem_nil
    · exact absurd hd List.not_mem_nil
  | apply _ hw ih =>
    rcases hf with ⟨args, hp⟩ | ⟨d, hd, hf⟩
    · rcases List.mem_cons.1 hp with hp | hp
      · cases hp
        exact hw.keeps length_ne
      · exact ih hb (.inl ⟨args, hp⟩)
    · rcases List.mem_cons.1 hd with hd | hd
      · cases hd
      · exact ih hb (.inr ⟨d, hd, hf⟩)
  | differs => cases hb
  | coerce hd hw hw' ih ih' =>
    rcases hf with ⟨args, hp⟩ | ⟨e, he, hf⟩
    · rcases List.mem_cons.1 hp with hp | hp
      · cases hp
      · exact ih' hb (.inl ⟨args, hp⟩)
    · rcases List.mem_cons.1 he with he | he
      · cases he
        obtain rfl := ih rfl ((under_iff hd).1 hf)
        exact hw'.keeps length_ne
      · exact ih' hb (.inr ⟨e, he, hf⟩)
  | fails => cases hb

/-- What `pgf_ccat_n_ctnts` returns when it returns true. -/
theorem n_ctnts_counts {fuel : Nat} (hl : Linked mem) (hc : mem[c]? = some ccat)
    (h : pgf_ccat_n_ctnts mem fuel c n = .ok (true, n')) : (∀ f, Under mem c f → n' = f.lins.length) ∧ (n ≠ -1 → n' = n) := by
  have hs : Stopped mem ccat.prods.elems n (pgf_ccat_n_ctnts mem fuel c n) := stopped hl hc
  rcases hs with he | ⟨b, m, he, hw⟩
  · rw [he] at h
    cases h
  · rw [he, Except.ok.injEq, Prod.mk.injEq] at h
    obtain ⟨rfl, rfl⟩ := h
    exact ⟨fun f hf => hw.counts rfl ((under_iff hc).1 hf), hw.keeps⟩

end Under

/-! ## Ranges -/

/-- Reading leaves the concrete categories alone. -/
def Keeps {α β : Type} (read : PgfReader → α → Exec (PgfReader × β)) : Prop :=
  ∀ rdr a rdr' b, read rdr a = .ok (rdr', b) → rdr'.cnccatMem = rdr.cnccatMem

theorem intern_keeps : Keeps pgf_reader_intern_ccat := by
  intro rdr n rdr' c h
  obtain ⟨⟨map, i⟩, -, h⟩ := Exec.bind_ok.1 h
  obtain ⟨v, -, h⟩ := Exec.bind_ok.1 h
  cases v with
  | some c' => cases h; rfl
  | none => cases h; rfl

theorem seq_keeps {α β : Type} {read : PgfReader → α → Exec (PgfReader × β)} (hr : Keeps read) : Keeps (pgf_read_to_GuSeq read) := by
  intro rdr as
  induction as generalizing rdr with
  | nil => rintro _ _ ⟨⟩; rfl
  | cons a as ih =>
    intro rdr' bs h
    obtain ⟨⟨rdr₁, b⟩, h₁, h⟩ := Exec.bind_ok.1 h
    obtain ⟨⟨rdr₂, bs'⟩, h₂, h⟩ := Exec.bind_ok.1 h
    cases h
    exact (ih _ _ _ h₂).trans (hr _ _ _ _ h₁)

theorem production_keeps : Keeps pgf_read_to_PgfProduction := by
  have hparg : Keeps pgf_read_to_PgfPArg := by
    intro rdr arg rdr' parg h
    obtain ⟨⟨rdr₁, hypos⟩, h₁, h⟩ := Exec.bind_ok.1 h
    obtain ⟨⟨rdr₂, c⟩, h₂, h⟩ := Exec.bind_ok.1 h
    cases h
    exact (intern_keeps _ _ _ _ h₂).trans (seq_keeps intern_keeps _ _ _ _ h₁)
  intro rdr prod rdr' p h
  cases prod with
  | APPLY fun_ args =>
    obtain ⟨⟨rdr₁, pargs⟩, h₁, h⟩ := Exec.bind_ok.1 h
    cases h
    exact seq_keeps hparg _ _ _ _ h₁
  | COERCE fid =>
    obtain ⟨⟨rdr₁, c⟩, h₁, h⟩ := Exec.bind_ok.1 h
    cases h
    exact intern_keeps _ _ _ _ h₁

/-- Before the section of concrete categories there are none. -/
theorem pgf_read_ccats_cnccatMem {entries : List CCatEntry} {rdr : PgfReader} (h : pgf_read_ccats entries = .ok rdr) :
    rdr.cnccatMem = [] := by
  obtain ⟨map, -, h⟩ := Exec.bind_ok.1 h
  refine forEach_inv (P := fun rdr : PgfReader => rdr.cnccatMem = []) (fun entry _ rdr rdr' hr h => ?_) rfl h
  obtain ⟨⟨rdr₁, c⟩, h₁, h⟩ := Exec.bind_ok.1 h
  obtain ⟨⟨map, i⟩, -, h⟩ := Exec.bind_ok.1 h
  cases h
  obtain ⟨⟨rdr₂, c'⟩, h₂, h₁⟩ := Exec.bind_ok.1 h₁
  obtain ⟨⟨rdr₃, prods⟩, h₃, h₁⟩ := Exec.bind_ok.1 h₁
  obtain ⟨ccat, -, h₁⟩ := Exec.bind_ok.1 h₁
  cases h₁
  exact ((seq_keeps production_keeps _ _ _ _ h₃).trans (intern_keeps _ _ _ _ h₂)).trans hr

/-- The reader `rdr`, with a range read up to some place. -/
structure InRange (rdr : PgfReader) (st : RangeLoop) : Prop where
  same : SameProds rdr.ccatMem st.rdr.ccatMem
  cnccatMem : st.rdr.cnccatMem = rdr.cnccatMem
  interned : st.rdr.Interned
  cats : ∀ cat ∈ st.cats, ∀ c ∈ cat, c < rdr.ccatMem.length
  claimed : ∀ c k, cnccatOf st.rdr.ccatMem c = some k → k = rdr.cnccatMem.length ∨ cnccatOf rdr.ccatMem c = some k
  counted : st.raised = false → ∀ c, cnccatOf st.rdr.ccatMem c = some rdr.cnccatMem.length →
    ∀ f, Under rdr.ccatMem c f → st.n_ctnts = f.lins.length

theorem range_step {rdr : PgfReader} {st st' : RangeLoop} {fuel i : Nat} {first : Int} (hl : Linked rdr.ccatMem)
    (hi : InRange rdr st) (h : pgf_read_range fuel rdr.cnccatMem.length first st i = .ok st') : InRange rdr st' := by
  unfold pgf_read_range at h
  split at h
  · cases h
    exact hi
  rename_i hraised
  obtain ⟨found, hfound, h⟩ := Exec.bind_ok.1 h
  cases hj : found.join with
  | none =>
    simp only [hj, Exec.pure_eq, Except.ok.injEq] at h
    subst h
    refine ⟨hi.same, hi.cnccatMem, hi.interned, fun cat hcat c hc => ?_, hi.claimed, hi.counted⟩
    rcases List.mem_append.1 hcat with hcat | hcat
    · exact hi.cats cat hcat c hc
    · rw [List.mem_singleton.1 hcat] at hc
      cases hc
  | some c =>
    simp only [hj] at h
    obtain ⟨ccat, hc, h⟩ := Exec.bind_ok.1 h
    obtain ⟨⟨succ, n⟩, hn, h⟩ := Exec.bind_ok.1 h
    rw [Exec.deref_ok] at hc
    simp only [Exec.pure_eq, Except.ok.injEq] at h
    subst h
    have hset := SameProds.set hc (some rdr.cnccatMem.length)
    have hsame := hi.same.trans hset
    have hlt : c < rdr.ccatMem.length := hi.same.length ▸ (List.getElem?_eq_some_iff.1 hc).1
    refine ⟨hsame, hi.cnccatMem, hi.interned.setCCat hc rfl, fun cat hcat d hd => ?_, fun d k hk => ?_, fun hs d hd f hf => ?_⟩
    · rcases List.mem_append.1 hcat with hcat | hcat
      · exact hi.cats cat hcat d hd
      · rw [List.mem_singleton.1 hcat] at hd
        cases hd
        exact hlt
    · by_cases hcd : c = d
      · subst hcd
        exact .inl (Option.some.inj (hk.symm.trans (cnccatOf_set hc)))
      · exact hi.claimed d k ((cnccatOf_set_ne hcd).symm.trans hk)
    · obtain rfl : succ = true := by simpa using hs
      obtain ⟨ccat', hc'⟩ := hset.ccats c ccat hc
      obtain ⟨hcount, hkeep⟩ := n_ctnts_counts (hsame.linked hl) hc' hn
      by_cases hcd : c = d
      · subst hcd
        exact hcount f (hsame.under.2 hf)
      · have hst := hi.counted (by simpa using hraised) d ((cnccatOf_set_ne hcd).symm.trans hd) f hf
        exact (hkeep (hst ▸ length_ne)).trans hst

/-- The concrete categories that have been read, for categories with the productions of `mem`. -/
structure Ranged (mem : List PgfCCat) (rdr : PgfReader) : Prop where
  same : SameProds mem rdr.ccatMem
  interned : rdr.Interned
  cats : ∀ cnccat ∈ rdr.cnccatMem, ∀ cat ∈ cnccat.cats, ∀ c ∈ cat, c < mem.length
  counted : ∀ c k, cnccatOf rdr.ccatMem c = some k →
    ∃ cnccat, rdr.cnccatMem[k]? = some cnccat ∧ ∀ f, Under mem c f → f.lins.length = cnccat.n_ctnts

/-- Before a range is read. -/
theorem Ranged.start {mem : List PgfCCat} {rdr : PgfReader} (hr : Ranged mem rdr) :
    InRange rdr { rdr, cats := [], n_ctnts := -1, raised := false } := by
  refine ⟨.refl _, rfl, hr.interned, fun _ hc => absurd hc List.not_mem_nil, fun c k hk => .inr hk, fun _ c hc => ?_⟩
  obtain ⟨cnccat, hget, -⟩ := hr.counted c _ hc
  exact absurd (List.getElem?_eq_some_iff.1 hget).1 (Nat.lt_irrefl _)

theorem cnccat_ranged {mem : List PgfCCat} {rdr rdr' : PgfReader} {entry : CncCatEntry} {fuel k : Nat} (hl : Linked mem)
    (hr : Ranged mem rdr) (h : pgf_read_new_PgfCncCat fuel rdr entry = .ok (rdr', some k)) :
    Ranged mem rdr' := by
  obtain ⟨_, -, h⟩ := Exec.bind_ok.1 h
  obtain ⟨len, -, h⟩ := Exec.bind_ok.1 h
  obtain ⟨_, -, h⟩ := Exec.bind_ok.1 h
  obtain ⟨st, hloop, h⟩ := Exec.bind_ok.1 h
  have hi : InRange rdr st := forEach_inv (fun i _ st st' hst => range_step (hr.same.linked hl) hst) hr.start hloop
  split at h
  · cases h
  rename_i hraised
  simp only [Exec.pure_eq, Except.ok.injEq, Prod.mk.injEq, Option.some.injEq] at h
  obtain ⟨rfl, rfl⟩ := h
  have hint := hi.interned
  refine ⟨hr.same.trans hi.same, ⟨hint.valued, hint.default_value, hint.made, hint.fid, hint.named⟩, fun cnccat hc => ?_,
    fun c k hk => ?_⟩
  · rcases List.mem_append.1 hc with hc | hc
    · exact hr.cats cnccat (hi.cnccatMem ▸ hc)
    · rw [List.mem_singleton.1 hc]
      intro cat hcat c hc
      exact hr.same.length ▸ hi.cats cat hcat c hc
  · show ∃ cnccat, (st.rdr.cnccatMem ++ [_])[k]? = some cnccat ∧ _
    rw [hi.cnccatMem]
    rcases hi.claimed c k hk with rfl | hold
    · refine ⟨_, List.getElem?_concat_length, fun f hf => ?_⟩
      have hn := hi.counted (by simpa using hraised) c hk f (hr.same.under.2 hf)
      simp [hn]
    · obtain ⟨cnccat, hget, hcount⟩ := hr.counted c k hold
      exact ⟨cnccat, (List.getElem?_append_left (List.getElem?_eq_some_iff.1 hget).1).trans hget, hcount⟩

theorem cnccats_ranged {mem : List PgfCCat} {rdr : PgfReader} {entries : List CncCatEntry} {st : CncCatLoop} {fuel : Nat}
    (hl : Linked mem) (hr : Ranged mem rdr) (h : pgf_read_cnccats fuel rdr entries = .ok st) (hraised : st.raised = false) :
    Ranged mem st.rdr := by
  refine forEach_inv (P := fun st => st.raised = false → Ranged mem st.rdr) (fun entry _ st st' hst hstep hraised => ?_)
    (fun _ => hr) h hraised
  unfold pgf_read_cnccat_entry at hstep
  split at hstep
  · cases hstep
    exact hst hraised
  rename_i hnot
  obtain ⟨⟨rdr', new⟩, hnew, hstep⟩ := Exec.bind_ok.1 hstep
  cases new with
  | none =>
    simp only [Exec.pure_eq, Except.ok.injEq] at hstep
    subst hstep
    cases hraised
  | some k =>
    simp only [Exec.pure_eq, Except.ok.injEq] at hstep
    subst hstep
    exact cnccat_ranged hl (hst (by simpa using hnot)) hnew

/-! ## The other categories -/

/-- If `x` was outside the ranges and has a concrete category now, it has
coercions only, to categories that have the same one or are bare. -/
def Follows (mem mem' : List PgfCCat) (x : PgfCCatId) : Prop :=
  ∀ ccat k, mem[x]? = some ccat → ccat.cnccat = none → cnccatOf mem' x = some k →
    ∀ p ∈ ccat.prods.elems, ∃ d, p = .COERCE d ∧ (cnccatOf mem' d = some k ∨ Bare mem d)

theorem Follows.start (mem : List PgfCCat) (x : PgfCCatId) : Follows mem mem x := by
  intro ccat k hc hn hk
  rw [cnccatOf_eq hc, hn] at hk
  cases hk

theorem Follows.mono {mem mem₁ mem₂ : List PgfCCat} {x : PgfCCatId} (h : Follows mem mem₁ x) (ha : Assigned mem₁ mem₂)
    (hx : cnccatOf mem₂ x = cnccatOf mem₁ x) : Follows mem mem₂ x := by
  intro ccat k hc hn hk p hp
  obtain ⟨d, rfl, hd⟩ := h ccat k hc hn (hx ▸ hk) p hp
  exact ⟨d, rfl, hd.imp_left (ha.kept d k)⟩

namespace Setting
variable {mem : List PgfCCat} {st st' : Setting} {c x : PgfCCatId} {t : Task} {r : Exec Setting}

/-- A call keeps what follows, and a loop does so for all but its own category:
of that it has checked the productions `ps`. -/
def Task.Followed (mem : List PgfCCat) (t : Task) (st st' : Setting) : Prop :=
  match t with
  | .visit _ => ∀ x, Follows mem st.ccatMem x → Follows mem st'.ccatMem x
  | .loop c ps => (∀ x, x ≠ c → Follows mem st.ccatMem x → Follows mem st'.ccatMem x) ∧
    ∀ p ∈ ps, ∃ d, p = .COERCE d ∧ ∀ k, cnccatOf st'.ccatMem c = some k → cnccatOf st'.ccatMem d = some k ∨ Bare mem d

theorem Ran.follows (h : Ran t st r) : Assigned mem st.ccatMem → ∀ st', r = .ok st' → t.Followed mem st st' := by
  induction h with
  | known => rintro _ _ ⟨⟩ x hx; exact hx
  | null => rintro _ _ ⟨⟩
  | @visit c ccat st st' hc hn hp h ih =>
    rintro ha _ ⟨⟩ x hx
    obtain ⟨hothers, hdone⟩ := ih ha st' rfl
    by_cases hxc : x = c
    · subst hxc
      intro old k hold _ hk p hp'
      obtain ⟨k₀, hk₀⟩ := ha.ccats x old hold
      rw [hc, Option.some.injEq] at hk₀
      obtain ⟨d, rfl, hd⟩ := hdone p (by rw [hk₀]; exact hp')
      exact ⟨d, rfl, hd k hk⟩
    · exact hothers x hxc hx
  | visit_fails => rintro _ _ ⟨⟩
  | done => rintro _ _ ⟨⟩; exact ⟨fun x _ hx => hx, fun p hp => absurd hp List.not_mem_nil⟩
  | apply => rintro _ _ ⟨⟩
  | coerce_fails => rintro _ _ ⟨⟩
  | differs => rintro _ _ ⟨⟩
  | @coerce c d st st₁ st₂ ps r h hj h' ih ih' =>
    rintro ha st' rfl
    obtain ⟨hjoin, ha₂, -, hother⟩ := join_ok hj
    have ha₁ := h.assigned st₁ rfl
    have ha' := h'.assigned st' rfl
    obtain ⟨hothers, hdone⟩ := ih' ((ha.trans ha₁).trans ha₂) st' rfl
    refine ⟨fun x hxc hx => hothers x hxc ((ih ha st₁ rfl x hx).mono ha₂ (hother x hxc)), fun p hp => ?_⟩
    rcases List.mem_cons.1 hp with rfl | hp
    · refine ⟨d, rfl, fun k hk => ?_⟩
      cases hd : cnccatOf st₁.ccatMem d with
      | none => exact .inr (bare_before (h.null_bare st₁ rfl hd) ha)
      | some k' =>
        -- the loop has given `c` the concrete category of `d`, and both keep it
        have hck : cnccatOf st₂.ccatMem c = some k' := by
          rcases hjoin with ⟨-, hk⟩ | ⟨hk, rfl⟩
          · exact hk.trans hd
          · exact hk.trans hd
        rw [ha'.kept c k' hck, Option.some.injEq] at hk
        subst hk
        exact .inl (ha'.kept d k' (ha₂.kept d k' hd))
    · exact hdone p hp

/-- After the pass, categories outside the ranges follow their coercions, and
those that have come up are bare or have concrete categories. -/
theorem pass_follows {fuel : Nat} (hl : Linked mem) : ∀ {order : List PgfCCatId} {st st' : Setting}, (∀ c ∈ order, c < mem.length) →
    Assigned mem st.ccatMem → (∀ x, Follows mem st.ccatMem x) → pgf_read_extra_ccats fuel order st = .ok st' →
    Assigned st.ccatMem st'.ccatMem ∧ (∀ x, Follows mem st'.ccatMem x) ∧
      ∀ c ∈ order, (∃ k, cnccatOf st'.ccatMem c = some k) ∨ Bare mem c := by
  intro order
  induction order with
  | nil =>
    intro st st' _ _ hf h
    cases h
    exact ⟨Assigned.refl _, hf, fun c hc => absurd hc List.not_mem_nil⟩
  | cons c order ih =>
    intro st st' hlt ha hf h
    obtain ⟨st₁, h₁, h₂⟩ := Exec.bind_ok.1 h
    rcases stopped fuel st c (ha.linked hl) (ha.length ▸ hlt c List.mem_cons_self) with he | ⟨r, he, hr⟩
    · simp only [he] at h₁
      cases h₁
    · simp only [he] at h₁
      cases r with
      | error e => cases h₁
      | ok st₂ =>
        obtain rfl : st₂ = st₁ := Except.ok.inj h₁
        have ha₁ := hr.assigned st₂ rfl
        have hf₁ : ∀ x, Follows mem st₂.ccatMem x := fun x => hr.follows ha st₂ rfl x (hf x)
        obtain ⟨ha', hf', hall⟩ := ih (fun d hd => hlt d (List.mem_cons_of_mem _ hd)) (ha.trans ha₁) hf₁ h₂
        refine ⟨ha₁.trans ha', hf', fun d hd => ?_⟩
        rcases List.mem_cons.1 hd with rfl | hd
        · cases hk : cnccatOf st₂.ccatMem d with
          | none => exact .inr (bare_before (hr.null_bare st₂ rfl hk) ha)
          | some k => exact .inl ⟨k, ha'.kept d k hk⟩
        · exact hall d hd

end Setting

/-! ## The whole grammar -/

section Whole
variable {concr : PgfConcr} {ccats : List CCatEntry} {cnccats : List CncCatEntry}

/-- The reading of a concrete grammar, taken apart. -/
theorem read_parts {fuel : Nat} {st : CncCatLoop} {set : Setting} (h : pgf_read_new_PgfConcr fuel ccats cnccats = .ok (st, set)) :
    ∃ rdr, pgf_read_ccats ccats = .ok rdr ∧ Linked rdr.ccatMem ∧ (∀ ccat ∈ rdr.ccatMem, ccat.prods.isBuf = false) ∧
      Ranged rdr.ccatMem rdr ∧ rdr.cnccatMem = [] ∧ pgf_read_cnccats fuel rdr cnccats = .ok st ∧
      pgf_read_extra_ccats fuel st.rdr.order { ccatMem := st.rdr.ccatMem, newly_set := [] } = .ok set := by
  obtain ⟨rdr, hread, h⟩ := Exec.bind_ok.1 h
  obtain ⟨st₁, hcnc, h⟩ := Exec.bind_ok.1 h
  obtain ⟨set₁, hset, h⟩ := Exec.bind_ok.1 h
  simp only [Exec.pure_eq, Except.ok.injEq, Prod.mk.injEq] at h
  obtain ⟨rfl, rfl⟩ := h
  have hlisted := PgfReader.ccats_listed hread
  have hnone := pgf_read_ccats_cnccatMem hread
  obtain ⟨obj, ho⟩ := hlisted.interned.exists_covered
  refine ⟨rdr, hread, pgf_read_ccats_linked hread, fun ccat hc => ?_, ?_, hnone, hcnc, hset⟩
  · rw [(hlisted.ccats obj ho ccat hc).2, listedProds]
    split <;> rfl
  · refine ⟨.refl _, hlisted.interned, fun cnccat hc => ?_, fun c k hk => ?_⟩
    · rw [hnone] at hc
      exact absurd hc List.not_mem_nil
    · obtain ⟨ccat, hc, hk⟩ := Option.bind_eq_some_iff.1 hk
      rw [(hlisted.ccats obj ho ccat (List.mem_of_getElem? hc)).1] at hk
      cases hk

/-- In a grammar that is accepted, the functions that a category leads to have as
many constituents as its concrete category says, and it has one if there are any. -/
theorem PgfConcr.ReadFrom.counts (h : concr.ReadFrom ccats cnccats) {c : PgfCCatId} {f : PgfCncFun}
    (hf : Under concr.ccatMem c f) : ∃ k cnccat, cnccatOf concr.ccatMem c = some k ∧ concr.cnccatMem[k]? = some cnccat ∧
      f.lins.length = cnccat.n_ctnts := by
  obtain ⟨fuel, st, set, hread, hraised, hmem, hcnc, -, -⟩ := h
  obtain ⟨rdr, -, hl, -, hr₀, -, hcnccats, hpass⟩ := read_parts hread
  have hr := cnccats_ranged hl hr₀ hcnccats hraised
  have hl' := hr.same.linked hl
  obtain ⟨ha, hfol, hall⟩ := Setting.pass_follows hl' (fun c => (hr.interned.mem_order c).1) (Assigned.refl _)
    (Follows.start _) hpass
  rw [hmem] at hf ⊢
  rw [hcnc]
  have hsame : SameProds rdr.ccatMem set.ccatMem := hr.same.trans ha.sameProds
  obtain ⟨k, hk⟩ : ∃ k, cnccatOf set.ccatMem c = some k := by
    have hlt : c < st.rdr.ccatMem.length := by
      rw [← ha.length]
      cases hf with
      | here hc => exact (List.getElem?_eq_some_iff.1 hc).1
      | through hd =>
        obtain ⟨_, hc, -⟩ := hd
        exact (List.getElem?_eq_some_iff.1 hc).1
    rcases hall c ((hr.interned.mem_order c).2 hlt) with hk | hb
    · exact hk
    · exact absurd (ha.sameProds.under.1 hf) hb.not_under
  suffices hcount : ∃ cnccat, st.rdr.cnccatMem[k]? = some cnccat ∧ f.lins.length = cnccat.n_ctnts by
    obtain ⟨cnccat, hget, hcount⟩ := hcount
    exact ⟨k, cnccat, hk, hget, hcount⟩
  -- by induction on the coercions from `c`, until one leads into a range
  induction hf generalizing k with
  | @here c ccat f args hc hp =>
    obtain ⟨old, hold, he⟩ := ha.sameProds.back hc
    cases hn : old.cnccat with
    | some k₀ =>
      have hk₀ := (cnccatOf_eq hold).trans hn
      rw [ha.kept c k₀ hk₀, Option.some.injEq] at hk
      subst hk
      obtain ⟨cnccat, hget, hcount⟩ := hr.counted c k₀ hk₀
      exact ⟨cnccat, hget, hcount f (hsame.under.1 (.here hc hp))⟩
    | none =>
      obtain ⟨d, hd, -⟩ := hfol c old k hold hn hk _ (by rwa [he] at hp)
      cases hd
  | @through c d f hd hf ih =>
    obtain ⟨ccat, hc, hp⟩ := hd
    obtain ⟨old, hold, he⟩ := ha.sameProds.back hc
    cases hn : old.cnccat with
    | some k₀ =>
      have hk₀ := (cnccatOf_eq hold).trans hn
      rw [ha.kept c k₀ hk₀, Option.some.injEq] at hk
      subst hk
      obtain ⟨cnccat, hget, hcount⟩ := hr.counted c k₀ hk₀
      exact ⟨cnccat, hget, hcount f (hsame.under.1 (.through ⟨ccat, hc, hp⟩ hf))⟩
    | none =>
      obtain ⟨e, hd, hsame' | hb⟩ := hfol c old k hold hn hk _ (by rwa [he] at hp)
      · cases hd
        exact ih k hsame'
      · cases hd
        exact absurd (ha.sameProds.under.1 hf) hb.not_under

/-- What the reader makes, without an exception, is a concrete grammar. -/
theorem exists_read {fuel : Nat} {st : CncCatLoop} {set : Setting} (h : pgf_read_new_PgfConcr fuel ccats cnccats = .ok (st, set))
    (hraised : st.raised = false) : ∃ concr : PgfConcr, concr.ReadFrom ccats cnccats ∧ concr.cnccats = st.cnccats := by
  obtain ⟨rdr, -, hl, hfixed, hr₀, -, hcnccats, hpass⟩ := read_parts h
  have hr := cnccats_ranged hl hr₀ hcnccats hraised
  have hl' := hr.same.linked hl
  obtain ⟨ha, -⟩ := Setting.pass_follows hl' (fun c => (hr.interned.mem_order c).1) (Assigned.refl _)
    (Follows.start _) hpass
  have hsame : SameProds rdr.ccatMem set.ccatMem := hr.same.trans ha.sameProds
  refine ⟨⟨set.ccatMem, st.rdr.cnccatMem, st.cnccats, set.newly_set, fun ccat hc => ?_, hsame.linked hl, fun cnccat hc cat hcat c hm => ?_⟩,
    ⟨fuel, st, set, h, hraised, rfl, rfl, .refl _, rfl⟩, rfl⟩
  · obtain ⟨c, hc⟩ := List.mem_iff_getElem?.1 hc
    obtain ⟨old, hold, he⟩ := hsame.back hc
    rw [he]
    exact hfixed old (List.mem_of_getElem? hold)
  · exact hsame.length ▸ hr.cats cnccat hc cat hcat c hm

end Whole

end Libpgf
