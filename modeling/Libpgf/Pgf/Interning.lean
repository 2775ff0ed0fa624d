import Libpgf.Pgf.Reader
/-!
# One object for each category id

While a section is read the map only grows, and each category in memory is the
value of its own id. So every reference to an id is the same object, whenever it
is read.
-/

namespace Libpgf

/-! ## The ids of a section, and what they stand for -/

def PArgEntry.ids (arg : PArgEntry) : List Int := arg.hypos ++ [arg.ccat]

def ProductionEntry.ids : ProductionEntry → List Int
  | APPLY _ args => args.flatMap PArgEntry.ids
  | COERCE fid => [fid]

/-- The ids that an entry mentions, its own and those that it refers to. -/
def CCatEntry.ids (entry : CCatEntry) : List Int := entry.fid :: entry.prods.flatMap ProductionEntry.ids

/-- An argument, when `obj` gives the object of each id. -/
def PArgEntry.resolve (obj : Int → PgfCCatId) (arg : PArgEntry) : PgfPArg :=
  { hypos := arg.hypos.map obj, ccat := obj arg.ccat }

def ProductionEntry.resolve (obj : Int → PgfCCatId) : ProductionEntry → PgfProduction
  | APPLY fun_ args => .APPLY fun_ (args.map (PArgEntry.resolve obj))
  | COERCE fid => .COERCE (obj fid)

/-- The productions of the last entry for `n`, or null if there is none. -/
def listedProds (obj : Int → PgfCCatId) (entries : List CCatEntry) (n : Int) : PgfProductions :=
  match (entries.filter fun entry => entry.fid = n).getLast? with
  | none => .null
  | some entry => .seq (entry.prods.map (ProductionEntry.resolve obj))

theorem listedProds_none {obj : Int → PgfCCatId} {entries : List CCatEntry} {n : Int}
    (hn : n ∉ entries.flatMap CCatEntry.ids) : listedProds obj entries n = .null := by
  have : (entries.filter fun entry => entry.fid = n) = [] := by
    rw [List.filter_eq_nil_iff]
    intro entry he hf
    exact hn (List.mem_flatMap.2 ⟨entry, he, by simp [CCatEntry.ids, (of_decide_eq_true hf).symm]⟩)
  rw [listedProds, this]
  rfl

theorem listedProds_append {obj : Int → PgfCCatId} (entries : List CCatEntry) (entry : CCatEntry) (n : Int) :
    listedProds obj (entries ++ [entry]) n =
      if entry.fid = n then .seq (entry.prods.map (ProductionEntry.resolve obj)) else listedProds obj entries n := by
  unfold listedProds
  rw [List.filter_append]
  by_cases h : entry.fid = n
  · simp [h]
  · simp [h]

namespace PgfReader
variable {rdr rdr' rdr₁ rdr₂ : PgfReader} {n : Int} {c : PgfCCatId} {ids ids' : List Int}

/-- The map entry for `n` is the category at `c`. -/
def Names (rdr : PgfReader) (n : Int) (c : PgfCCatId) : Prop := rdr.curr_ccats.At gu_int32_hasher n (some c)

/-- The map names each category in memory by its id, and nothing else. -/
structure Interned (rdr : PgfReader) : Prop where
  valued : rdr.curr_ccats.Valued gu_int32_hasher
  default_value : rdr.curr_ccats.default_value = some none
  made : ∀ n v, rdr.curr_ccats.At gu_int32_hasher n v → ∃ c, v = some c
  fid : ∀ n c, rdr.Names n c → ∃ ccat, rdr.ccatMem[c]? = some ccat ∧ ccat.fid = n
  named : ∀ c ccat, rdr.ccatMem[c]? = some ccat → rdr.Names ccat.fid c

theorem Interned.unique {c' : PgfCCatId} (hr : rdr.Interned) (h : rdr.Names n c) (h' : rdr.Names n c') : c = c' :=
  Option.some.inj (hr.valued.unique h h')

/-- What reading the ids `ids` changes: they have objects now, and a new object
has no productions yet. -/
structure Grows (ids : List Int) (rdr rdr' : PgfReader) : Prop where
  names : ∀ n c, rdr.Names n c → rdr'.Names n c
  mentioned : ∀ n, (∃ c, rdr'.Names n c) ↔ (∃ c, rdr.Names n c) ∨ n ∈ ids
  more : ∃ more, rdr'.ccatMem = rdr.ccatMem ++ more ∧ ∀ ccat ∈ more, ccat.cnccat = none ∧ ccat.prods = .null

theorem Grows.refl (rdr : PgfReader) : Grows [] rdr rdr where
  names _ _ h := h
  mentioned n := by simp
  more := ⟨[], by simp⟩

theorem Grows.trans (h : Grows ids rdr rdr₁) (h' : Grows ids' rdr₁ rdr₂) : Grows (ids ++ ids') rdr rdr₂ := by
  obtain ⟨more, hm, hnull⟩ := h.more
  obtain ⟨more', hm', hnull'⟩ := h'.more
  refine ⟨fun n c hn => h'.names n c (h.names n c hn), fun n => ?_, more ++ more', ?_, ?_⟩
  · rw [h'.mentioned, h.mentioned, List.mem_append, or_assoc]
  · rw [hm', hm, List.append_assoc]
  · intro ccat hc
    rcases List.mem_append.1 hc with hc | hc
    · exact hnull ccat hc
    · exact hnull' ccat hc

/-- `obj` gives the object of each id that the map has. -/
def Covered (obj : Int → PgfCCatId) (rdr : PgfReader) : Prop := ∀ n c, rdr.Names n c → obj n = c

theorem Covered.of_grows {obj : Int → PgfCCatId} (h : Covered obj rdr') (hg : Grows ids rdr rdr') : Covered obj rdr :=
  fun n c hn => h n c (hg.names n c hn)

theorem key_eq {k k' : Int} : gu_int32_hasher.eq k k' = true ↔ k = k' := beq_iff_eq

theorem key_ne {k k' : Int} (h : k ≠ k') : gu_int32_hasher.eq k k' = false :=
  Bool.eq_false_iff.2 fun he => h (key_eq.1 he)

/-- What interning an id does. -/
theorem intern_spec (hr : rdr.Interned) (hi : pgf_reader_intern_ccat rdr n = .ok (rdr', c)) :
    rdr'.Interned ∧ Grows [n] rdr rdr' ∧ rdr'.Names n c := by
  unfold pgf_reader_intern_ccat at hi
  obtain ⟨⟨map, i⟩, hins, hi⟩ := Exec.bind_ok.1 hi
  obtain ⟨v, hv, hi⟩ := Exec.bind_ok.1 hi
  rw [Exec.deref_ok] at hv
  have hin := GuMap.insert_values hr.valued hins
  have hnv : map.At gu_int32_hasher n v := ⟨i, hin.used, hin.key, hv⟩
  have hother : ∀ {k v}, k ≠ n → (map.At gu_int32_hasher k v ↔ rdr.curr_ccats.At gu_int32_hasher k v) :=
    fun hk => hin.other _ _ (key_ne hk)
  cases v with
  | some c' =>
    simp only [Exec.pure_eq, Except.ok.injEq, Prod.mk.injEq] at hi
    obtain ⟨rfl, rfl⟩ := hi
    -- an entry of the map with an object was there before
    have hold : rdr.Names n c' := by
      by_cases hhas : rdr.curr_ccats.Has gu_int32_hasher n
      · obtain ⟨v, hv'⟩ := hr.valued.has_iff.1 hhas
        have := hin.valued.unique hnv (hin.old v hv')
        rw [← this] at hv'
        exact hv'
      · have := hin.valued.unique hnv (hin.new hhas none hr.default_value)
        cases this
    have hsame : ∀ k v, map.At gu_int32_hasher k v ↔ rdr.curr_ccats.At gu_int32_hasher k v := by
      intro k v
      by_cases hk : k = n
      · subst hk
        refine ⟨fun h => ?_, hin.old v⟩
        rw [hin.valued.unique h hnv]
        exact hold
      · exact hother hk
    refine ⟨⟨hin.valued, hin.default_value.trans hr.default_value, fun k v h => hr.made k v ((hsame k v).1 h),
      fun k d h => hr.fid k d ((hsame k _).1 h), fun d ccat h => (hsame _ _).2 (hr.named d ccat h)⟩,
      ⟨fun k d h => (hsame k _).2 h, fun k => ?_, [], by simp⟩, hnv⟩
    constructor
    · rintro ⟨d, hd⟩
      exact .inl ⟨d, (hsame k _).1 hd⟩
    · rintro (⟨d, hd⟩ | hk)
      · exact ⟨d, (hsame k _).2 hd⟩
      · rw [List.mem_singleton.1 hk]
        exact ⟨c', hnv⟩
  | none =>
    simp only [Exec.pure_eq, Except.ok.injEq, Prod.mk.injEq] at hi
    obtain ⟨rfl, rfl⟩ := hi
    have hnew : ∀ d, ¬ rdr.Names n d := by
      intro d hd
      have := hin.valued.unique hnv (hin.old _ hd)
      cases this
    have hput := hin.valued.put_at hin.used hin.key (some rdr.ccatMem.length)
    have hput' : ∀ {k v}, k ≠ n → ((map.put i (some rdr.ccatMem.length)).At gu_int32_hasher k v ↔
        rdr.curr_ccats.At gu_int32_hasher k v) :=
      fun hk => (GuMap.put_other hin.key (key_ne hk)).trans (hother hk)
    have hval := hin.valued.put i (some rdr.ccatMem.length)
    refine ⟨⟨hval, hin.default_value.trans hr.default_value, fun k v h => ?_, fun k d h => ?_, fun d ccat h => ?_⟩,
      ⟨fun k d h => ?_, fun k => ?_, [⟨none, .null, n⟩], rfl, by simp⟩, hput⟩
    · by_cases hk : k = n
      · subst hk
        exact ⟨_, hval.unique h hput⟩
      · exact hr.made k v ((hput' hk).1 h)
    · by_cases hk : k = n
      · subst hk
        obtain rfl := Option.some.inj (hval.unique h hput)
        exact ⟨⟨none, .null, k⟩, by simp, rfl⟩
      · obtain ⟨ccat, hc, hf⟩ := hr.fid k d ((hput' hk).1 h)
        refine ⟨ccat, ?_, hf⟩
        exact (List.getElem?_append_left (List.getElem?_eq_some_iff.1 hc).1).trans hc
    · rcases Nat.lt_or_ge d rdr.ccatMem.length with hd | hd
      · have hc : rdr.ccatMem[d]? = some ccat := (List.getElem?_append_left hd).symm.trans h
        have hname := hr.named d ccat hc
        have hk : ccat.fid ≠ n := fun hk => hnew d (hk ▸ hname)
        exact (hput' hk).2 hname
      · have hd' : d = rdr.ccatMem.length := by
          have := (List.getElem?_eq_some_iff.1 h).1
          simp only [List.length_append, List.length_singleton] at this
          exact Nat.le_antisymm (Nat.lt_succ_iff.1 this) hd
        subst hd'
        have hc : ccat = ⟨none, .null, n⟩ := by simpa using h.symm
        rw [hc]
        exact hput
    · have hk : k ≠ n := fun hk => hnew d (hk ▸ h)
      exact (hput' hk).2 h
    · by_cases hk : k = n
      · subst hk
        exact ⟨fun _ => .inr (List.mem_singleton_self k), fun _ => ⟨_, hput⟩⟩
      · constructor
        · rintro ⟨d, hd⟩
          exact .inl ⟨d, (hput' hk).1 hd⟩
        · rintro (⟨d, hd⟩ | hk')
          · exact ⟨d, (hput' hk).2 hd⟩
          · exact absurd (List.mem_singleton.1 hk') hk

/-! ## Reading references -/

/-- Reading something with the ids `ids`, which comes to `b` with the objects of the map. -/
structure Reads {β : Type} (ids : List Int) (resolve : (Int → PgfCCatId) → β) (rdr rdr' : PgfReader) (b : β) : Prop where
  interned : rdr'.Interned
  grows : Grows ids rdr rdr'
  value : ∀ obj, Covered obj rdr' → b = resolve obj

theorem intern_reads (hr : rdr.Interned) (hi : pgf_reader_intern_ccat rdr n = .ok (rdr', c)) :
    Reads [n] (fun obj => obj n) rdr rdr' c := by
  obtain ⟨hr', hg, hn⟩ := intern_spec hr hi
  exact ⟨hr', hg, fun obj ho => (ho n c hn).symm⟩

theorem Reads.trans {β γ δ : Type} {f : (Int → PgfCCatId) → β} {g : (Int → PgfCCatId) → γ} {b : β} {b' : γ}
    (h : Reads ids f rdr rdr₁ b) (h' : Reads ids' g rdr₁ rdr₂ b') (mk : β → γ → δ) :
    Reads (ids ++ ids') (fun obj => mk (f obj) (g obj)) rdr rdr₂ (mk b b') := by
  refine ⟨h'.interned, h.grows.trans h'.grows, fun obj ho => ?_⟩
  rw [h.value obj (ho.of_grows h'.grows), h'.value obj ho]

/-- A sequence is read element by element. -/
theorem seq_reads {α β : Type} {read : PgfReader → α → Exec (PgfReader × β)} {ids : α → List Int}
    {resolve : (Int → PgfCCatId) → α → β}
    (hread : ∀ rdr a rdr' b, rdr.Interned → read rdr a = .ok (rdr', b) →
      Reads (ids a) (fun obj => resolve obj a) rdr rdr' b) :
    ∀ {as : List α} {rdr rdr' : PgfReader} {bs : List β}, rdr.Interned → pgf_read_to_GuSeq read rdr as = .ok (rdr', bs) →
      Reads (as.flatMap ids) (fun obj => as.map (resolve obj)) rdr rdr' bs := by
  intro as
  induction as with
  | nil =>
    intro rdr rdr' bs hr h
    simp only [pgf_read_to_GuSeq, Except.ok.injEq, Prod.mk.injEq] at h
    obtain ⟨rfl, rfl⟩ := h
    exact ⟨hr, Grows.refl rdr, fun _ _ => rfl⟩
  | cons a as ih =>
    intro rdr rdr' bs hr h
    obtain ⟨⟨rdr₁, b⟩, h₁, h⟩ := Exec.bind_ok.1 h
    obtain ⟨⟨rdr₂, bs'⟩, h₂, h⟩ := Exec.bind_ok.1 h
    simp only [Exec.pure_eq, Except.ok.injEq, Prod.mk.injEq] at h
    obtain ⟨rfl, rfl⟩ := h
    have hb := hread _ _ _ _ hr h₁
    exact hb.trans (ih hb.interned h₂) List.cons

theorem parg_reads {arg : PArgEntry} {parg : PgfPArg} (hr : rdr.Interned)
    (h : pgf_read_to_PgfPArg rdr arg = .ok (rdr', parg)) : Reads arg.ids (fun obj => arg.resolve obj) rdr rdr' parg := by
  obtain ⟨⟨rdr₁, hypos⟩, h₁, h⟩ := Exec.bind_ok.1 h
  obtain ⟨⟨rdr₂, ccat⟩, h₂, h⟩ := Exec.bind_ok.1 h
  simp only [Exec.pure_eq, Except.ok.injEq, Prod.mk.injEq] at h
  obtain ⟨rfl, rfl⟩ := h
  have hh : Reads (arg.hypos.flatMap fun n => [n]) (fun obj => arg.hypos.map obj) rdr rdr₁ hypos :=
    seq_reads (fun _ _ _ _ hr h => intern_reads hr h) hr h₁
  rw [List.flatMap_singleton'] at hh
  exact hh.trans (intern_reads hh.interned h₂) fun hypos ccat => (⟨hypos, ccat⟩ : PgfPArg)

theorem production_reads {prod : ProductionEntry} {p : PgfProduction} (hr : rdr.Interned)
    (h : pgf_read_to_PgfProduction rdr prod = .ok (rdr', p)) :
    Reads prod.ids (fun obj => prod.resolve obj) rdr rdr' p := by
  cases prod with
  | APPLY fun_ args =>
    obtain ⟨⟨rdr₁, args'⟩, h₁, h⟩ := Exec.bind_ok.1 h
    simp only [Exec.pure_eq, Except.ok.injEq, Prod.mk.injEq] at h
    obtain ⟨rfl, rfl⟩ := h
    have ha := seq_reads (fun _ _ _ _ hr h => parg_reads hr h) hr h₁
    exact ⟨ha.interned, ha.grows, fun obj ho => congrArg (PgfProduction.APPLY fun_) (ha.value obj ho)⟩
  | COERCE fid =>
    obtain ⟨⟨rdr₁, coerce⟩, h₁, h⟩ := Exec.bind_ok.1 h
    simp only [Exec.pure_eq, Except.ok.injEq, Prod.mk.injEq] at h
    obtain ⟨rfl, rfl⟩ := h
    have hc := intern_reads hr h₁
    exact ⟨hc.interned, hc.grows, fun obj ho => congrArg PgfProduction.COERCE (hc.value obj ho)⟩

/-! ## Reading entries -/

/-- The categories in memory after the entries `entries`. -/
structure Listed (entries : List CCatEntry) (rdr : PgfReader) : Prop where
  interned : rdr.Interned
  mentioned : ∀ n, (∃ c, rdr.Names n c) ↔ n ∈ entries.flatMap CCatEntry.ids
  ccats : ∀ obj, Covered obj rdr → ∀ ccat ∈ rdr.ccatMem,
    ccat.cnccat = none ∧ ccat.prods = listedProds obj entries ccat.fid

/-- Filling in the productions of a category keeps the objects. -/
theorem Interned.setCCat {ccat ccat' : PgfCCat} (hr : rdr.Interned) (hc : rdr.ccatMem[c]? = some ccat)
    (hf : ccat'.fid = ccat.fid) : (rdr.setCCat c ccat').Interned where
  valued := hr.valued
  default_value := hr.default_value
  made := hr.made
  fid n d hn := by
    obtain ⟨dcat, hd, hfid⟩ := hr.fid n d hn
    by_cases hcd : c = d
    · subst hcd
      refine ⟨ccat', List.getElem?_set_self (List.getElem?_eq_some_iff.1 hc).1, ?_⟩
      rw [hc, Option.some.injEq] at hd
      rw [hf, hd, hfid]
    · exact ⟨dcat, (List.getElem?_set_ne hcd).trans hd, hfid⟩
  named d dcat hd := by
    by_cases hcd : c = d
    · subst hcd
      have hlt := (List.getElem?_eq_some_iff.1 hc).1
      have : dcat = ccat' := Option.some.inj (hd.symm.trans (List.getElem?_set_self hlt))
      rw [this, hf]
      exact hr.named c ccat hc
    · exact hr.named d dcat ((List.getElem?_set_ne hcd).symm.trans hd)

/-- Storing the object of an id under it again. -/
theorem Interned.put {map : GuMap Int (Option PgfCCatId)} {i : Nat} (hr : rdr.Interned) (hn : rdr.Names n c)
    (hi : rdr.curr_ccats.gu_map_insert gu_int32_hasher n = .ok (map, i)) :
    ({ rdr with curr_ccats := map.put i (some c) } : PgfReader).Interned ∧
      ∀ m d, ({ rdr with curr_ccats := map.put i (some c) } : PgfReader).Names m d ↔ rdr.Names m d := by
  have hin := GuMap.insert_values hr.valued hi
  have hput := hin.valued.put_at hin.used hin.key (some c)
  have hval := hin.valued.put i (some c)
  have hsame : ∀ k v, (map.put i (some c)).At gu_int32_hasher k v ↔ rdr.curr_ccats.At gu_int32_hasher k v := by
    intro k v
    by_cases hk : k = n
    · subst hk
      constructor
      · intro h
        rw [hval.unique h hput]
        exact hn
      · intro h
        rw [hr.valued.unique h hn]
        exact hput
    · exact (GuMap.put_other hin.key (key_ne hk)).trans (hin.other _ _ (key_ne hk))
  exact ⟨⟨hval, hin.default_value.trans hr.default_value, fun k v h => hr.made k v ((hsame k v).1 h),
    fun k d h => hr.fid k d ((hsame k _).1 h), fun d ccat h => (hsame _ _).2 (hr.named d ccat h)⟩,
    fun m d => hsame m _⟩

/-- Objects that are new since the entries were read have no entry. -/
theorem Listed.grown {entries : List CCatEntry} {obj : Int → PgfCCatId} {ccat : PgfCCat} (hl : Listed entries rdr)
    (hg : Grows ids rdr rdr') (hr : rdr'.Interned) (ho : Covered obj rdr') (hc : ccat ∈ rdr'.ccatMem) :
    ccat.cnccat = none ∧ ccat.prods = listedProds obj entries ccat.fid := by
  obtain ⟨more, hm, hnull⟩ := hg.more
  obtain ⟨c, hc⟩ := List.mem_iff_getElem?.1 hc
  rcases Nat.lt_or_ge c rdr.ccatMem.length with hlt | hge
  · rw [hm, List.getElem?_append_left hlt] at hc
    exact hl.ccats obj (ho.of_grows hg) ccat (List.mem_of_getElem? hc)
  · have hin : ccat ∈ more := by
      rw [hm, List.getElem?_append_right hge] at hc
      exact List.mem_of_getElem? hc
    obtain ⟨hcc, hp⟩ := hnull ccat hin
    refine ⟨hcc, hp.trans (listedProds_none fun hn => ?_).symm⟩
    obtain ⟨d, hd⟩ := (hl.mentioned _).2 hn
    obtain ⟨dcat, hd', -⟩ := hl.interned.fid _ _ hd
    have hcd := hr.unique (hr.named c ccat hc) (hg.names _ _ hd)
    have hlt := (List.getElem?_eq_some_iff.1 hd').1
    rw [← hcd] at hlt
    exact absurd hlt (Nat.not_lt.2 hge)

/-- What one entry does. -/
theorem entry_listed {entries : List CCatEntry} {entry : CCatEntry} (hl : Listed entries rdr)
    (h : pgf_read_ccat_entry rdr entry = .ok rdr') : Listed (entries ++ [entry]) rdr' := by
  obtain ⟨⟨rdr₃, c'⟩, h₃, h⟩ := Exec.bind_ok.1 h
  obtain ⟨⟨map, i⟩, hi, h⟩ := Exec.bind_ok.1 h
  obtain ⟨⟨rdr₁, c⟩, h₁, h₃⟩ := Exec.bind_ok.1 h₃
  obtain ⟨⟨rdr₂, prods⟩, h₂, h₃⟩ := Exec.bind_ok.1 h₃
  obtain ⟨ccat, hc, h₃⟩ := Exec.bind_ok.1 h₃
  simp only [Exec.pure_eq, Except.ok.injEq, Prod.mk.injEq, Exec.deref_ok] at h₃ h hc
  obtain ⟨rfl, rfl⟩ := h₃
  subst h
  obtain ⟨hr₁, hg₁, hn₁⟩ := intern_spec hl.interned h₁
  have hps := seq_reads (fun _ _ _ _ hr h => production_reads hr h) hr₁ h₂
  have hn₂ : rdr₂.Names entry.fid c := hps.grows.names _ _ hn₁
  have hfid : ccat.fid = entry.fid := by
    obtain ⟨ccat', hc', hf⟩ := hps.interned.fid _ _ hn₂
    rw [hc, Option.some.injEq] at hc'
    rw [hc', hf]
  have hr₃ : (rdr₂.setCCat c { ccat with prods := .seq prods }).Interned := hps.interned.setCCat hc rfl
  obtain ⟨hr₄, hsame⟩ := hr₃.put hn₂ hi
  have hg : Grows entry.ids rdr rdr₂ := hg₁.trans hps.grows
  refine ⟨hr₄, fun n => ?_, fun obj ho dcat hd => ?_⟩
  · have : (∃ d, rdr₂.Names n d) ↔ n ∈ entries.flatMap CCatEntry.ids ∨ n ∈ entry.ids := by
      rw [hg.mentioned, hl.mentioned]
    simp only [hsame]
    rw [List.flatMap_append, List.mem_append, List.flatMap_singleton]
    exact this
  · have ho₂ : Covered obj rdr₂ := fun n d hn => ho n d ((hsame n d).2 hn)
    rw [listedProds_append]
    obtain ⟨d, hd⟩ := List.mem_iff_getElem?.1 hd
    by_cases hcd : c = d
    · -- the category of the entry itself
      subst hcd
      have hlt := (List.getElem?_eq_some_iff.1 hc).1
      obtain rfl : dcat = { ccat with prods := .seq prods } :=
        Option.some.inj (hd.symm.trans (List.getElem?_set_self hlt))
      rw [if_pos hfid.symm]
      exact ⟨(hl.grown hg hps.interned ho₂ (List.mem_of_getElem? hc)).1, congrArg PgfProductions.seq (hps.value obj ho₂)⟩
    · have hd₂ : rdr₂.ccatMem[d]? = some dcat := (List.getElem?_set_ne hcd).symm.trans hd
      have hne : entry.fid ≠ dcat.fid := by
        intro he
        exact hcd (hps.interned.unique hn₂ (he ▸ hps.interned.named d dcat hd₂))
      rw [if_neg hne]
      exact hl.grown hg hps.interned ho₂ (List.mem_of_getElem? hd₂)

theorem entries_listed {entries : List CCatEntry} : ∀ {more : List CCatEntry} {rdr rdr' : PgfReader}, Listed entries rdr →
    forEach pgf_read_ccat_entry more rdr = .ok rdr' → Listed (entries ++ more) rdr' := by
  intro more
  induction more generalizing entries with
  | nil =>
    intro rdr rdr' hl h
    simp only [forEach_nil, Except.ok.injEq] at h
    subst h
    rw [List.append_nil]
    exact hl
  | cons entry more ih =>
    intro rdr rdr' hl h
    obtain ⟨rdr₁, h₁, h⟩ := Exec.bind_ok.1 h
    have := ih (entry_listed hl h₁) h
    rwa [List.append_assoc] at this

theorem ccats_listed {entries : List CCatEntry} (h : pgf_read_ccats entries = .ok rdr) : Listed entries rdr := by
  obtain ⟨map, hm, h⟩ := Exec.bind_ok.1 h
  obtain ⟨hval, hdef, hnone⟩ := GuMap.make_values hm
  have hempty : Listed [] { ccatMem := [], cnccatMem := [], curr_ccats := map } := by
    refine ⟨⟨hval, hdef, fun n v h => absurd h (hnone n v), fun n c h => absurd h (hnone n _), fun c ccat h => ?_⟩,
      fun n => ?_, fun _ _ ccat hc => ?_⟩
    · simp at h
    · constructor
      · rintro ⟨c, hc⟩
        exact absurd hc (hnone n (some c))
      · intro hn
        simp at hn
    · simp at hc
  exact entries_listed hempty h

/-- The map as a function. -/
theorem Interned.exists_covered (hr : rdr.Interned) : ∃ obj, Covered obj rdr := by
  have hex : ∀ n, ∃ c, ∀ d, rdr.Names n d → c = d := by
    intro n
    by_cases hn : ∃ c, rdr.Names n c
    · obtain ⟨c, hc⟩ := hn
      exact ⟨c, fun d hd => hr.unique hc hd⟩
    · exact ⟨0, fun d hd => absurd ⟨d, hd⟩ hn⟩
  choose obj ho using hex
  exact ⟨obj, ho⟩

theorem Listed.names {entries : List CCatEntry} {obj : Int → PgfCCatId} (hl : Listed entries rdr) (ho : Covered obj rdr)
    (hn : n ∈ entries.flatMap CCatEntry.ids) : rdr.Names n (obj n) := by
  obtain ⟨c, hc⟩ := (hl.mentioned n).2 hn
  rw [ho n c hc]
  exact hc

end PgfReader

/-- After a category section is read, the map gives one object for each id that
the section mentions, all references to the id are this object, and it has the
productions of the last entry for the id. Different ids have different objects,
and there are no others. -/
theorem pgf_read_ccats_objects {entries : List CCatEntry} {rdr : PgfReader} (h : pgf_read_ccats entries = .ok rdr) :
    ∃ obj : Int → PgfCCatId,
      (∀ n ∈ entries.flatMap CCatEntry.ids,
        rdr.curr_ccats.gu_map_find gu_int32_hasher n = .ok (some (some (obj n))) ∧
        rdr.ccatMem[obj n]? = some { cnccat := none, prods := listedProds obj entries n, fid := n }) ∧
      (∀ n v, rdr.curr_ccats.gu_map_find gu_int32_hasher n = .ok (some v) → n ∈ entries.flatMap CCatEntry.ids) ∧
      (∀ n ∈ entries.flatMap CCatEntry.ids, ∀ m ∈ entries.flatMap CCatEntry.ids, obj n = obj m → n = m) ∧
      ∀ c < rdr.ccatMem.length, ∃ n ∈ entries.flatMap CCatEntry.ids, obj n = c := by
  have hl := PgfReader.ccats_listed h
  have hr := hl.interned
  obtain ⟨obj, ho⟩ := hr.exists_covered
  have hnames : ∀ n ∈ entries.flatMap CCatEntry.ids, rdr.Names n (obj n) := fun n => hl.names ho
  have hccat : ∀ n ∈ entries.flatMap CCatEntry.ids,
      rdr.ccatMem[obj n]? = some { cnccat := none, prods := listedProds obj entries n, fid := n } := by
    intro n hn
    obtain ⟨⟨cnccat, prods, fid⟩, hc, hfid⟩ := hr.fid n _ (hnames n hn)
    obtain ⟨hcnccat, hprods⟩ := hl.ccats obj ho _ (List.mem_of_getElem? hc)
    simp only at hfid hcnccat hprods
    rw [hc, hcnccat, hprods, hfid]
  refine ⟨obj, fun n hn => ⟨hr.valued.find_at (hnames n hn), hccat n hn⟩, fun n v hf => ?_, fun n hn m hm he => ?_,
    fun c hc => ?_⟩
  · have hv := (GuMap.find_iff hr.valued hf v).1 rfl
    obtain ⟨c, rfl⟩ := hr.made n v hv
    exact (hl.mentioned n).1 ⟨c, hv⟩
  · have := hccat n hn
    rw [he, hccat m hm, Option.some.injEq, PgfCCat.mk.injEq] at this
    exact this.2.2.symm
  · have hnamed := hr.named c _ (List.getElem?_eq_getElem hc)
    exact ⟨_, (hl.mentioned _).1 ⟨c, hnamed⟩, ho _ c hnamed⟩

/-- Category 5 is listed twice, and while its first entry is read the map outgrows its table. -/
def crowdedSection : List CCatEntry :=
  [{ fid := 5, prods := [.COERCE 0, .APPLY ⟨[102], [], 0⟩ [⟨[-1, 5], -2⟩, ⟨[20, 21, 22, 23, 24, 25, 26, 27], 0⟩]] },
    { fid := -1, prods := [] }, { fid := 5, prods := [.COERCE (-1), .COERCE 5] }]

theorem pgf_read_ccats_objects_crowded : ∃ rdr, pgf_read_ccats crowdedSection = .ok rdr ∧ 11 < rdr.curr_ccats.n_entries ∧
    ∃ obj : Int → PgfCCatId, rdr.ccatMem[obj 5]? =
      some { cnccat := none, prods := .seq [.COERCE (obj (-1)), .COERCE (obj 5)], fid := 5 } ∧ obj 0 ≠ obj (-1) := by
  have hrun : (pgf_read_ccats crowdedSection).toOption.any (fun rdr => decide (11 < rdr.curr_ccats.n_entries)) = true := by
    decide +kernel
  cases h : pgf_read_ccats crowdedSection with
  | error e => simp [h, Except.toOption] at hrun
  | ok rdr =>
    simp only [h, Except.toOption, Option.any_some, decide_eq_true_eq] at hrun
    obtain ⟨obj, hobj, -, hinj, -⟩ := pgf_read_ccats_objects h
    refine ⟨rdr, rfl, hrun, obj, (hobj 5 (by decide)).2, fun he => ?_⟩
    exact absurd (hinj 0 (by decide) (-1) (by decide) he) (by decide)

end Libpgf
