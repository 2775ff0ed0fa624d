import Libpgf.Pgf.Emission
/-!
# References of accepted grammars

Functions and sequences are numbered in the file, and the reader looks each
number up in the section that it has read before. What a symbol `<d,r>` names is
not looked up anywhere.
-/

namespace Libpgf

/-! ## The sections, with numbers -/

/-- An entry of the function section; its sequences are given by number. -/
structure CncFunEntry where
  fun_ : PgfCId
  lins : List Int

/-- A production, its function given by number. -/
inductive ProductionItem where
  | APPLY (fun_ : Int) (args : List PArgEntry)
  | COERCE (coerce : Int)

/-- An entry of the category section. -/
structure CCatItem where
  fid : Int
  prods : List ProductionItem

/-- The sections of a concrete grammar that its categories come from, in the order of the file. -/
structure ConcrSections where
  sequences : List PgfSequence
  cncfuns : List CncFunEntry
  ccats : List CCatItem
  cnccats : List CncCatEntry

/-- `gu_seq_get` for a number that is in range; none when `PgfReadExn` is raised. -/
def readById {α : Type} (elems : List α) (id : Int) : Option α :=
  if id < 0 ∨ elems.length ≤ id.toNat then none else elems[id.toNat]?

def pgf_read_to_PgfSeqId (curr_sequences : List PgfSequence) (id : Int) : Option PgfSequence := readById curr_sequences id

def pgf_read_to_PgfFunId (curr_cncfuns : List PgfCncFun) (id : Int) : Option PgfCncFun := readById curr_cncfuns id

def pgf_read_to_PgfCncFun (curr_sequences : List PgfSequence) (entry : CncFunEntry) (i : Nat) : Option PgfCncFun := do
  let lins ← entry.lins.mapM (pgf_read_to_PgfSeqId curr_sequences)
  return { fun_ := entry.fun_, lins, fid := i }

/-- The function section. The `fid` of a function is its number. -/
def pgf_read_cncfuns (curr_sequences : List PgfSequence) (entries : List CncFunEntry) : Option (List PgfCncFun) :=
  entries.zipIdx.mapM fun e => pgf_read_to_PgfCncFun curr_sequences e.1 e.2

/-- Looks up the function of a production. -/
def ProductionItem.entry (curr_cncfuns : List PgfCncFun) : ProductionItem → Option ProductionEntry
  | APPLY fun_ args => do
    let fun_ ← pgf_read_to_PgfFunId curr_cncfuns fun_
    return .APPLY fun_ args
  | COERCE coerce => some (.COERCE coerce)

def CCatItem.entry (curr_cncfuns : List PgfCncFun) (item : CCatItem) : Option CCatEntry := do
  let prods ← item.prods.mapM (ProductionItem.entry curr_cncfuns)
  return { fid := item.fid, prods }

/-- The reader makes `concr` of the sections, without an exception. -/
def PgfConcr.AcceptedFrom (concr : PgfConcr) (s : ConcrSections) : Prop :=
  ∃ cncfuns ccats, pgf_read_cncfuns s.sequences s.cncfuns = some cncfuns ∧ s.ccats.mapM (CCatItem.entry cncfuns) = some ccats ∧
    concr.ReadFrom ccats s.cnccats

/-- The function and its sequences are those of the file with the numbers that the file gives. -/
def ConcrSections.Defines (s : ConcrSections) (f : PgfCncFun) : Prop :=
  ∃ (i : Nat) (entry : CncFunEntry), s.cncfuns[i]? = some entry ∧ f.fid = i ∧ f.fun_ = entry.fun_ ∧
    List.Forall₂ (fun (id : Int) seq => ∃ n : Nat, id = n ∧ s.sequences[n]? = some seq) entry.lins f.lins

/-! ## Numbers in range -/

theorem readById_some {α : Type} {elems : List α} {id : Int} {a : α} (h : readById elems id = some a) :
    ∃ n : Nat, id = n ∧ elems[n]? = some a := by
  unfold readById at h
  split at h
  · cases h
  · rename_i hrange
    exact ⟨id.toNat, by omega, h⟩

theorem mapM_some {α β : Type} {f : α → Option β} {as : List α} {bs : List β} (h : as.mapM f = some bs) :
    List.Forall₂ (fun a b => f a = some b) as bs := by
  induction as generalizing bs with
  | nil =>
    obtain rfl : bs = [] := by simpa using h.symm
    exact .nil
  | cons a as ih =>
    rw [List.mapM_cons] at h
    obtain ⟨b, hb, h⟩ := Option.bind_eq_some_iff.1 h
    obtain ⟨bs', hbs, h⟩ := Option.bind_eq_some_iff.1 h
    obtain rfl := Option.some.inj h
    exact .cons hb (ih hbs)

theorem mapM_get {α β : Type} {f : α → Option β} {as : List α} {bs : List β} {i : Nat} {b : β} (h : as.mapM f = some bs)
    (hb : bs[i]? = some b) : ∃ a, as[i]? = some a ∧ f a = some b := by
  have hall := mapM_some h
  obtain ⟨hlt, rfl⟩ := List.getElem?_eq_some_iff.1 hb
  have hlt' : i < as.length := hall.length_eq ▸ hlt
  exact ⟨as[i], List.getElem?_eq_getElem hlt', hall.get hlt' hlt⟩

theorem mapM_mem {α β : Type} {f : α → Option β} {as : List α} {bs : List β} {b : β} (h : as.mapM f = some bs) (hb : b ∈ bs) :
    ∃ a ∈ as, f a = some b := by
  obtain ⟨i, hi⟩ := List.mem_iff_getElem?.1 hb
  obtain ⟨a, ha, hab⟩ := mapM_get h hi
  exact ⟨a, List.mem_of_getElem? ha, hab⟩

section Numbers
variable {s : ConcrSections} {cncfuns : List PgfCncFun} {ccats : List CCatEntry}

/-- A function that is looked up is one of the file. -/
theorem cncfun_defined (hfuns : pgf_read_cncfuns s.sequences s.cncfuns = some cncfuns) {id : Int} {f : PgfCncFun}
    (hf : pgf_read_to_PgfFunId cncfuns id = some f) : s.Defines f := by
  obtain ⟨n, -, hget⟩ := readById_some hf
  obtain ⟨⟨entry, i⟩, he, hread⟩ := mapM_get hfuns hget
  rw [List.getElem?_zipIdx, Option.map_eq_some_iff] at he
  obtain ⟨entry', he, hpair⟩ := he
  obtain ⟨rfl, rfl⟩ := Prod.mk.inj hpair
  obtain ⟨lins, hlins, hread⟩ := Option.bind_eq_some_iff.1 hread
  obtain rfl := Option.some.inj hread
  refine ⟨n, entry', he, by simp, rfl, ?_⟩
  exact (mapM_some hlins).imp fun _ _ h => readById_some h

/-- So are the functions of the entries that come out of the category section. -/
theorem entries_defined (hfuns : pgf_read_cncfuns s.sequences s.cncfuns = some cncfuns)
    (hccats : s.ccats.mapM (CCatItem.entry cncfuns) = some ccats) {entry : CCatEntry} (he : entry ∈ ccats) {f : PgfCncFun}
    {args : List PArgEntry} (hp : .APPLY f args ∈ entry.prods) : s.Defines f := by
  obtain ⟨item, -, hitem⟩ := mapM_mem hccats he
  obtain ⟨prods, hprods, hitem⟩ := Option.bind_eq_some_iff.1 hitem
  obtain rfl := Option.some.inj hitem
  obtain ⟨prod, -, hprod⟩ := mapM_mem hprods hp
  cases prod with
  | APPLY id args' =>
    obtain ⟨f', hf, hprod⟩ := Option.bind_eq_some_iff.1 hprod
    cases hprod
    exact cncfun_defined hfuns hf
  | COERCE coerce => cases hprod

end Numbers

/-! ## Ranges -/

/-- The functions under the categories of a range have its number of constituents. -/
def RangeLoop.Counted (mem : List PgfCCat) (st : RangeLoop) : Prop :=
  st.raised = false → ∀ c, some c ∈ st.cats → ∀ f, Under mem c f → st.n_ctnts = f.lins.length

theorem range_counted {rdr : PgfReader} {st st' : RangeLoop} {fuel i : Nat} {first : Int} (hl : Linked rdr.ccatMem)
    (hi : InRange rdr st) (hcounted : st.Counted rdr.ccatMem) (h : pgf_read_range fuel rdr.cnccatMem.length first st i = .ok st') :
    st'.Counted rdr.ccatMem := by
  unfold pgf_read_range at h
  split at h
  · cases h
    exact hcounted
  rename_i hraised
  obtain ⟨found, hfound, h⟩ := Exec.bind_ok.1 h
  cases hj : found.join with
  | none =>
    simp only [hj, Exec.pure_eq, Except.ok.injEq] at h
    subst h
    intro hr c hc
    rcases List.mem_append.1 hc with hc | hc
    · exact hcounted hr c hc
    · exact absurd (List.mem_singleton.1 hc) (Option.some_ne_none c)
  | some d =>
    simp only [hj] at h
    obtain ⟨ccat, hd, h⟩ := Exec.bind_ok.1 h
    obtain ⟨⟨succ, n⟩, hn, h⟩ := Exec.bind_ok.1 h
    rw [Exec.deref_ok] at hd
    simp only [Exec.pure_eq, Except.ok.injEq] at h
    subst h
    intro hr c hc f hf
    obtain rfl : succ = true := by simpa using hr
    have hset := SameProds.set hd (some rdr.cnccatMem.length)
    have hsame := hi.same.trans hset
    obtain ⟨ccat', hd'⟩ := hset.ccats d ccat hd
    obtain ⟨hcount, hkeep⟩ := n_ctnts_counts (hsame.linked hl) hd' hn
    rcases List.mem_append.1 hc with hc | hc
    · have hst := hcounted (by simpa using hraised) c hc f hf
      exact (hkeep (hst ▸ length_ne)).trans hst
    · obtain rfl := Option.some.inj (List.mem_singleton.1 hc)
      exact hcount f (hsame.under.2 hf)

/-- The same for the concrete categories that have been read. -/
def PgfReader.Counted (mem : List PgfCCat) (rdr : PgfReader) : Prop :=
  ∀ cnccat ∈ rdr.cnccatMem, ∀ c, some c ∈ cnccat.cats → ∀ f, Under mem c f → f.lins.length = cnccat.n_ctnts

theorem cnccat_counted {mem : List PgfCCat} {rdr rdr' : PgfReader} {entry : CncCatEntry} {fuel k : Nat} (hl : Linked mem)
    (hr : Ranged mem rdr) (hcounted : rdr.Counted mem) (h : pgf_read_new_PgfCncCat fuel rdr entry = .ok (rdr', some k)) :
    rdr'.Counted mem := by
  obtain ⟨_, -, h⟩ := Exec.bind_ok.1 h
  obtain ⟨len, -, h⟩ := Exec.bind_ok.1 h
  obtain ⟨_, -, h⟩ := Exec.bind_ok.1 h
  obtain ⟨st, hloop, h⟩ := Exec.bind_ok.1 h
  have hl' := hr.same.linked hl
  have hi : InRange rdr st ∧ st.Counted rdr.ccatMem := by
    refine forEach_inv (P := fun st => InRange rdr st ∧ st.Counted rdr.ccatMem)
      (fun i _ st st' hst hstep => ⟨range_step hl' hst.1 hstep, range_counted hl' hst.1 hst.2 hstep⟩) ?_ hloop
    exact ⟨hr.start, fun _ c hc => absurd hc List.not_mem_nil⟩
  split at h
  · cases h
  rename_i hraised
  simp only [Exec.pure_eq, Except.ok.injEq, Prod.mk.injEq, Option.some.injEq] at h
  obtain ⟨rfl, rfl⟩ := h
  intro cnccat hc c hcat f hf
  rcases List.mem_append.1 hc with hc | hc
  · exact hcounted cnccat (hi.1.cnccatMem ▸ hc) c hcat f hf
  · rw [List.mem_singleton.1 hc] at hcat ⊢
    have hn := hi.2 (by simpa using hraised) c hcat f (hr.same.under.2 hf)
    simp [hn]

theorem cnccats_counted {mem : List PgfCCat} {rdr : PgfReader} {entries : List CncCatEntry} {st : CncCatLoop} {fuel : Nat}
    (hl : Linked mem) (hr : Ranged mem rdr) (hcounted : rdr.Counted mem) (h : pgf_read_cnccats fuel rdr entries = .ok st)
    (hraised : st.raised = false) : st.rdr.Counted mem := by
  refine (forEach_inv (P := fun st => st.raised = false → Ranged mem st.rdr ∧ st.rdr.Counted mem)
    (fun entry _ st st' hst hstep hraised => ?_) (fun _ => ⟨hr, hcounted⟩) h hraised).2
  unfold pgf_read_cnccat_entry at hstep
  split at hstep
  · cases hstep
    exact hst hraised
  rename_i hnot
  obtain ⟨⟨rdr', new⟩, hnew, hstep⟩ := Exec.bind_ok.1 hstep
  obtain ⟨hr, hcounted⟩ := hst (by simpa using hnot)
  cases new with
  | none =>
    simp only [Exec.pure_eq, Except.ok.injEq] at hstep
    subst hstep
    cases hraised
  | some k =>
    simp only [Exec.pure_eq, Except.ok.injEq] at hstep
    subst hstep
    exact ⟨cnccat_ranged hl hr hnew, cnccat_counted hl hr hcounted hnew⟩

/-! ## The whole grammar -/

/-- What the parser and the linearizer find in the grammar when they follow its
references: the functions and sequences of the file, and as many sequences as
the concrete category says, wherever coercions lead to a function. -/
structure PgfConcr.Resolved (concr : PgfConcr) (s : ConcrSections) : Prop where
  functions : ∀ ccat ∈ concr.ccatMem, ∀ f args, .APPLY f args ∈ ccat.prods.elems → s.Defines f
  arguments : ∀ ccat ∈ concr.ccatMem, ∀ f args, .APPLY f args ∈ ccat.prods.elems → ∀ arg ∈ args, arg.ccat < concr.ccatMem.length
  counts : ∀ c f, Under concr.ccatMem c f → ∃ k cnccat, cnccatOf concr.ccatMem c = some k ∧ concr.cnccatMem[k]? = some cnccat ∧
    f.lins.length = cnccat.n_ctnts
  ranges : ∀ cnccat ∈ concr.cnccatMem, ∀ c, some c ∈ cnccat.cats → ∀ f, Under concr.ccatMem c f → f.lins.length = cnccat.n_ctnts

/-- What is left of the sections when the grammar is complete. -/
theorem read_kept {concr : PgfConcr} {ccats : List CCatEntry} {cnccats : List CncCatEntry} (h : concr.ReadFrom ccats cnccats) :
    ∃ rdr, pgf_read_ccats ccats = .ok rdr ∧ SameProds rdr.ccatMem concr.ccatMem ∧
      ∀ cnccat ∈ concr.cnccatMem, ∀ c, some c ∈ cnccat.cats → ∀ f, Under rdr.ccatMem c f → f.lins.length = cnccat.n_ctnts := by
  obtain ⟨fuel, st, set, hread, hraised, hmem, hcnc, -, -⟩ := h
  obtain ⟨rdr, hcats, hl, -, hr₀, hnone, hcnccats, hpass⟩ := read_parts hread
  have hr := cnccats_ranged hl hr₀ hcnccats hraised
  obtain ⟨ha, -⟩ := Setting.pass_follows (hr.same.linked hl) (fun c => (hr.interned.mem_order c).1) (Assigned.refl _)
    (Follows.start _) hpass
  refine ⟨rdr, hcats, hmem ▸ hr.same.trans ha.sameProds, ?_⟩
  rw [hcnc]
  refine cnccats_counted hl hr₀ (fun cnccat hc => ?_) hcnccats hraised
  rw [hnone] at hc
  exact absurd hc List.not_mem_nil

/-- A production of the grammar is in the file. -/
theorem read_production {concr : PgfConcr} {ccats : List CCatEntry} {cnccats : List CncCatEntry} (h : concr.ReadFrom ccats cnccats)
    {ccat : PgfCCat} (hc : ccat ∈ concr.ccatMem) {f : PgfCncFun} {args : List PgfPArg} (hp : .APPLY f args ∈ ccat.prods.elems) :
    ∃ entry ∈ ccats, ∃ args', .APPLY f args' ∈ entry.prods := by
  obtain ⟨rdr, hcats, hsame, -⟩ := read_kept h
  obtain ⟨c, hc⟩ := List.mem_iff_getElem?.1 hc
  obtain ⟨old, hold, he⟩ := hsame.back hc
  have hlisted := PgfReader.ccats_listed hcats
  obtain ⟨obj, ho⟩ := hlisted.interned.exists_covered
  have hprods : ccat.prods = listedProds obj ccats old.fid := by
    rw [he]
    exact (hlisted.ccats obj ho old (List.mem_of_getElem? hold)).2
  rw [hprods, listedProds] at hp
  cases hlast : (ccats.filter fun entry => entry.fid = old.fid).getLast? with
  | none =>
    rw [hlast] at hp
    exact absurd hp List.not_mem_nil
  | some entry =>
    rw [hlast] at hp
    refine ⟨entry, (List.mem_filter.1 (List.mem_of_getLast? hlast)).1, ?_⟩
    obtain ⟨prod, hprod, hres⟩ := List.mem_map.1 hp
    cases prod with
    | APPLY f' args' =>
      cases hres
      exact ⟨args', hprod⟩
    | COERCE coerce => cases hres

/-- In a grammar that is accepted, references to functions and sequences are in
range, and where coercions lead to a function there is a concrete category with
as many constituents as the function has sequences. -/
theorem accepted_resolved {concr : PgfConcr} {s : ConcrSections} (h : concr.AcceptedFrom s) : concr.Resolved s := by
  obtain ⟨cncfuns, ccats, hfuns, hccats, hread⟩ := h
  refine ⟨fun ccat hc f args hp => ?_, fun ccat hc f args hp arg harg => ?_, fun c f hf => hread.counts hf, ?_⟩
  · obtain ⟨entry, he, args', hp'⟩ := read_production hread hc hp
    exact entries_defined hfuns hccats he hp'
  · exact concr.prods_valid ccat hc _ hp _ (List.mem_flatMap.2 ⟨arg, harg, List.mem_cons_self⟩)
  · intro cnccat hcnccat c hcat f hf
    obtain ⟨rdr, -, hsame, hcounted⟩ := read_kept hread
    exact hcounted cnccat hcnccat c hcat f (hsame.under.1 hf)

/-! ## A symbol that names no argument -/

/-- Every symbol `<d,r>` names an argument. If its category has productions, it
has a concrete category, with a constituent `r`. -/
def PgfConcr.PlacesNamed (concr : PgfConcr) : Prop :=
  ∀ ccat ∈ concr.ccatMem, ∀ f args, .APPLY f args ∈ ccat.prods.elems → ∀ seq ∈ f.lins, ∀ sym ∈ seq, ∀ d r,
    sym.place = some (d, r) → ∃ arg acat, args[d]? = some arg ∧ concr.ccatMem[arg.ccat]? = some acat ∧
      (acat.prods.elems ≠ [] → ∃ k cnccat, acat.cnccat = some k ∧ concr.cnccatMem[k]? = some cnccat ∧ r < cnccat.n_ctnts)

namespace Unplaced

/-- `S → f[]`, where the only sequence of `f` is `<0,0>`. -/
def sections : ConcrSections :=
  { sequences := [[.CAT 0 0]], cncfuns := [{ fun_ := [102], lins := [0] }], ccats := [{ fid := 0, prods := [.APPLY 0 []] }],
    cnccats := [{ cid := [83], first := 0, last := 0, ctnts := [[115]] }] }

def f : PgfCncFun := ⟨[102], [[.CAT 0 0]], 0⟩

def concr : PgfConcr where
  ccatMem := [⟨some 0, .seq [.APPLY f []], 0⟩]
  cnccatMem := [⟨[83], [some 0], 1, [[115]]⟩]
  cnccats := [([83], 0)]
  extra_ccats := []
  prods_fixed := by decide
  prods_valid := by decide
  cats_valid := by decide

theorem accepted : concr.AcceptedFrom sections := by
  refine ⟨[f], [{ fid := 0, prods := [.APPLY f []] }], by decide, rfl, 2, _, _, rfl, ?_⟩
  decide

end Unplaced

/-- The file with the symbol `<0,0>` of a function without arguments. -/
theorem accepted_resolved_unplaced : Unplaced.concr.Resolved Unplaced.sections := accepted_resolved Unplaced.accepted

/-- The reader accepts that file. -/
theorem accepted_unplaced : ¬ ∀ (concr : PgfConcr) (s : ConcrSections), concr.AcceptedFrom s → concr.PlacesNamed ∧ concr.Resolved s := by
  intro h
  obtain ⟨hplaces, -⟩ := h _ _ Unplaced.accepted
  obtain ⟨arg, -, harg, -⟩ := hplaces _ (List.mem_singleton_self _) Unplaced.f [] (List.mem_singleton_self _) [.CAT 0 0]
    (List.mem_singleton_self _) (.CAT 0 0) (List.mem_singleton_self _) 0 0 rfl
  cases harg

end Libpgf
