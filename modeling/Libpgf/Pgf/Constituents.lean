import Libpgf.Pgf.Interning
import Libpgf.Lib.Settles
/-!
# Counting constituents

`pgf_ccat_n_ctnts` follows coercions and keeps no list of where it has been. It
ends from a category when no cycle of coercions is in reach, and also when two
productions disagree before it comes to the cycle.
-/

namespace Libpgf

/-- The categories in memory refer to categories in memory. -/
def Linked (ccatMem : List PgfCCat) : Prop :=
  ∀ ccat ∈ ccatMem, ∀ p ∈ ccat.prods.elems, ∀ c ∈ p.ccats, c < ccatMem.length

theorem ids_resolve {obj : Int → PgfCCatId} {prod : ProductionEntry} {c : PgfCCatId} (h : c ∈ (prod.resolve obj).ccats) :
    ∃ n ∈ prod.ids, obj n = c := by
  cases prod with
  | APPLY fun_ args =>
    simp only [ProductionEntry.resolve, PgfProduction.ccats, List.mem_flatMap, List.mem_map] at h
    obtain ⟨_, ⟨arg, harg, rfl⟩, hc⟩ := h
    rcases List.mem_cons.1 hc with rfl | hc
    · exact ⟨arg.ccat, List.mem_flatMap.2 ⟨arg, harg, List.mem_append_right _ (List.mem_singleton_self _)⟩, rfl⟩
    · obtain ⟨n, hn, rfl⟩ := List.mem_map.1 hc
      exact ⟨n, List.mem_flatMap.2 ⟨arg, harg, List.mem_append_left _ hn⟩, rfl⟩
  | COERCE fid => exact ⟨fid, List.mem_singleton_self fid, (List.mem_singleton.1 h).symm⟩

/-- The reader makes no reference that it has no category for. -/
theorem pgf_read_ccats_linked {entries : List CCatEntry} {rdr : PgfReader} (h : pgf_read_ccats entries = .ok rdr) :
    Linked rdr.ccatMem := by
  have hl := PgfReader.ccats_listed h
  obtain ⟨obj, ho⟩ := hl.interned.exists_covered
  intro ccat hccat p hp c hc
  rw [(hl.ccats obj ho ccat hccat).2, listedProds] at hp
  split at hp
  · exact absurd hp List.not_mem_nil
  · rename_i entry he
    obtain ⟨prod, hprod, rfl⟩ := List.mem_map.1 hp
    obtain ⟨n, hn, rfl⟩ := ids_resolve hc
    have hentry : entry ∈ entries := (List.mem_filter.1 (List.mem_of_getLast? he)).1
    have hmem : n ∈ entries.flatMap CCatEntry.ids :=
      List.mem_flatMap.2 ⟨entry, hentry, List.mem_cons_of_mem _ (List.mem_flatMap.2 ⟨prod, hprod, hn⟩)⟩
    obtain ⟨_, hobj, -⟩ := hl.interned.fid n _ (hl.names ho hmem)
    exact (List.getElem?_eq_some_iff.1 hobj).1

/-- Only the concrete categories of some categories differ. -/
structure SameProds (mem mem' : List PgfCCat) : Prop where
  length : mem'.length = mem.length
  ccats : ∀ (c : PgfCCatId) (ccat : PgfCCat), mem[c]? = some ccat → ∃ k, mem'[c]? = some { ccat with cnccat := k }

namespace SameProds
variable {mem mem' mem₁ : List PgfCCat} {c : PgfCCatId} {ccat : PgfCCat}

theorem refl (mem : List PgfCCat) : SameProds mem mem := ⟨rfl, fun _ ccat h => ⟨ccat.cnccat, h⟩⟩

theorem trans (h : SameProds mem mem₁) (h' : SameProds mem₁ mem') : SameProds mem mem' where
  length := h'.length.trans h.length
  ccats c ccat hc := by
    obtain ⟨k, hk⟩ := h.ccats c ccat hc
    exact h'.ccats c { ccat with cnccat := k } hk

theorem back (h : SameProds mem mem') (hc : mem'[c]? = some ccat) :
    ∃ old, mem[c]? = some old ∧ ccat = { old with cnccat := ccat.cnccat } := by
  have hlt : c < mem.length := h.length ▸ (List.getElem?_eq_some_iff.1 hc).1
  obtain ⟨k, hk⟩ := h.ccats c _ (List.getElem?_eq_getElem hlt)
  rw [hc, Option.some.injEq] at hk
  exact ⟨_, List.getElem?_eq_getElem hlt, by rw [hk]⟩

theorem set (hc : mem[c]? = some ccat) (k : Option PgfCncCatId) : SameProds mem (mem.set c { ccat with cnccat := k }) := by
  refine ⟨List.length_set, fun d dcat hd => ?_⟩
  by_cases hcd : c = d
  · subst hcd
    rw [hc, Option.some.injEq] at hd
    subst hd
    exact ⟨k, List.getElem?_set_self (List.getElem?_eq_some_iff.1 hc).1⟩
  · exact ⟨dcat.cnccat, (List.getElem?_set_ne hcd).trans hd⟩

theorem linked (h : SameProds mem mem') (hl : Linked mem) : Linked mem' := by
  intro ccat hc p hp
  obtain ⟨c, hc⟩ := List.mem_iff_getElem?.1 hc
  obtain ⟨old, hold, he⟩ := h.back hc
  rw [h.length]
  exact hl old (List.mem_of_getElem? hold) p (by rwa [he] at hp)

end SameProds

/-- `c` has a coercion to `d`. -/
def Coerces (ccatMem : List PgfCCat) (d c : PgfCCatId) : Prop :=
  ∃ ccat, ccatMem[c]? = some ccat ∧ .COERCE d ∈ ccat.prods.elems

/-- No endless chain of coercions starts at `c`. -/
def Loopless (ccatMem : List PgfCCat) (c : PgfCCatId) : Prop := Acc (Coerces ccatMem) c

/-- A production with `k` constituents that the walk comes to, unless it ends
before: it comes past what has no loop. -/
inductive Met (ccatMem : List PgfCCat) : List PgfProduction → Nat → Prop
  | here {fun_ : PgfCncFun} {args : List PgfPArg} {ps : List PgfProduction} :
    Met ccatMem (.APPLY fun_ args :: ps) fun_.lins.length
  | past_apply {fun_ : PgfCncFun} {args : List PgfPArg} {ps : List PgfProduction} {k : Nat} :
    Met ccatMem ps k → Met ccatMem (.APPLY fun_ args :: ps) k
  | inside {d : PgfCCatId} {dcat : PgfCCat} {ps : List PgfProduction} {k : Nat} :
    ccatMem[d]? = some dcat → Met ccatMem dcat.prods.elems k → Met ccatMem (.COERCE d :: ps) k
  | past_coerce {d : PgfCCatId} {ps : List PgfProduction} {k : Nat} :
    Loopless ccatMem d → Met ccatMem ps k → Met ccatMem (.COERCE d :: ps) k

/-- The walk from `c` comes to two productions that disagree. -/
def Disagrees (ccatMem : List PgfCCat) (c : PgfCCatId) : Prop :=
  ∃ ccat k k', ccatMem[c]? = some ccat ∧ Met ccatMem ccat.prods.elems k ∧ Met ccatMem ccat.prods.elems k' ∧ k ≠ k'

/-! ## Walks that return -/

/-- The walk over productions starts with the number `n`, and comes to an answer and a number. -/
inductive Walked (ccatMem : List PgfCCat) : List PgfProduction → Int → Bool → Int → Prop
  | nil {n : Int} : Walked ccatMem [] n true n
  | apply {fun_ : PgfCncFun} {args : List PgfPArg} {ps : List PgfProduction} {n n' : Int} {b : Bool} :
    n = -1 ∨ n = fun_.lins.length → Walked ccatMem ps fun_.lins.length b n' →
    Walked ccatMem (.APPLY fun_ args :: ps) n b n'
  | differs {fun_ : PgfCncFun} {args : List PgfPArg} {ps : List PgfProduction} {n : Int} :
    n ≠ -1 → n ≠ fun_.lins.length → Walked ccatMem (.APPLY fun_ args :: ps) n false n
  | coerce {d : PgfCCatId} {dcat : PgfCCat} {ps : List PgfProduction} {n n₁ n' : Int} {b : Bool} :
    ccatMem[d]? = some dcat → Walked ccatMem dcat.prods.elems n true n₁ → Walked ccatMem ps n₁ b n' →
    Walked ccatMem (.COERCE d :: ps) n b n'
  | fails {d : PgfCCatId} {dcat : PgfCCat} {ps : List PgfProduction} {n n₁ : Int} :
    ccatMem[d]? = some dcat → Walked ccatMem dcat.prods.elems n false n₁ →
    Walked ccatMem (.COERCE d :: ps) n false n₁

/-- The loop over productions, as it runs from `pgf_ccat_n_ctnts`. -/
abbrev walkCtnts (ccatMem : List PgfCCat) (ps : List PgfProduction) (n : Int) (fuel : Nat) : Exec (Bool × Int) :=
  pgf_prods_n_ctnts (pgf_ccat_n_ctnts ccatMem fuel) ps n

section Walk
variable {mem : List PgfCCat} {c d : PgfCCatId} {ccat : PgfCCat} {ps : List PgfProduction} {n n' : Int} {k k' : Nat}
  {fuel : Nat} {b : Bool} {fun_ : PgfCncFun} {args : List PgfPArg}

theorem n_ctnts_succ (hc : mem[c]? = some ccat) (fuel : Nat) (n : Int) :
    pgf_ccat_n_ctnts mem (fuel + 1) c n = walkCtnts mem ccat.prods.elems n fuel := by
  unfold pgf_ccat_n_ctnts
  rw [hc]
  simp only [Exec.deref_some, Exec.ok_bind]
  cases hp : ccat.prods with
  | null => rfl
  | seq ps => rfl
  | buf ps => rfl

theorem walk_apply (h : n = -1 ∨ n = fun_.lins.length) :
    walkCtnts mem (.APPLY fun_ args :: ps) n fuel = walkCtnts mem ps fun_.lins.length fuel := by
  have hpos : (fun_.lins.length : Int) ≠ -1 := by omega
  rcases h with rfl | rfl
  · simp [walkCtnts, pgf_prods_n_ctnts]
  · simp [walkCtnts, pgf_prods_n_ctnts, hpos]

theorem walk_differs (h : n ≠ -1) (h' : n ≠ fun_.lins.length) :
    walkCtnts mem (.APPLY fun_ args :: ps) n fuel = .ok (false, n) := by
  simp [walkCtnts, pgf_prods_n_ctnts, h, h']

theorem walk_coerce : walkCtnts mem (.COERCE d :: ps) n fuel =
    (pgf_ccat_n_ctnts mem fuel d n >>= fun r => if r.1 then walkCtnts mem ps r.2 fuel else .ok (false, r.2)) := rfl

theorem coerce_settles {r : Bool × Int} {s : Exec (Bool × Int)}
    (h : Settles (fun fuel => pgf_ccat_n_ctnts mem fuel d n) (.ok r))
    (h' : Settles (fun fuel => if r.1 then walkCtnts mem ps r.2 fuel else .ok (false, r.2)) s) :
    Settles (walkCtnts mem (.COERCE d :: ps) n) s :=
  show Settles (fun fuel => pgf_ccat_n_ctnts mem fuel d n >>= fun r =>
    if r.1 then walkCtnts mem ps r.2 fuel else .ok (false, r.2)) s from h.bind h'

/-- A walk that is given enough fuel returns. -/
theorem Walked.settles (h : Walked mem ps n b n') : Settles (walkCtnts mem ps n) (.ok (b, n')) := by
  induction h with
  | nil => exact .of_eq fun _ => rfl
  | apply hn _ ih =>
    obtain ⟨m, hm⟩ := ih
    exact ⟨m, fun m' hle => (walk_apply hn).trans (hm m' hle)⟩
  | differs hn hne => exact .of_eq fun _ => walk_differs hn hne
  | coerce hd _ _ ih ih' => exact coerce_settles (ih.succ fun fuel => n_ctnts_succ hd fuel _) ih'
  | fails hd _ ih => exact coerce_settles (ih.succ fun fuel => n_ctnts_succ hd fuel _) (.of_eq fun _ => rfl)

/-- How a walk stops: it has returned, or its fuel is gone. -/
def Stopped (mem : List PgfCCat) (ps : List PgfProduction) (n : Int) (r : Exec (Bool × Int)) : Prop :=
  r = .error .fuel ∨ ∃ b n', r = .ok (b, n') ∧ Walked mem ps n b n'

theorem stopped_prods (hrec : ∀ d ccat n, mem[d]? = some ccat → Stopped mem ccat.prods.elems n (pgf_ccat_n_ctnts mem fuel d n)) :
    ∀ {ps : List PgfProduction} {n : Int}, (∀ p ∈ ps, ∀ c ∈ p.ccats, c < mem.length) →
      Stopped mem ps n (walkCtnts mem ps n fuel) := by
  intro ps
  induction ps with
  | nil => exact fun _ => .inr ⟨_, _, rfl, .nil⟩
  | cons p ps ih =>
    intro n hp
    have hps : ∀ q ∈ ps, ∀ c ∈ q.ccats, c < mem.length := fun q hq => hp q (List.mem_cons_of_mem p hq)
    cases p with
    | APPLY fun_ args =>
      by_cases hn : n = -1 ∨ n = fun_.lins.length
      · rw [walk_apply hn]
        rcases ih (n := fun_.lins.length) hps with h | ⟨b, n', h, hw⟩
        · exact .inl h
        · exact .inr ⟨b, n', h, .apply hn hw⟩
      · rw [not_or] at hn
        exact .inr ⟨_, _, walk_differs hn.1 hn.2, .differs hn.1 hn.2⟩
    | COERCE d =>
      obtain ⟨dcat, hd⟩ : ∃ dcat, mem[d]? = some dcat :=
        ⟨_, List.getElem?_eq_getElem (hp _ List.mem_cons_self d (List.mem_singleton_self d))⟩
      rw [walk_coerce]
      rcases hrec d dcat n hd with h | ⟨b, n₁, h, hw⟩
      · rw [h]
        exact .inl rfl
      · rw [h, Exec.ok_bind]
        cases b with
        | false => exact .inr ⟨_, _, rfl, .fails hd hw⟩
        | true =>
          rcases ih (n := n₁) hps with h' | ⟨b, n', h', hw'⟩
          · exact .inl h'
          · exact .inr ⟨b, n', h', .coerce hd hw hw'⟩

theorem stopped (hl : Linked mem) : ∀ {fuel : Nat} {c : PgfCCatId} {ccat : PgfCCat} {n : Int}, mem[c]? = some ccat →
    Stopped mem ccat.prods.elems n (pgf_ccat_n_ctnts mem fuel c n) := by
  intro fuel
  induction fuel with
  | zero => exact fun _ => .inl rfl
  | succ fuel ih =>
    intro c ccat n hc
    rw [n_ctnts_succ hc]
    exact stopped_prods (fun d ccat n hd => ih hd) (hl ccat (List.mem_of_getElem? hc))

/-- The walk from a category terminates when it returns. -/
theorem n_ctnts_terminates_iff (hl : Linked mem) (hc : mem[c]? = some ccat) :
    Terminates (fun fuel => pgf_ccat_n_ctnts mem fuel c n) ↔ ∃ b n', Walked mem ccat.prods.elems n b n' := by
  constructor
  · intro h
    obtain ⟨fuel, hf⟩ := h.returns
    have hs : Stopped mem ccat.prods.elems n (pgf_ccat_n_ctnts mem fuel c n) := stopped hl hc
    rcases hs with h' | ⟨b, n', -, hw⟩
    · exact absurd h' hf
    · exact ⟨b, n', hw⟩
  · rintro ⟨b, n', hw⟩
    exact .of_ok (hw.settles.succ fun fuel => n_ctnts_succ hc fuel n)

/-! ## When walks return -/

/-- A walk keeps a number that it starts with. -/
theorem Walked.keeps (h : Walked mem ps n b n') (hn : n ≠ -1) : n' = n := by
  induction h with
  | nil => rfl
  | apply hn' _ ih =>
    rcases hn' with rfl | rfl
    · exact absurd rfl hn
    · exact ih hn
  | differs => rfl
  | coerce _ _ _ ih ih' =>
    obtain rfl := ih hn
    exact ih' hn
  | fails _ _ ih => exact ih hn

theorem length_ne {k : Nat} : (k : Int) ≠ -1 := by omega

/-- A walk that finds no disagreement has met one number. -/
theorem Walked.met (h : Walked mem ps n b n') (hb : b = true) (hm : Met mem ps k) : n' = k := by
  induction h with
  | nil => cases hm
  | apply hn hw ih =>
    cases hm with
    | here => exact hw.keeps length_ne
    | past_apply hm => exact ih hb hm
  | differs => cases hb
  | coerce hd hw hw' ih ih' =>
    cases hm with
    | inside hd' hm =>
      rw [hd, Option.some.injEq] at hd'
      subst hd'
      obtain rfl := ih rfl hm
      exact hw'.keeps length_ne
    | past_coerce _ hm => exact ih' hb hm
  | fails => cases hb

theorem Loopless.of_coerces (hd : mem[d]? = some ccat) (h : ∀ e, .COERCE e ∈ ccat.prods.elems → Loopless mem e) :
    Loopless mem d := by
  refine Acc.intro d fun e hed => ?_
  obtain ⟨dcat, hd', he⟩ := hed
  rw [hd, Option.some.injEq] at hd'
  subst hd'
  exact h e he

/-- Where the productions agree, a walk that returns has met no loop. -/
theorem Walked.loopless (h : Walked mem ps n b n') (huniq : ∀ k k', Met mem ps k → Met mem ps k' → k = k')
    (hn : ∀ k, Met mem ps k → n = -1 ∨ n = k) :
    (∀ d, .COERCE d ∈ ps → Loopless mem d) ∧ b = true ∧ (n' = n ∨ n = -1 ∧ ∃ k, Met mem ps k ∧ n' = k) := by
  induction h with
  | nil => exact ⟨fun d hd => absurd hd List.not_mem_nil, rfl, .inl rfl⟩
  | apply h hw ih =>
    obtain ⟨hloop, hb, hn'⟩ := ih (fun k k' hk hk' => huniq k k' hk.past_apply hk'.past_apply)
      (fun k hk => .inr (congrArg Int.ofNat (huniq _ k .here hk.past_apply)))
    refine ⟨fun d hd => ?_, hb, ?_⟩
    · rcases List.mem_cons.1 hd with hd | hd
      · cases hd
      · exact hloop d hd
    · have hn' := hw.keeps length_ne
      rcases h with h | h
      · exact .inr ⟨h, _, .here, hn'⟩
      · exact .inl (hn'.trans h.symm)
  | differs h h' =>
    rcases hn _ .here with h'' | h''
    · exact absurd h'' h
    · exact absurd h'' h'
  | @coerce d dcat ps n n₁ n' b hd hw hw' ih ih' =>
    obtain ⟨hloop, -, hn₁⟩ := ih (fun k k' hk hk' => huniq k k' (.inside hd hk) (.inside hd hk'))
      (fun k hk => hn k (.inside hd hk))
    have hld : Loopless mem d := .of_coerces hd hloop
    have hn₁' : ∀ k, Met mem ps k → n₁ = -1 ∨ n₁ = k := by
      intro k hk
      rcases hn₁ with rfl | ⟨-, k', hk', rfl⟩
      · exact hn k (.past_coerce hld hk)
      · exact .inr (congrArg Int.ofNat (huniq k' k (.inside hd hk') (.past_coerce hld hk)))
    obtain ⟨hloop', hb, hn'⟩ := ih' (fun k k' hk hk' => huniq k k' (.past_coerce hld hk) (.past_coerce hld hk')) hn₁'
    refine ⟨fun e he => ?_, hb, ?_⟩
    · rcases List.mem_cons.1 he with he | he
      · cases he
        exact hld
      · exact hloop' e he
    · rcases hn₁ with rfl | ⟨rfl, k, hk, rfl⟩
      · rcases hn' with rfl | ⟨rfl, k, hk, rfl⟩
        · exact .inl rfl
        · exact .inr ⟨rfl, k, .past_coerce hld hk, rfl⟩
      · exact .inr ⟨rfl, k, .inside hd hk, hw'.keeps length_ne⟩
  | fails hd hw ih =>
    obtain ⟨-, hb, -⟩ := ih (fun k k' hk hk' => huniq k k' (.inside hd hk) (.inside hd hk'))
      (fun k hk => hn k (.inside hd hk))
    cases hb

/-- Without loops, a walk returns. -/
theorem walked_of_loopless (hl : Linked mem) (h : Loopless mem c) :
    ∀ {ccat n}, mem[c]? = some ccat → ∃ b n', Walked mem ccat.prods.elems n b n' := by
  induction h with
  | intro c _ ih =>
    intro ccat n hc
    have hps : ∀ p ∈ ccat.prods.elems, ∀ c ∈ p.ccats, c < mem.length := hl ccat (List.mem_of_getElem? hc)
    have hrec : ∀ d, .COERCE d ∈ ccat.prods.elems → ∀ {dcat n}, mem[d]? = some dcat →
        ∃ b n', Walked mem dcat.prods.elems n b n' := fun d hd => ih d ⟨ccat, hc, hd⟩
    generalize ccat.prods.elems = ps at hps hrec
    induction ps generalizing n with
    | nil => exact ⟨true, n, .nil⟩
    | cons p ps ihp =>
      have ihp' : ∀ n, ∃ b n', Walked mem ps n b n' := fun n =>
        ihp (fun q hq => hps q (List.mem_cons_of_mem p hq)) (fun d hd => hrec d (List.mem_cons_of_mem p hd))
      cases p with
      | APPLY fun_ args =>
        by_cases hn : n = -1 ∨ n = fun_.lins.length
        · obtain ⟨b, n', hw⟩ := ihp' fun_.lins.length
          exact ⟨b, n', .apply hn hw⟩
        · rw [not_or] at hn
          exact ⟨false, n, .differs hn.1 hn.2⟩
      | COERCE d =>
        obtain ⟨dcat, hd⟩ : ∃ dcat, mem[d]? = some dcat :=
          ⟨_, List.getElem?_eq_getElem (hps _ List.mem_cons_self d (List.mem_singleton_self d))⟩
        obtain ⟨b, n₁, hw⟩ := hrec d List.mem_cons_self (n := n) hd
        cases b with
        | false => exact ⟨false, n₁, .fails hd hw⟩
        | true =>
          obtain ⟨b, n', hw'⟩ := ihp' n₁
          exact ⟨b, n', .coerce hd hw hw'⟩

/-- A walk that meets another number than its own returns. -/
theorem Met.walked (hl : Linked mem) (hm : Met mem ps k) (hp : ∀ p ∈ ps, ∀ c ∈ p.ccats, c < mem.length) (hn : n ≠ -1)
    (hne : n ≠ k) : Walked mem ps n false n := by
  induction hm with
  | here => exact .differs hn hne
  | @past_apply fun_ args ps k _ ih =>
    by_cases h : n = fun_.lins.length
    · subst h
      exact .apply (.inr rfl) (ih (fun q hq => hp q (List.mem_cons_of_mem _ hq)) hne)
    · exact .differs hn h
  | inside hd _ ih => exact .fails hd (ih (hl _ (List.mem_of_getElem? hd)) hne)
  | @past_coerce d ps k hloop _ ih =>
    have hd : mem[d]? = some _ := List.getElem?_eq_getElem (hp _ List.mem_cons_self d (List.mem_singleton_self d))
    obtain ⟨b, n₁, hw⟩ := walked_of_loopless hl hloop (n := n) hd
    obtain rfl := hw.keeps hn
    cases b with
    | false => exact .fails hd hw
    | true => exact .coerce hd hw (ih (fun q hq => hp q (List.mem_cons_of_mem _ hq)) hne)

/-- A walk with a number, when one of two others is ahead. -/
theorem Met.walked_other (hl : Linked mem) (hp : ∀ p ∈ ps, ∀ c ∈ p.ccats, c < mem.length) (hn : n ≠ -1)
    (h : n ≠ k → Met mem ps k) (h' : n ≠ k' → Met mem ps k') (hne : k ≠ k') : ∃ b n', Walked mem ps n b n' := by
  by_cases hk : n = k
  · have hk' : n ≠ k' := fun he => hne (Int.ofNat.inj (hk.symm.trans he))
    exact ⟨_, _, (h' hk').walked hl hp hn hk'⟩
  · exact ⟨_, _, (h hk).walked hl hp hn hk⟩

/-- A walk that meets two numbers returns. -/
theorem Met.walked_of_ne (hl : Linked mem) (hm : Met mem ps k) (hm' : Met mem ps k')
    (hp : ∀ p ∈ ps, ∀ c ∈ p.ccats, c < mem.length) (hne : k ≠ k') : ∃ b n', Walked mem ps (-1) b n' := by
  induction hm generalizing k' with
  | here =>
    cases hm' with
    | here => exact absurd rfl hne
    | past_apply hm' =>
      have hw := hm'.walked hl (fun q hq => hp q (List.mem_cons_of_mem _ hq)) length_ne (by exact_mod_cast hne)
      exact ⟨_, _, .apply (.inl rfl) hw⟩
  | @past_apply fun_ args ps k hm ih =>
    obtain ⟨b, n', hw⟩ : ∃ b n', Walked mem ps fun_.lins.length b n' := by
      refine Met.walked_other hl (fun q hq => hp q (List.mem_cons_of_mem _ hq)) length_ne (fun _ => hm) (fun h => ?_) hne
      cases hm' with
      | here => exact absurd rfl h
      | past_apply hm' => exact hm'
    exact ⟨b, n', .apply (.inl rfl) hw⟩
  | @inside d dcat ps k hd hm ih =>
    cases hm' with
    | inside hd' hm' =>
      rw [hd, Option.some.injEq] at hd'
      subst hd'
      obtain ⟨b, n₁, hw⟩ := ih hm' (hl _ (List.mem_of_getElem? hd)) hne
      cases b with
      | false => exact ⟨_, _, .fails hd hw⟩
      | true => exact absurd (Int.ofNat.inj ((hw.met rfl hm).symm.trans (hw.met rfl hm'))) hne
    | past_coerce hloop hm' =>
      obtain ⟨b, n₁, hw⟩ := walked_of_loopless hl hloop (n := -1) hd
      cases b with
      | false => exact ⟨_, _, .fails hd hw⟩
      | true =>
        obtain rfl := hw.met rfl hm
        have hw' := hm'.walked hl (fun q hq => hp q (List.mem_cons_of_mem _ hq)) length_ne (by exact_mod_cast hne)
        exact ⟨_, _, .coerce hd hw hw'⟩
  | @past_coerce d ps k hloop hm ih =>
    have hps : ∀ p ∈ ps, ∀ c ∈ p.ccats, c < mem.length := fun q hq => hp q (List.mem_cons_of_mem _ hq)
    have hd : mem[d]? = some _ := List.getElem?_eq_getElem (hp _ List.mem_cons_self d (List.mem_singleton_self d))
    obtain ⟨b, n₁, hw⟩ := walked_of_loopless hl hloop (n := -1) hd
    cases b with
    | false => exact ⟨_, _, .fails hd hw⟩
    | true =>
      obtain ⟨b, n', hw'⟩ : ∃ b n', Walked mem ps n₁ b n' := by
        cases hm' with
        | inside hd' hm' =>
          rw [hd, Option.some.injEq] at hd'
          subst hd'
          obtain rfl := hw.met rfl hm'
          exact ⟨_, _, hm.walked hl hps length_ne (by exact_mod_cast hne.symm)⟩
        | past_coerce _ hm' =>
          by_cases hn : n₁ = -1
          · subst hn
            exact ih hm' hps hne
          · exact Met.walked_other hl hps hn (fun _ => hm) (fun _ => hm') hne
      exact ⟨b, n', .coerce hd hw hw'⟩

/-- The walk from a category terminates, whatever number it starts with, exactly
when no loop is in reach or it comes to a disagreement. -/
theorem n_ctnts_terminates (hl : Linked mem) (hc : mem[c]? = some ccat) :
    (∀ n, Terminates fun fuel => pgf_ccat_n_ctnts mem fuel c n) ↔ Loopless mem c ∨ Disagrees mem c := by
  have hp := hl ccat (List.mem_of_getElem? hc)
  simp only [n_ctnts_terminates_iff hl hc]
  constructor
  · intro h
    by_cases hdis : Disagrees mem c
    · exact .inr hdis
    · have huniq : ∀ k k', Met mem ccat.prods.elems k → Met mem ccat.prods.elems k' → k = k' := by
        intro k k' hk hk'
        by_contra hne
        exact hdis ⟨ccat, k, k', hc, hk, hk', hne⟩
      obtain ⟨b, n', hw⟩ := h (-1)
      exact .inl (.of_coerces hc (hw.loopless huniq fun _ _ => .inl rfl).1)
  · rintro (h | ⟨ccat', k, k', hc', hk, hk', hne⟩) n
    · exact walked_of_loopless hl h hc
    · rw [hc, Option.some.injEq] at hc'
      subst hc'
      by_cases hn : n = -1
      · subst hn
        exact hk.walked_of_ne hl hk' hp hne
      · exact Met.walked_other hl hp hn (fun _ => hk) (fun _ => hk') hne

end Walk

end Libpgf
