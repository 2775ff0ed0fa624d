import Libpgf.Pgf.Constituents
/-!
# Extra categories

`pgf_ccat_set_cnccat` is a depth-first walk along coercions. What it remembers
is the field that it sets, and it sets that after the first recursive call, so
a chain of first coercions that never ends is followed forever.
-/

namespace Libpgf

/-- The concrete category that `c` has, if any. -/
def cnccatOf (ccatMem : List PgfCCat) (c : PgfCCatId) : Option PgfCncCatId := ccatMem[c]?.bind PgfCCat.cnccat

/-- Some categories have been given concrete categories, and nothing else is changed. -/
structure Assigned (mem mem' : List PgfCCat) : Prop where
  length : mem'.length = mem.length
  ccats : ∀ (c : PgfCCatId) (ccat : PgfCCat), mem[c]? = some ccat → ∃ k, mem'[c]? = some { ccat with cnccat := k }
  kept : ∀ c k, cnccatOf mem c = some k → cnccatOf mem' c = some k

section Assigned
variable {mem mem' mem₁ : List PgfCCat} {c d : PgfCCatId} {ccat : PgfCCat} {k : Option PgfCncCatId}

theorem cnccatOf_eq (hc : mem[c]? = some ccat) : cnccatOf mem c = ccat.cnccat := by simp [cnccatOf, hc]

theorem Assigned.refl (mem : List PgfCCat) : Assigned mem mem :=
  ⟨rfl, fun _ ccat h => ⟨ccat.cnccat, h⟩, fun _ _ h => h⟩

theorem Assigned.trans (h : Assigned mem mem₁) (h' : Assigned mem₁ mem') : Assigned mem mem' where
  length := h'.length.trans h.length
  ccats c ccat hc := by
    obtain ⟨k, hk⟩ := h.ccats c ccat hc
    exact h'.ccats c { ccat with cnccat := k } hk
  kept c k hk := h'.kept c k (h.kept c k hk)

theorem Assigned.sameProds (h : Assigned mem mem') : SameProds mem mem' := ⟨h.length, h.ccats⟩

theorem Assigned.linked (h : Assigned mem mem') (hl : Linked mem) : Linked mem' := h.sameProds.linked hl

/-- Giving a category without one a concrete category. -/
theorem assigned_set (hc : mem[c]? = some ccat) (hn : ccat.cnccat = none) :
    Assigned mem (mem.set c { ccat with cnccat := k }) := by
  have hsame := SameProds.set hc k
  refine ⟨hsame.length, hsame.ccats, fun d k' hd => ?_⟩
  by_cases hcd : c = d
  · subst hcd
    rw [cnccatOf_eq hc, hn] at hd
    cases hd
  · rw [← hd, cnccatOf, List.getElem?_set_ne hcd]
    rfl

theorem cnccatOf_set (hc : mem[c]? = some ccat) : cnccatOf (mem.set c { ccat with cnccat := k }) c = k := by
  have hlt := (List.getElem?_eq_some_iff.1 hc).1
  simp [cnccatOf, List.getElem?_set_self hlt]

theorem cnccatOf_set_ne (hcd : c ≠ d) : cnccatOf (mem.set c ccat) d = cnccatOf mem d := by
  simp [cnccatOf, List.getElem?_set_ne hcd]

end Assigned

/-! ## Runs of the walk -/

namespace Setting

def push (st : Setting) (c : PgfCCatId) : Setting := { st with newly_set := st.newly_set ++ [c] }

@[simp] theorem push_ccatMem (st : Setting) (c : PgfCCatId) : (st.push c).ccatMem = st.ccatMem := rfl

/-- A call of `pgf_ccat_set_cnccat`, or its loop over productions of `c`. -/
inductive Task where
  | visit (c : PgfCCatId)
  | loop (c : PgfCCatId) (ps : List PgfProduction)

/-- A call or a loop stops with the given result. -/
inductive Ran : Task → Setting → Exec Setting → Prop
  | known {c : PgfCCatId} {st : Setting} {k : PgfCncCatId} :
    cnccatOf st.ccatMem c = some k → Ran (.visit c) st (.ok st)
  | null {c : PgfCCatId} {ccat : PgfCCat} {st : Setting} :
    st.ccatMem[c]? = some ccat → ccat.cnccat = none → ccat.prods.isNull = true → Ran (.visit c) st Exec.abort
  | visit {c : PgfCCatId} {ccat : PgfCCat} {st st' : Setting} :
    st.ccatMem[c]? = some ccat → ccat.cnccat = none → ccat.prods.isNull = false →
    Ran (.loop c ccat.prods.elems) st (.ok st') → Ran (.visit c) st (.ok (st'.push c))
  | visit_fails {c : PgfCCatId} {ccat : PgfCCat} {st : Setting} {e : Halt} :
    st.ccatMem[c]? = some ccat → ccat.cnccat = none → ccat.prods.isNull = false →
    Ran (.loop c ccat.prods.elems) st (.error e) → Ran (.visit c) st (.error e)
  | done {c : PgfCCatId} {st : Setting} : Ran (.loop c []) st (.ok st)
  | apply {c : PgfCCatId} {st : Setting} {fun_ : PgfCncFun} {args : List PgfPArg} {ps : List PgfProduction} :
    Ran (.loop c (.APPLY fun_ args :: ps)) st Exec.abort
  | coerce_fails {c d : PgfCCatId} {st : Setting} {ps : List PgfProduction} {e : Halt} :
    Ran (.visit d) st (.error e) → Ran (.loop c (.COERCE d :: ps)) st (.error e)
  | differs {c d : PgfCCatId} {st st₁ : Setting} {ps : List PgfProduction} {e : Halt} :
    Ran (.visit d) st (.ok st₁) → pgf_ccat_join c (cnccatOf st₁.ccatMem d) st₁ = .error e →
    Ran (.loop c (.COERCE d :: ps)) st (.error e)
  | coerce {c d : PgfCCatId} {st st₁ st₂ : Setting} {ps : List PgfProduction} {r : Exec Setting} :
    Ran (.visit d) st (.ok st₁) → pgf_ccat_join c (cnccatOf st₁.ccatMem d) st₁ = .ok st₂ →
    Ran (.loop c ps) st₂ r → Ran (.loop c (.COERCE d :: ps)) st r

variable {st st' st₁ : Setting} {c d : PgfCCatId} {ccat : PgfCCat} {k : Option PgfCncCatId} {r : Exec Setting} {t : Task}
  {ps : List PgfProduction}

theorem join_ok (h : pgf_ccat_join c k st = .ok st') :
    (cnccatOf st.ccatMem c = none ∧ cnccatOf st'.ccatMem c = k ∨ cnccatOf st.ccatMem c = k ∧ st' = st) ∧
    Assigned st.ccatMem st'.ccatMem ∧ st'.newly_set = st.newly_set ∧
    ∀ d, d ≠ c → cnccatOf st'.ccatMem d = cnccatOf st.ccatMem d := by
  obtain ⟨ccat, hc, h⟩ := Exec.bind_ok.1 h
  rw [Exec.deref_ok] at hc
  split at h
  · rename_i hn
    simp only [Exec.pure_eq, Except.ok.injEq] at h
    subst h
    exact ⟨.inl ⟨(cnccatOf_eq hc).trans hn, cnccatOf_set hc⟩, assigned_set hc hn, rfl,
      fun d hd => cnccatOf_set_ne (Ne.symm hd)⟩
  · obtain ⟨_, hreq, h⟩ := Exec.bind_ok.1 h
    simp only [Exec.require_ok, Exec.pure_eq, Except.ok.injEq] at hreq h
    subst h
    exact ⟨.inr ⟨(cnccatOf_eq hc).trans hreq, rfl⟩, Assigned.refl _, rfl, fun _ _ => rfl⟩

/-- The walk only gives categories concrete categories. -/
theorem Ran.assigned (h : Ran t st r) : ∀ st', r = .ok st' → Assigned st.ccatMem st'.ccatMem := by
  induction h with
  | known => rintro _ ⟨⟩; exact Assigned.refl _
  | null => rintro _ ⟨⟩
  | visit _ _ _ _ ih =>
    rintro _ ⟨⟩
    have := ih _ rfl
    exact this
  | visit_fails => rintro _ ⟨⟩
  | done => rintro _ ⟨⟩; exact Assigned.refl _
  | apply => rintro _ ⟨⟩
  | coerce_fails => rintro _ ⟨⟩
  | differs => rintro _ ⟨⟩
  | coerce _ hj _ ih ih' => exact fun st' h => ((ih _ rfl).trans (join_ok hj).2.1).trans (ih' st' h)

/-! ## Runs and the code -/

abbrev setProds (c : PgfCCatId) (ps : List PgfProduction) (st : Setting) (fuel : Nat) : Exec Setting :=
  pgf_prods_set_cnccat (pgf_ccat_set_cnccat fuel) c ps st

/-- What a call that leaves `st'` returns. -/
def returned (c : PgfCCatId) (st' : Setting) : Setting × Option PgfCncCatId := (st', cnccatOf st'.ccatMem c)

theorem setProds_coerce {fuel : Nat} : setProds c (.COERCE d :: ps) st fuel =
    (pgf_ccat_set_cnccat fuel st d >>= fun r => pgf_ccat_join c r.2 r.1 >>= fun st => setProds c ps st fuel) := rfl

theorem set_known {fuel : Nat} {k : PgfCncCatId} (h : cnccatOf st.ccatMem c = some k) :
    pgf_ccat_set_cnccat (fuel + 1) st c = .ok (returned c st) := by
  obtain ⟨ccat, hc, hk⟩ := Option.bind_eq_some_iff.1 h
  simp [pgf_ccat_set_cnccat, hc, hk, returned, h]

theorem set_null {fuel : Nat} (hc : st.ccatMem[c]? = some ccat) (hn : ccat.cnccat = none) (hp : ccat.prods.isNull = true) :
    pgf_ccat_set_cnccat (fuel + 1) st c = Exec.abort := by
  simp [pgf_ccat_set_cnccat, hc, hn, hp, Exec.require, Exec.abort]

theorem set_visit {fuel : Nat} (hc : st.ccatMem[c]? = some ccat) (hn : ccat.cnccat = none) (hp : ccat.prods.isNull = false) :
    pgf_ccat_set_cnccat (fuel + 1) st c = (setProds c ccat.prods.elems st fuel >>= fun st' =>
      Exec.deref st'.ccatMem[c]? >>= fun ccat => .ok (st'.push c, ccat.cnccat)) := by
  simp [pgf_ccat_set_cnccat, hc, hn, hp, Exec.require, push, setProds]

/-- After the loop the category is still there. -/
theorem set_visit_ok (h : Assigned st.ccatMem st'.ccatMem) (hc : st.ccatMem[c]? = some ccat) :
    (Exec.deref st'.ccatMem[c]? >>= fun ccat => .ok (st'.push c, ccat.cnccat)) = .ok (returned c (st'.push c)) := by
  obtain ⟨k, hk⟩ := h.ccats c ccat hc
  rw [hk]
  simp [returned, cnccatOf_eq hk]

/-- What the code comes to with enough fuel. -/
def Task.Comes (t : Task) (st : Setting) (r : Exec Setting) : Prop :=
  match t with
  | .visit c => Settles (fun fuel => pgf_ccat_set_cnccat fuel st c) (r.map (returned c))
  | .loop c ps => Settles (setProds c ps st) r

theorem Ran.comes (h : Ran t st r) : t.Comes st r := by
  induction h with
  | known h => exact Settles.succ (.of_eq fun _ => rfl) fun _ => set_known h
  | null hc hn hp => exact Settles.succ (.of_eq fun _ => rfl) fun _ => set_null hc hn hp
  | @visit c ccat st st' hc hn hp h ih =>
    refine Settles.succ ?_ fun _ => set_visit hc hn hp
    refine Settles.bind ih (.of_eq fun _ => ?_)
    exact set_visit_ok (h.assigned st' rfl) hc
  | visit_fails hc hn hp _ ih => exact Settles.succ (Settles.bind_error ih) fun _ => set_visit hc hn hp
  | done => exact .of_eq fun _ => rfl
  | apply => exact .of_eq fun _ => rfl
  | coerce_fails _ ih => exact Settles.bind_error ih
  | differs _ hj ih =>
    refine Settles.bind ih (.of_eq fun _ => ?_)
    simp only [returned]
    rw [hj]
    rfl
  | @coerce c d st st₁ st₂ ps r _ hj _ ih ih' =>
    have hrest : Settles (fun fuel => pgf_ccat_join c (returned d st₁).2 (returned d st₁).1 >>= fun st => setProds c ps st fuel) r := by
      simp only [returned]
      rw [hj]
      exact ih'
    exact Settles.bind ih hrest

theorem Ran.unique {r' : Exec Setting} (h : Ran t st r) (h' : Ran t st r') : r = r' := by
  have hc := h.comes
  have hc' := h'.comes
  cases t with
  | visit c =>
    have := hc.unique hc'
    cases r <;> cases r' <;> simp_all [Except.map, returned]
  | loop c ps => exact hc.unique hc'

theorem stopped_loop {fuel : Nat}
    (hrec : ∀ st d, Linked st.ccatMem → d < st.ccatMem.length → pgf_ccat_set_cnccat fuel st d = .error .fuel ∨
      ∃ r, pgf_ccat_set_cnccat fuel st d = r.map (returned d) ∧ Ran (.visit d) st r) :
    ∀ {ps : List PgfProduction} {st : Setting}, Linked st.ccatMem → c < st.ccatMem.length →
      (∀ p ∈ ps, ∀ d ∈ p.ccats, d < st.ccatMem.length) →
      setProds c ps st fuel = .error .fuel ∨ ∃ r, setProds c ps st fuel = r ∧ Ran (.loop c ps) st r := by
  intro ps
  induction ps with
  | nil => exact fun _ _ _ => .inr ⟨_, rfl, .done⟩
  | cons p ps ih =>
    intro st hl hc hp
    cases p with
    | APPLY fun_ args => exact .inr ⟨_, rfl, .apply⟩
    | COERCE d =>
      rw [setProds_coerce]
      rcases hrec st d hl (hp _ List.mem_cons_self d (List.mem_singleton_self d)) with h | ⟨r, h, hr⟩
      · rw [h]
        exact .inl rfl
      · rw [h]
        cases r with
        | error e => exact .inr ⟨_, rfl, .coerce_fails hr⟩
        | ok st₁ =>
          have h₁ := hr.assigned st₁ rfl
          simp only [Except.map, returned, Exec.ok_bind]
          cases hj : pgf_ccat_join c (cnccatOf st₁.ccatMem d) st₁ with
          | error e => exact .inr ⟨_, rfl, .differs hr hj⟩
          | ok st₂ =>
            rw [Exec.ok_bind]
            have h₂ := h₁.trans (join_ok hj).2.1
            rcases ih (h₂.linked hl) (h₂.length ▸ hc)
              (fun q hq e he => h₂.length ▸ hp q (List.mem_cons_of_mem _ hq) e he) with h' | ⟨r, h', hr'⟩
            · exact .inl h'
            · exact .inr ⟨r, h', .coerce hr hj hr'⟩

/-- A call that stops has run to its end, or its fuel is gone. -/
theorem stopped : ∀ (fuel : Nat) (st : Setting) (c : PgfCCatId), Linked st.ccatMem → c < st.ccatMem.length →
    pgf_ccat_set_cnccat fuel st c = .error .fuel ∨
      ∃ r, pgf_ccat_set_cnccat fuel st c = r.map (returned c) ∧ Ran (.visit c) st r := by
  intro fuel
  induction fuel with
  | zero => exact fun _ _ _ _ => .inl rfl
  | succ fuel ih =>
    intro st c hl hlt
    have hc := List.getElem?_eq_getElem hlt
    cases hk : cnccatOf st.ccatMem c with
    | some k => exact .inr ⟨.ok st, set_known hk, .known hk⟩
    | none =>
      have hn := (cnccatOf_eq hc).symm.trans hk
      cases hp : st.ccatMem[c].prods.isNull with
      | true => exact .inr ⟨Exec.abort, set_null hc hn hp, .null hc hn hp⟩
      | false =>
        rw [set_visit hc hn hp]
        rcases stopped_loop ih hl hlt (hl _ (List.mem_of_getElem? hc)) with h | ⟨r, h, hr⟩
        · rw [h]
          exact .inl rfl
        · rw [h]
          cases r with
          | error e => exact .inr ⟨.error e, rfl, .visit_fails hc hn hp hr⟩
          | ok st' => exact .inr ⟨.ok (st'.push c), set_visit_ok (hr.assigned st' rfl) hc, .visit hc hn hp hr⟩

theorem Ran.halts (h : Ran t st r) : r ≠ .error .fuel := by
  induction h with
  | known => simp
  | null => simp [Exec.abort]
  | visit => simp
  | visit_fails _ _ _ _ ih => exact ih
  | done => simp
  | apply => simp [Exec.abort]
  | coerce_fails _ ih => exact ih
  | @differs c d st st₁ ps e _ hj =>
    rintro ⟨⟩
    unfold pgf_ccat_join at hj
    cases hc : st₁.ccatMem[c]? with
    | none => simp [hc, Exec.deref, Exec.abort] at hj
    | some ccat =>
      simp only [hc, Exec.deref_some, Exec.ok_bind] at hj
      split at hj
      · cases hj
      · unfold Exec.require at hj
        split at hj
        · cases hj
        · simp [Exec.abort] at hj
  | coerce _ _ _ _ ih => exact ih

/-- A call terminates exactly when it runs to its end. -/
theorem terminates_iff (hl : Linked st.ccatMem) (hc : c < st.ccatMem.length) :
    (Terminates fun fuel => pgf_ccat_set_cnccat fuel st c) ↔ ∃ r, Ran (.visit c) st r := by
  constructor
  · intro h
    obtain ⟨fuel, hf⟩ := h.returns
    rcases stopped fuel st c hl hc with h' | ⟨r, -, hr⟩
    · exact absurd h' hf
    · exact ⟨r, hr⟩
  · rintro ⟨r, hr⟩
    refine ⟨_, hr.comes, fun h => hr.halts ?_⟩
    cases r with
    | error e => simpa [Except.map] using h
    | ok st' => simp [Except.map] at h

end Setting

/-! ## When walks end -/

/-- A category without a concrete category whose productions are all coercions
to such categories: the walk comes back from it with a null pointer. -/
inductive Bare (mem : List PgfCCat) : PgfCCatId → Prop
  | intro {c : PgfCCatId} {ccat : PgfCCat} :
    mem[c]? = some ccat → ccat.cnccat = none → ccat.prods.isNull = false →
    (∀ p ∈ ccat.prods.elems, ∃ d, p = .COERCE d) → (∀ d, .COERCE d ∈ ccat.prods.elems → Bare mem d) → Bare mem c

/-- The walk from `c` comes to an end. It goes on with the first production that
is no coercion to a bare category. -/
inductive Resolves (mem : List PgfCCat) : PgfCCatId → Prop
  | known {c : PgfCCatId} {k : PgfCncCatId} : cnccatOf mem c = some k → Resolves mem c
  | null {c : PgfCCatId} {ccat : PgfCCat} : mem[c]? = some ccat → ccat.prods.isNull = true → Resolves mem c
  | bare {c : PgfCCatId} : Bare mem c → Resolves mem c
  | apply {c : PgfCCatId} {ccat : PgfCCat} {pre post : List PgfProduction} {fun_ : PgfCncFun} {args : List PgfPArg} :
    mem[c]? = some ccat → ccat.prods.elems = pre ++ .APPLY fun_ args :: post →
    (∀ p ∈ pre, ∃ d, p = .COERCE d ∧ Bare mem d) → Resolves mem c
  | coerce {c d : PgfCCatId} {ccat : PgfCCat} {pre post : List PgfProduction} :
    mem[c]? = some ccat → ccat.prods.elems = pre ++ .COERCE d :: post →
    (∀ p ∈ pre, ∃ e, p = .COERCE e ∧ Bare mem e) → ¬ Bare mem d → Resolves mem d → Resolves mem c

namespace Setting
variable {st st' st₁ : Setting} {c d : PgfCCatId} {ccat : PgfCCat} {r : Exec Setting} {t : Task} {ps : List PgfProduction}
  {mem mem' : List PgfCCat}

theorem join_none (hc : st.ccatMem[c]? = some ccat) (hn : ccat.cnccat = none) : pgf_ccat_join c none st = .ok st := by
  unfold pgf_ccat_join
  rw [hc]
  simp only [Exec.deref_some, Exec.ok_bind, hn, if_true, Exec.pure_eq, Except.ok.injEq]
  have hself : ({ ccat with cnccat := none } : PgfCCat) = ccat := by
    cases ccat
    simp_all
  rw [hself]
  have : st.ccatMem.set c ccat = st.ccatMem := by
    obtain ⟨hlt, rfl⟩ := List.getElem?_eq_some_iff.1 hc
    exact List.set_getElem_self hlt
  rw [this]

theorem loop_bare (hc : mem[c]? = some ccat) (hn : ccat.cnccat = none)
    (hrun : ∀ p ∈ ps, ∃ d, p = .COERCE d ∧ ∀ st : Setting, st.ccatMem = mem → ∃ st', Ran (.visit d) st (.ok st') ∧
      st'.ccatMem = mem ∧ cnccatOf mem d = none) :
    ∀ st : Setting, st.ccatMem = mem → ∃ st', st'.ccatMem = mem ∧
      ∀ qs r, Ran (.loop c qs) st' r → Ran (.loop c (ps ++ qs)) st r := by
  induction ps with
  | nil => exact fun st hst => ⟨st, hst, fun _ _ h => h⟩
  | cons p ps ih =>
    intro st hst
    obtain ⟨d, rfl, hd⟩ := hrun p List.mem_cons_self
    obtain ⟨st₁, h₁, hst₁, hk⟩ := hd st hst
    obtain ⟨st', hst', hgo⟩ := ih (fun q hq => hrun q (List.mem_cons_of_mem _ hq)) st₁ hst₁
    refine ⟨st', hst', fun qs r h => .coerce h₁ ?_ (hgo qs r h)⟩
    rw [hst₁, hk]
    exact join_none (by rw [hst₁]; exact hc) hn

/-- The walk from a bare category comes back with a null pointer, and sets nothing. -/
theorem ran_bare (h : Bare mem c) : ∀ st : Setting, st.ccatMem = mem → ∃ st', Ran (.visit c) st (.ok st') ∧
    st'.ccatMem = mem ∧ cnccatOf mem c = none := by
  induction h with
  | @intro c ccat hc hn hp hco _ ih =>
    intro st hst
    have hrun : ∀ p ∈ ccat.prods.elems, ∃ d, p = .COERCE d ∧ ∀ st : Setting, st.ccatMem = mem →
        ∃ st', Ran (.visit d) st (.ok st') ∧ st'.ccatMem = mem ∧ cnccatOf mem d = none := by
      intro p hp'
      obtain ⟨d, rfl⟩ := hco p hp'
      exact ⟨d, rfl, ih d hp'⟩
    obtain ⟨st', hst', hgo⟩ := loop_bare hc hn hrun st hst
    have hloop := hgo [] _ .done
    rw [List.append_nil] at hloop
    exact ⟨st'.push c, .visit (by rw [hst]; exact hc) hn hp hloop, hst', (cnccatOf_eq hc).trans hn⟩

/-- Walks over coercions to bare categories come to the productions after them. -/
theorem loop_pre (hc : mem[c]? = some ccat) (hn : ccat.cnccat = none) (hpre : ∀ p ∈ ps, ∃ d, p = .COERCE d ∧ Bare mem d) :
    ∀ st : Setting, st.ccatMem = mem → ∃ st', st'.ccatMem = mem ∧
      ∀ qs r, Ran (.loop c qs) st' r → Ran (.loop c (ps ++ qs)) st r := by
  refine loop_bare hc hn fun p hp => ?_
  obtain ⟨d, rfl, hd⟩ := hpre p hp
  exact ⟨d, rfl, ran_bare hd⟩

theorem join_null (hj : pgf_ccat_join c none st = .ok st') (hn : cnccatOf st.ccatMem c = none) : st' = st := by
  obtain ⟨ccat, hc, -⟩ := Exec.bind_ok.1 hj
  rw [Exec.deref_ok] at hc
  rw [join_none hc ((cnccatOf_eq hc).symm.trans hn), Except.ok.injEq] at hj
  exact hj.symm

/-- A task that leaves its category without a concrete category has come to bare ones only. -/
def Task.Null (t : Task) (mem mem' : List PgfCCat) : Prop :=
  match t with
  | .visit c => cnccatOf mem' c = none → Bare mem c
  | .loop c ps => cnccatOf mem' c = none → ∀ p ∈ ps, ∃ d, p = .COERCE d ∧ Bare mem d

theorem Ran.null_bare (h : Ran t st r) : ∀ st', r = .ok st' → t.Null st.ccatMem st'.ccatMem := by
  induction h with
  | known hk =>
    rintro _ ⟨⟩ hn
    rw [hk] at hn
    cases hn
  | null => rintro _ ⟨⟩
  | visit hc hn hp _ ih =>
    rintro _ ⟨⟩ hn'
    have hbare := ih _ rfl hn'
    refine .intro hc hn hp (fun p hp' => ?_) (fun d hd => ?_)
    · obtain ⟨d, hd, -⟩ := hbare p hp'
      exact ⟨d, hd⟩
    · obtain ⟨e, he, hb⟩ := hbare _ hd
      cases he
      exact hb
  | visit_fails => rintro _ ⟨⟩
  | done => exact fun _ _ _ p hp => absurd hp List.not_mem_nil
  | apply => rintro _ ⟨⟩
  | coerce_fails => rintro _ ⟨⟩
  | differs => rintro _ ⟨⟩
  | @coerce c d st st₁ st₂ ps r h hj h' ih ih' =>
    rintro st' rfl hn
    obtain ⟨hjoin, -⟩ := join_ok hj
    have hn₂ : cnccatOf st₂.ccatMem c = none := by
      cases hk : cnccatOf st₂.ccatMem c with
      | none => rfl
      | some k =>
        rw [(h'.assigned st' rfl).kept c k hk] at hn
        cases hn
    have hd : cnccatOf st₁.ccatMem d = none := by
      rcases hjoin with ⟨-, hk⟩ | ⟨hk, rfl⟩
      · rw [← hk, hn₂]
      · rw [← hk, hn₂]
    have hb : Bare st.ccatMem d := ih _ rfl hd
    obtain ⟨st₁', h₁, hmem, -⟩ := ran_bare hb st rfl
    obtain rfl := Except.ok.inj (h.unique h₁)
    have hn₁ : cnccatOf st₁.ccatMem c = none := by
      rcases hjoin with ⟨hk, -⟩ | ⟨-, rfl⟩
      · exact hk
      · exact hn₂
    rw [hd] at hj
    obtain rfl := join_null hj hn₁
    intro p hp
    rcases List.mem_cons.1 hp with rfl | hp
    · exact ⟨d, rfl, hb⟩
    · obtain ⟨e, he, hbe⟩ := ih' st' rfl hn p hp
      exact ⟨e, he, hmem ▸ hbe⟩

/-- The productions lead the walk to an end. -/
def Leads (mem : List PgfCCat) (ps : List PgfProduction) : Prop :=
  (∀ p ∈ ps, ∃ d, p = .COERCE d ∧ Bare mem d) ∨ ∃ pre p post, ps = pre ++ p :: post ∧
    (∀ q ∈ pre, ∃ d, q = .COERCE d ∧ Bare mem d) ∧
    ((∃ fun_ args, p = .APPLY fun_ args) ∨ ∃ d, p = .COERCE d ∧ ¬ Bare mem d ∧ Resolves mem d)

theorem Leads.cons (hd : Bare mem d) (h : Leads mem ps) : Leads mem (.COERCE d :: ps) := by
  rcases h with h | ⟨pre, p, post, rfl, hpre, hp⟩
  · refine .inl fun p hp => ?_
    rcases List.mem_cons.1 hp with rfl | hp
    · exact ⟨d, rfl, hd⟩
    · exact h p hp
  · refine .inr ⟨.COERCE d :: pre, p, post, rfl, fun q hq => ?_, hp⟩
    rcases List.mem_cons.1 hq with rfl | hq
    · exact ⟨d, rfl, hd⟩
    · exact hpre q hq

theorem Leads.here (hd : ¬ Bare mem d) (hr : Resolves mem d) : Leads mem (.COERCE d :: ps) :=
  .inr ⟨[], _, ps, rfl, fun _ h => absurd h List.not_mem_nil, .inr ⟨d, rfl, hd, hr⟩⟩

theorem Leads.resolves (hc : mem[c]? = some ccat) (hn : ccat.cnccat = none) (hp : ccat.prods.isNull = false)
    (h : Leads mem ccat.prods.elems) : Resolves mem c := by
  rcases h with h | ⟨pre, p, post, he, hpre, ⟨fun_, args, rfl⟩ | ⟨d, rfl, hd, hr⟩⟩
  · refine .bare (.intro hc hn hp (fun p hp' => ?_) (fun d hd => ?_))
    · obtain ⟨d, hd, -⟩ := h p hp'
      exact ⟨d, hd⟩
    · obtain ⟨e, he, hb⟩ := h _ hd
      cases he
      exact hb
  · exact .apply hc he hpre
  · exact .coerce hc he hpre hd hr

def Task.Resolved (t : Task) (mem : List PgfCCat) : Prop :=
  match t with
  | .visit c => Resolves mem c
  | .loop c ps => ∀ ccat, mem[c]? = some ccat → ccat.cnccat = none → Leads mem ps

/-- A task that stops was led to an end. -/
theorem Ran.resolved (h : Ran t st r) : t.Resolved st.ccatMem := by
  induction h with
  | known hk => exact .known hk
  | null hc _ hp => exact .null hc hp
  | visit hc hn hp _ ih => exact (ih _ hc hn).resolves hc hn hp
  | visit_fails hc hn hp _ ih => exact (ih _ hc hn).resolves hc hn hp
  | done => exact fun _ _ _ => .inl fun p hp => absurd hp List.not_mem_nil
  | apply => exact fun _ _ _ => .inr ⟨[], _, _, rfl, fun _ h => absurd h List.not_mem_nil, .inl ⟨_, _, rfl⟩⟩
  | @coerce_fails c d st ps e h ih =>
    intro _ _ _
    refine Leads.here (fun hb => ?_) ih
    obtain ⟨st₁, h₁, -⟩ := ran_bare hb st rfl
    cases h.unique h₁
  | @differs c d st st₁ ps e h hj ih =>
    intro ccat hc hn
    refine Leads.here (fun hb => ?_) ih
    obtain ⟨st₁', h₁, hmem, hk⟩ := ran_bare hb st rfl
    obtain rfl := Except.ok.inj (h.unique h₁)
    rw [hmem, hk, join_none (by rw [hmem]; exact hc) hn] at hj
    cases hj
  | @coerce c d st st₁ st₂ ps r h hj h' ih ih' =>
    intro ccat hc hn
    by_cases hb : Bare st.ccatMem d
    · obtain ⟨st₁', h₁, hmem, hk⟩ := ran_bare hb st rfl
      obtain rfl := Except.ok.inj (h.unique h₁)
      rw [← hmem] at hc
      rw [hmem, hk] at hj
      obtain rfl := join_null hj ((cnccatOf_eq hc).trans hn)
      rw [← hmem]
      exact .cons (hmem ▸ hb) (ih' _ hc hn)
    · exact .here hb ih

/-! ## Every walk ends where every category resolves -/

theorem Leads.append {pre : List PgfProduction} (hpre : ∀ p ∈ pre, ∃ d, p = .COERCE d ∧ Resolves mem d)
    (h : Leads mem ps) : Leads mem (pre ++ ps) := by
  induction pre with
  | nil => exact h
  | cons p pre ih =>
    obtain ⟨d, rfl, hd⟩ := hpre p List.mem_cons_self
    by_cases hb : Bare mem d
    · exact .cons hb (ih fun q hq => hpre q (List.mem_cons_of_mem _ hq))
    · exact .here hb hd

theorem resolves_of_leads (hc : mem[c]? = some ccat) (h : Leads mem ccat.prods.elems) : Resolves mem c := by
  cases hn : ccat.cnccat with
  | some k => exact .known ((cnccatOf_eq hc).trans hn)
  | none =>
    cases hp : ccat.prods.isNull with
    | true => exact .null hc hp
    | false => exact h.resolves hc hn hp

theorem leads_nil : Leads mem [] := .inl fun _ hp => absurd hp List.not_mem_nil

theorem leads_apply {fun_ : PgfCncFun} {args : List PgfPArg} : Leads mem (.APPLY fun_ args :: ps) :=
  .inr ⟨[], _, ps, rfl, fun _ h => absurd h List.not_mem_nil, .inl ⟨_, _, rfl⟩⟩

theorem bare_resolves (h : Bare mem c) (ha : Assigned mem mem') : Resolves mem' c := by
  induction h with
  | @intro c ccat hc hn hp hco _ ih =>
    obtain ⟨k, hk⟩ := ha.ccats c ccat hc
    refine resolves_of_leads hk ?_
    have hpre : ∀ p ∈ ccat.prods.elems, ∃ d, p = .COERCE d ∧ Resolves mem' d := by
      intro p hp'
      obtain ⟨d, rfl⟩ := hco p hp'
      exact ⟨d, rfl, ih d hp'⟩
    have := Leads.append hpre leads_nil
    rwa [List.append_nil] at this

/-- A category that is bare still was so before. -/
theorem bare_before (h : Bare mem' c) (ha : Assigned mem mem') : Bare mem c := by
  induction h with
  | @intro c ccat hc hn hp hco _ ih =>
    have hlt : c < mem.length := ha.length ▸ (List.getElem?_eq_some_iff.1 hc).1
    obtain ⟨k, hk⟩ := ha.ccats c _ (List.getElem?_eq_getElem hlt)
    rw [hc, Option.some.injEq] at hk
    subst hk
    refine .intro (List.getElem?_eq_getElem hlt) ?_ hp hco ih
    cases hm : mem[c].cnccat with
    | none => rfl
    | some k' =>
      have := ha.kept c k' ((cnccatOf_eq (List.getElem?_eq_getElem hlt)).trans hm)
      rw [cnccatOf_eq hc] at this
      rw [this] at hn
      cases hn

/-- More concrete categories do not stop a walk from ending. -/
theorem resolves_of_assigned (h : Resolves mem c) (ha : Assigned mem mem') : Resolves mem' c := by
  induction h with
  | known hk => exact .known (ha.kept _ _ hk)
  | null hc hp =>
    obtain ⟨k, hk⟩ := ha.ccats _ _ hc
    exact .null hk hp
  | bare hb => exact bare_resolves hb ha
  | @apply c ccat pre post fun_ args hc he hpre =>
    obtain ⟨k, hk⟩ := ha.ccats _ _ hc
    refine resolves_of_leads hk ?_
    show Leads mem' ccat.prods.elems
    rw [he]
    refine Leads.append (fun p hp => ?_) leads_apply
    obtain ⟨d, rfl, hd⟩ := hpre p hp
    exact ⟨d, rfl, bare_resolves hd ha⟩
  | @coerce c d ccat pre post hc he hpre hd _ ih =>
    obtain ⟨k, hk⟩ := ha.ccats _ _ hc
    refine resolves_of_leads hk ?_
    show Leads mem' ccat.prods.elems
    rw [he]
    refine Leads.append (fun p hp => ?_) ?_
    · obtain ⟨e, rfl, he⟩ := hpre p hp
      exact ⟨e, rfl, bare_resolves he ha⟩
    · exact .here (fun hb => hd (bare_before hb ha)) ih

/-- The categories without a concrete category. -/
def unset (mem : List PgfCCat) : Finset Nat := (Finset.range mem.length).filter fun c => cnccatOf mem c = none

theorem mem_unset : c ∈ unset mem ↔ c < mem.length ∧ cnccatOf mem c = none := by
  rw [unset, Finset.mem_filter, Finset.mem_range]

theorem unset_subset (ha : Assigned mem mem') : unset mem' ⊆ unset mem := by
  intro c hc
  rw [mem_unset, ha.length] at hc
  refine mem_unset.2 ⟨hc.1, ?_⟩
  cases hk : cnccatOf mem c with
  | none => rfl
  | some k =>
    rw [ha.kept c k hk] at hc
    exact absurd hc.2 (by simp)

/-- A category that is given a concrete category is one less to go. -/
theorem unset_lt {k : PgfCncCatId} (ha : Assigned mem mem') (hlt : c < mem.length) (hc : cnccatOf mem c = none)
    (hk : cnccatOf mem' c = some k) : (unset mem').card < (unset mem).card := by
  refine Finset.card_lt_card ⟨unset_subset ha, fun hsub => ?_⟩
  have := (mem_unset.1 (hsub (mem_unset.2 ⟨hlt, hc⟩))).2
  rw [hk] at this
  cases this

theorem visit_of_loop (hc : st.ccatMem[c]? = some ccat) (hn : ccat.cnccat = none) (hp : ccat.prods.isNull = false)
    (h : ∃ r, Ran (.loop c ccat.prods.elems) st r) : ∃ r, Ran (.visit c) st r := by
  obtain ⟨r, hr⟩ := h
  cases r with
  | error e => exact ⟨_, .visit_fails hc hn hp hr⟩
  | ok st' => exact ⟨_, .visit hc hn hp hr⟩

/-- A loop stops when the calls that it may make do. -/
theorem loop_runs : ∀ {ps : List PgfProduction} {st : Setting},
    (∀ st', Assigned st.ccatMem st'.ccatMem → ∀ d, .COERCE d ∈ ps → ∃ r, Ran (.visit d) st' r) →
    ∃ r, Ran (.loop c ps) st r := by
  intro ps
  induction ps with
  | nil => exact fun _ => ⟨_, .done⟩
  | cons p ps ih =>
    intro st hrun
    cases p with
    | APPLY fun_ args => exact ⟨_, .apply⟩
    | COERCE d =>
      obtain ⟨r, hr⟩ := hrun st (Assigned.refl _) d List.mem_cons_self
      cases r with
      | error e => exact ⟨_, .coerce_fails hr⟩
      | ok st₁ =>
        cases hj : pgf_ccat_join c (cnccatOf st₁.ccatMem d) st₁ with
        | error e => exact ⟨_, .differs hr hj⟩
        | ok st₂ =>
          have h₂ := (hr.assigned st₁ rfl).trans (join_ok hj).2.1
          have hrun₂ : ∀ st', Assigned st₂.ccatMem st'.ccatMem → ∀ d, .COERCE d ∈ ps → ∃ r, Ran (.visit d) st' r :=
            fun st' ha d hd => hrun st' (h₂.trans ha) d (List.mem_cons_of_mem _ hd)
          obtain ⟨r, hr'⟩ := ih hrun₂
          exact ⟨r, .coerce hr hj hr'⟩

theorem visit_runs : ∀ (n : Nat) (mem : List PgfCCat), (unset mem).card ≤ n → Linked mem →
    (∀ c < mem.length, Resolves mem c) → ∀ c < mem.length, ∀ st : Setting, st.ccatMem = mem → ∃ r, Ran (.visit c) st r := by
  intro n
  induction n with
  | zero =>
    -- every category has a concrete category
    intro mem hcard _ _ c hlt st hst
    have hempty : unset mem = ∅ := Finset.card_eq_zero.1 (Nat.le_zero.1 hcard)
    cases hk : cnccatOf mem c with
    | some k => exact ⟨_, .known (by rw [hst]; exact hk)⟩
    | none =>
      have : c ∈ unset mem := mem_unset.2 ⟨hlt, hk⟩
      rw [hempty] at this
      exact absurd this (Finset.notMem_empty c)
  | succ n ihn =>
    intro mem hcard hl hres c hlt st hst
    have hc := hres c hlt
    clear hlt
    induction hc generalizing st with
    | known hk => exact ⟨_, .known (by rw [hst]; exact hk)⟩
    | @null c ccat hc hp =>
      cases hn : ccat.cnccat with
      | some k => exact ⟨_, .known (by rw [hst]; exact (cnccatOf_eq hc).trans hn)⟩
      | none => exact ⟨_, .null (by rw [hst]; exact hc) hn hp⟩
    | bare hb =>
      obtain ⟨st', h, -⟩ := ran_bare hb st hst
      exact ⟨_, h⟩
    | @apply c ccat pre post fun_ args hc he hpre =>
      cases hn : ccat.cnccat with
      | some k => exact ⟨_, .known (by rw [hst]; exact (cnccatOf_eq hc).trans hn)⟩
      | none =>
        cases hp : ccat.prods.isNull with
        | true => exact ⟨_, .null (by rw [hst]; exact hc) hn hp⟩
        | false =>
          obtain ⟨st', -, hgo⟩ := loop_pre hc hn hpre st hst
          have := hgo (.APPLY fun_ args :: post) _ .apply
          rw [← he] at this
          exact visit_of_loop (by rw [hst]; exact hc) hn hp ⟨_, this⟩
    | @coerce c d ccat pre post hc he hpre hd _ ih =>
      cases hn : ccat.cnccat with
      | some k => exact ⟨_, .known (by rw [hst]; exact (cnccatOf_eq hc).trans hn)⟩
      | none =>
        cases hp : ccat.prods.isNull with
        | true => exact ⟨_, .null (by rw [hst]; exact hc) hn hp⟩
        | false =>
          obtain ⟨st', hst', hgo⟩ := loop_pre hc hn hpre st hst
          obtain ⟨r, hr⟩ := ih st' hst'
          have hloop : ∃ r, Ran (.loop c (.COERCE d :: post)) st' r := by
            cases r with
            | error e => exact ⟨_, .coerce_fails hr⟩
            | ok st₁ =>
              cases hj : pgf_ccat_join c (cnccatOf st₁.ccatMem d) st₁ with
              | error e => exact ⟨_, .differs hr hj⟩
              | ok st₂ =>
                -- now `c` has a concrete category, so there is one less to go
                have h₂ : Assigned mem st₂.ccatMem := hst' ▸ (hr.assigned st₁ rfl).trans (join_ok hj).2.1
                obtain ⟨k, hk⟩ : ∃ k, cnccatOf st₁.ccatMem d = some k := by
                  cases hk : cnccatOf st₁.ccatMem d with
                  | some k => exact ⟨k, rfl⟩
                  | none => exact absurd (hst' ▸ hr.null_bare st₁ rfl hk) hd
                have hck : cnccatOf st₂.ccatMem c = some k := by
                  rcases (join_ok hj).1 with ⟨-, h⟩ | ⟨h, rfl⟩
                  · exact h.trans hk
                  · exact h.trans hk
                have hless := unset_lt h₂ (List.getElem?_eq_some_iff.1 hc).1 ((cnccatOf_eq hc).trans hn) hck
                have hpost : ∃ r, Ran (.loop c post) st₂ r := by
                  refine loop_runs fun st'' ha e hmem => ?_
                  have h₃ := h₂.trans ha
                  refine ihn st''.ccatMem ?_ (h₃.linked hl) (fun x hx => resolves_of_assigned (hres x (h₃.length ▸ hx)) h₃)
                    e ?_ st'' rfl
                  · have := Finset.card_le_card (unset_subset ha)
                    omega
                  · rw [h₃.length]
                    have hep : .COERCE e ∈ ccat.prods.elems := he ▸ List.mem_append_right _ (List.mem_cons_of_mem _ hmem)
                    exact hl ccat (List.mem_of_getElem? hc) _ hep e (List.mem_singleton_self e)
                obtain ⟨r, hr'⟩ := hpost
                exact ⟨r, .coerce hr hj hr'⟩
          obtain ⟨r, hr⟩ := hloop
          have := hgo _ _ hr
          rw [← he] at this
          exact visit_of_loop (by rw [hst]; exact hc) hn hp ⟨_, this⟩

end Setting

/-- Both walks over coercions terminate from every category. -/
def WalksEnd (mem : List PgfCCat) : Prop :=
  ∀ c < mem.length, (∀ n, Terminates fun fuel => pgf_ccat_n_ctnts mem fuel c n) ∧
    ∀ newly_set, Terminates fun fuel => pgf_ccat_set_cnccat fuel { ccatMem := mem, newly_set } c

/-- Exactly when the walks terminate: each category has no cycle in reach or two
productions before it that disagree, and each resolves. -/
theorem walksEnd_iff {mem : List PgfCCat} (hl : Linked mem) :
    WalksEnd mem ↔ ∀ c < mem.length, (Loopless mem c ∨ Disagrees mem c) ∧ Resolves mem c := by
  constructor
  · intro h c hc
    obtain ⟨hn, hs⟩ := h c hc
    have hterm := @Setting.terminates_iff { ccatMem := mem, newly_set := [] } c hl hc
    obtain ⟨r, hr⟩ := hterm.1 (hs [])
    exact ⟨(n_ctnts_terminates hl (List.getElem?_eq_getElem hc)).1 hn, hr.resolved⟩
  · intro h c hc
    refine ⟨(n_ctnts_terminates hl (List.getElem?_eq_getElem hc)).2 (h c hc).1, fun newly_set => ?_⟩
    have hterm := @Setting.terminates_iff { ccatMem := mem, newly_set } c hl hc
    refine hterm.2 ?_
    exact Setting.visit_runs _ mem (Nat.le_refl _) hl (fun d hd => (h d hd).2) c hc _ rfl

namespace Loop

/-- A category that only coerces to itself. -/
def entries : List CCatEntry := [{ fid := 0, prods := [.COERCE 0] }]

def mem : List PgfCCat := [{ cnccat := none, prods := .seq [.COERCE 0], fid := 0 }]

/-- Neither walk comes back from a category that coerces to itself. -/
theorem walks_hang : ∃ rdr, pgf_read_ccats entries = .ok rdr ∧ ¬ WalksEnd rdr.ccatMem ∧
    ∀ fuel, pgf_ccat_n_ctnts rdr.ccatMem fuel 0 (-1) = .error .fuel ∧
      pgf_ccat_set_cnccat fuel { ccatMem := rdr.ccatMem, newly_set := [] } 0 = .error .fuel := by
  have hread : (pgf_read_ccats entries).toOption.any (fun rdr => decide (rdr.ccatMem = mem)) = true := by decide +kernel
  cases h : pgf_read_ccats entries with
  | error e => simp [h, Except.toOption] at hread
  | ok rdr =>
    simp only [h, Except.toOption, Option.any_some, decide_eq_true_eq] at hread
    have hn : ∀ fuel, pgf_ccat_n_ctnts mem fuel 0 (-1) = .error .fuel := by
      intro fuel
      induction fuel with
      | zero => rfl
      | succ fuel ih =>
        rw [n_ctnts_succ (c := 0) rfl]
        show (pgf_ccat_n_ctnts mem fuel 0 (-1) >>= _) = _
        rw [ih]
        rfl
    have hs : ∀ fuel, pgf_ccat_set_cnccat fuel { ccatMem := mem, newly_set := [] } 0 = .error .fuel := by
      intro fuel
      induction fuel with
      | zero => rfl
      | succ fuel ih =>
        rw [Setting.set_visit (c := 0) rfl rfl rfl]
        show ((pgf_ccat_set_cnccat fuel { ccatMem := mem, newly_set := [] } 0 >>= _) >>= _) = _
        rw [ih]
        rfl
    refine ⟨rdr, rfl, ?_, ?_⟩
    · rw [hread]
      intro hw
      obtain ⟨fuel, hf⟩ := ((hw 0 (by decide)).1 (-1)).returns
      exact hf (hn fuel)
    · rw [hread]
      exact fun fuel => ⟨hn fuel, hs fuel⟩

/-- A category outside the ranges that coerces to one inside. -/
def outside : List PgfCCat :=
  [{ cnccat := none, prods := .seq [.COERCE 1], fid := 0 }, { cnccat := some 0, prods := .null, fid := 1 }]

theorem walksEnd_outside : Linked outside ∧ WalksEnd outside := by
  have hl : Linked outside := by
    unfold Linked
    decide
  refine ⟨hl, (walksEnd_iff hl).2 fun c hc => ?_⟩
  have h₁ : Loopless outside 1 := Loopless.of_coerces rfl fun e he => absurd he (by simp [PgfProductions.elems])
  have hknown : cnccatOf outside 1 = some 0 := rfl
  obtain rfl | rfl : c = 0 ∨ c = 1 := by
    simp only [outside, List.length_cons, List.length_nil] at hc
    omega
  · refine ⟨.inl (Loopless.of_coerces rfl fun e he => ?_), ?_⟩
    · obtain rfl : e = 1 := by simpa [PgfProductions.elems] using he
      exact h₁
    · refine @Resolves.coerce _ 0 1 _ [] [] rfl rfl (fun _ h => absurd h List.not_mem_nil) ?_ (.known hknown)
      rintro ⟨hc, hn, -⟩
      rw [cnccatOf_eq hc, hn] at hknown
      cases hknown
  · exact ⟨.inl h₁, .known hknown⟩

end Loop

end Libpgf
