import Libpgf.Pgf.ExtraCategories
/-!
# The pass over the category map

After the ranges are read, the reader calls `pgf_ccat_set_cnccat` for each
entry of the category map, in the order of the table. Where coercions have no
cycles and lead into ranges, each category outside them is listed once, after
those it coerces to.
-/

namespace Libpgf

/-- The categories outside all ranges are coercions to others, and no coercions lead back. -/
structure Layered (mem : List PgfCCat) : Prop where
  linked : Linked mem
  loopless : ∀ c, Loopless mem c
  outside : ∀ (c : PgfCCatId) (ccat : PgfCCat), mem[c]? = some ccat → ccat.cnccat = none →
    ccat.prods.elems ≠ [] ∧ ∀ p ∈ ccat.prods.elems, ∃ d, p = .COERCE d

/-- `c` reaches a category that has the concrete category `k`, through categories that have none. -/
inductive Reaches (mem : List PgfCCat) : PgfCCatId → PgfCncCatId → Prop
  | inside {c : PgfCCatId} {k : PgfCncCatId} : cnccatOf mem c = some k → Reaches mem c k
  | through {c d : PgfCCatId} {k : PgfCncCatId} :
    cnccatOf mem c = none → Coerces mem d c → Reaches mem d k → Reaches mem c k

/-- A category outside the ranges reaches two concrete categories. -/
def Conflict (mem : List PgfCCat) : Prop :=
  ∃ c k k', cnccatOf mem c = none ∧ Reaches mem c k ∧ Reaches mem c k' ∧ k ≠ k'

/-- A chain of coercions leads from `c` to `x`. -/
def Below (mem : List PgfCCat) (x c : PgfCCatId) : Prop := Relation.ReflTransGen (Coerces mem) x c

namespace Setting
variable {mem : List PgfCCat} {st st' st₁ st₂ : Setting} {c d x : PgfCCatId} {k : PgfCncCatId} {ps : List PgfProduction}

theorem not_below (hm : Layered mem) (hd : Coerces mem d c) : ¬ Below mem c d := by
  intro h
  have hwf : WellFounded (Coerces mem) := ⟨hm.loopless⟩
  exact hwf.transGen.irrefl.irrefl c (Relation.TransGen.tail' h hd)

/-- The category has the one concrete category that it reaches, and is listed if it is outside. -/
structure Settled (mem : List PgfCCat) (st : Setting) (c : PgfCCatId) (k : PgfCncCatId) : Prop where
  has : cnccatOf st.ccatMem c = some k
  reaches : Reaches mem c k
  only : ∀ k', Reaches mem c k' → k' = k
  listed : cnccatOf mem c = none → c ∈ st.newly_set

/-- What holds between calls, and within them up to the categories on the way. -/
structure Inv (mem : List PgfCCat) (st : Setting) : Prop where
  assigned : Assigned mem st.ccatMem
  nodup : st.newly_set.Nodup
  outside : ∀ c ∈ st.newly_set, c < mem.length ∧ cnccatOf mem c = none
  settled : ∀ c ∈ st.newly_set, ∃ k, Settled mem st c k
  order : ∀ pre c post, st.newly_set = pre ++ c :: post → ∀ d, Coerces mem d c → cnccatOf mem d = none → d ∈ pre

/-- No category below `c` is being visited. -/
def Clear (mem : List PgfCCat) (st : Setting) (c : PgfCCatId) : Prop :=
  ∀ x, Below mem x c → cnccatOf st.ccatMem x ≠ none → cnccatOf mem x = none → x ∈ st.newly_set

/-- What a call for `c` changes: categories below `c`, which it lists. -/
structure Visited (mem : List PgfCCat) (c : PgfCCatId) (st st' : Setting) : Prop where
  assigned : Assigned st.ccatMem st'.ccatMem
  listed : ∀ x ∈ st.newly_set, x ∈ st'.newly_set
  below : ∀ x ∈ st'.newly_set, x ∈ st.newly_set ∨ Below mem x c
  set : ∀ x, cnccatOf st'.ccatMem x ≠ none → cnccatOf st.ccatMem x ≠ none ∨ x ∈ st'.newly_set

theorem Settled.mono (h : Settled mem st c k) (ha : Assigned st.ccatMem st'.ccatMem)
    (hl : ∀ x ∈ st.newly_set, x ∈ st'.newly_set) : Settled mem st' c k :=
  ⟨ha.kept c k h.has, h.reaches, h.only, fun hn => hl c (h.listed hn)⟩

theorem reaches_inside {k' : PgfCncCatId} (hk : cnccatOf mem c = some k) (h : Reaches mem c k') : k' = k := by
  cases h with
  | inside hk' => exact Option.some.inj (hk'.symm.trans hk)
  | through hn => rw [hn] at hk; cases hk

/-- A call for `c` comes to a result: the assertion fails over a conflict, or `c` is settled. -/
def VisitGood (mem : List PgfCCat) (c : PgfCCatId) : Prop :=
  ∀ st, Inv mem st → Clear mem st c → ∃ r, Ran (.visit c) st r ∧
    (r = Exec.abort ∧ Conflict mem ∨ ∃ st' k, r = .ok st' ∧ Inv mem st' ∧ Visited mem c st st' ∧ Settled mem st' c k)

/-- The loop for `c` has gone over the productions `done`. -/
structure Joined (mem : List PgfCCat) (c : PgfCCatId) (done : List PgfProduction) (st : Setting) : Prop where
  inv : Inv mem st
  unlisted : c ∉ st.newly_set
  children : ∀ d, .COERCE d ∈ done → ∃ k, cnccatOf st.ccatMem c = some k ∧ Settled mem st d k
  reaches : ∀ k, cnccatOf st.ccatMem c = some k → Reaches mem c k

/-- What the loop for `c` changes, besides `c` itself. -/
structure Looped (mem : List PgfCCat) (c : PgfCCatId) (st st' : Setting) : Prop where
  assigned : Assigned st.ccatMem st'.ccatMem
  listed : ∀ x ∈ st.newly_set, x ∈ st'.newly_set
  below : ∀ x ∈ st'.newly_set, x ∈ st.newly_set ∨ Below mem x c
  set : ∀ x, x ≠ c → cnccatOf st'.ccatMem x ≠ none → cnccatOf st.ccatMem x ≠ none ∨ x ∈ st'.newly_set

theorem Looped.refl (st : Setting) : Looped mem c st st :=
  ⟨Assigned.refl _, fun _ h => h, fun _ h => .inl h, fun _ _ h => .inl h⟩

theorem Looped.trans (h : Looped mem c st st₁) (h' : Looped mem c st₁ st') : Looped mem c st st' where
  assigned := h.assigned.trans h'.assigned
  listed x hx := h'.listed x (h.listed x hx)
  below x hx := by
    rcases h'.below x hx with hx | hx
    · exact h.below x hx
    · exact .inr hx
  set x hxc hx := by
    rcases h'.set x hxc hx with hx | hx
    · rcases h.set x hxc hx with hx | hx
      · exact .inl hx
      · exact .inr (h'.listed x hx)
    · exact .inr hx

theorem join_cases (hc : c < st.ccatMem.length) (k : PgfCncCatId) :
    (∃ st', pgf_ccat_join c (some k) st = .ok st' ∧ cnccatOf st'.ccatMem c = some k) ∨
      pgf_ccat_join c (some k) st = Exec.abort ∧ ∃ k₀, cnccatOf st.ccatMem c = some k₀ ∧ k₀ ≠ k := by
  have hg := List.getElem?_eq_getElem hc
  unfold pgf_ccat_join
  rw [hg, Exec.deref_some, Exec.ok_bind]
  cases hn : st.ccatMem[c].cnccat with
  | none => exact .inl ⟨_, by rw [if_pos rfl]; rfl, cnccatOf_set hg⟩
  | some k₀ =>
    rw [if_neg (by simp)]
    by_cases hk : k₀ = k
    · subst hk
      refine .inl ⟨st, ?_, (cnccatOf_eq hg).trans hn⟩
      simp [Exec.require]
    · refine .inr ⟨?_, k₀, (cnccatOf_eq hg).trans hn, hk⟩
      simp [Exec.require, hk, Exec.abort]

/-- The loop's assignment keeps the invariant. -/
theorem Inv.joined (hi : Inv mem st) (ha : Assigned st.ccatMem st'.ccatMem)
    (hl : st'.newly_set = st.newly_set) : Inv mem st' where
  assigned := hi.assigned.trans ha
  nodup := hl ▸ hi.nodup
  outside := hl ▸ hi.outside
  settled x hx := by
    obtain ⟨k, hk⟩ := hi.settled x (hl ▸ hx)
    exact ⟨k, hk.mono ha fun y hy => hl ▸ hy⟩
  order := hl ▸ hi.order

/-- One round of the loop. -/
theorem joined_step (hm : Layered mem) (hc : cnccatOf mem c = none) (hlt : c < mem.length) (hd : Coerces mem d c)
    (hgood : VisitGood mem d) {done : List PgfProduction} (hj : Joined mem c done st) (hclear : Clear mem st d) :
    (Ran (.loop c (.COERCE d :: ps)) st Exec.abort ∧ Conflict mem) ∨
      ∃ st₂, Joined mem c (done ++ [.COERCE d]) st₂ ∧ Looped mem c st st₂ ∧
        ∀ r, Ran (.loop c ps) st₂ r → Ran (.loop c (.COERCE d :: ps)) st r := by
  obtain ⟨r, hr, ⟨rfl, hcon⟩ | ⟨st₁, k, rfl, hi₁, hv, hs⟩⟩ := hgood st hj.inv hclear
  · exact .inl ⟨.coerce_fails hr, hcon⟩
  have hunl : c ∉ st₁.newly_set := by
    intro h
    rcases hv.below c h with h | h
    · exact hj.unlisted h
    · exact not_below hm hd h
  -- the call for `d` has left `c` alone
  have hsame : cnccatOf st₁.ccatMem c = cnccatOf st.ccatMem c := by
    cases hk : cnccatOf st.ccatMem c with
    | some k => exact hv.assigned.kept c k hk
    | none =>
      by_contra hne
      rcases hv.set c hne with h | h
      · exact h hk
      · exact hunl h
  have hlt₁ : c < st₁.ccatMem.length := hi₁.assigned.length ▸ hlt
  rcases join_cases hlt₁ k with ⟨st₂, hjoin, hk⟩ | ⟨habort, k₀, hk₀, hne⟩
  · obtain ⟨-, ha, hl, hother⟩ := join_ok hjoin
    refine .inr ⟨st₂, ⟨hi₁.joined ha hl, hl ▸ hunl, fun e he => ?_, fun k' hk' => ?_⟩,
      ⟨hv.assigned.trans ha, fun x hx => hl ▸ hv.listed x hx, fun x hx => ?_, fun x hxc hx => ?_⟩,
      fun r h => .coerce hr (hs.has ▸ hjoin) h⟩
    · rcases List.mem_append.1 he with he | he
      · obtain ⟨k', hk', hs'⟩ := hj.children e he
        refine ⟨k', ha.kept c k' (hsame.trans hk'), hs'.mono (hv.assigned.trans ha) fun x hx => hl ▸ hv.listed x hx⟩
      · cases List.mem_singleton.1 he
        exact ⟨k, hk, hs.mono ha fun x hx => hl ▸ hx⟩
    · rw [hk, Option.some.injEq] at hk'
      subst hk'
      exact .through hc hd hs.reaches
    · rcases hv.below x (hl ▸ hx) with h | h
      · exact .inl h
      · exact .inr (h.tail hd)
    · rw [hother x hxc] at hx
      rcases hv.set x hx with h | h
      · exact .inl h
      · exact .inr (hl ▸ h)
  · refine .inl ⟨.differs hr (hs.has ▸ habort), c, k₀, k, hc, hj.reaches k₀ (hsame ▸ hk₀), .through hc hd hs.reaches, hne⟩

/-- What is clear stays so for the next coercion. -/
theorem Clear.looped (hm : Layered mem) (hd : Coerces mem d c) (h : Clear mem st d) (hl : Looped mem c st st') :
    Clear mem st' d := by
  intro x hx hset hout
  have hxc : x ≠ c := by
    rintro rfl
    exact not_below hm hd hx
  rcases hl.set x hxc hset with h' | h'
  · exact hl.listed x (h x hx h' hout)
  · exact h'

/-- The loop over the productions of a category outside the ranges. -/
theorem loop_good (hm : Layered mem) (hc : cnccatOf mem c = none) (hlt : c < mem.length) :
    ∀ {ps done : List PgfProduction} {st : Setting}, (∀ p ∈ ps, ∃ d, p = .COERCE d ∧ Coerces mem d c ∧ VisitGood mem d) →
      Joined mem c done st → (∀ d, Coerces mem d c → Clear mem st d) → ∃ r, Ran (.loop c ps) st r ∧
        (r = Exec.abort ∧ Conflict mem ∨ ∃ st', r = .ok st' ∧ Joined mem c (done ++ ps) st' ∧ Looped mem c st st') := by
  intro ps
  induction ps with
  | nil =>
    intro done st _ hj _
    exact ⟨_, .done, .inr ⟨st, rfl, by rwa [List.append_nil], .refl st⟩⟩
  | cons p ps ih =>
    intro done st hps hj hclear
    obtain ⟨d, rfl, hd, hgood⟩ := hps p List.mem_cons_self
    have hstep := @joined_step mem st c d ps hm hc hlt hd hgood done hj (hclear d hd)
    rcases hstep with ⟨hr, hcon⟩ | ⟨st₂, hj₂, hl₂, hgo⟩
    · exact ⟨_, hr, .inl ⟨rfl, hcon⟩⟩
    · obtain ⟨r, hr, h⟩ := ih (fun q hq => hps q (List.mem_cons_of_mem _ hq)) hj₂ fun e he => (hclear e he).looped hm he hl₂
      refine ⟨r, hgo r hr, ?_⟩
      rcases h with h | ⟨st', rfl, hj', hl'⟩
      · exact .inl h
      · refine .inr ⟨st', rfl, ?_, hl₂.trans hl'⟩
        rwa [List.append_assoc] at hj'

/-- A category is listed once its loop is through. -/
theorem pushed {ccat : PgfCCat} (hm : Layered mem) (hc : mem[c]? = some ccat) (hn : ccat.cnccat = none)
    (hj : Joined mem c ccat.prods.elems st) : Inv mem (st.push c) ∧ ∃ k, Settled mem (st.push c) c k := by
  have hout : cnccatOf mem c = none := (cnccatOf_eq hc).trans hn
  have hmono : ∀ x ∈ st.newly_set, x ∈ (st.push c).newly_set := fun x hx => List.mem_append_left _ hx
  obtain ⟨hne, hco⟩ := hm.outside c ccat hc hn
  have hchild : ∀ {d}, Coerces mem d c → .COERCE d ∈ ccat.prods.elems := by
    rintro d ⟨ccat', hc', hd⟩
    rw [hc, Option.some.injEq] at hc'
    exact hc' ▸ hd
  have hset : ∃ k, Settled mem (st.push c) c k := by
    obtain ⟨p, hp⟩ := List.exists_mem_of_ne_nil _ hne
    obtain ⟨d, rfl⟩ := hco p hp
    obtain ⟨k, hk, hs⟩ := hj.children d hp
    refine ⟨k, hk, hj.reaches k hk, fun k' hk' => ?_, fun _ => List.mem_append_right _ (List.mem_singleton_self c)⟩
    cases hk' with
    | inside hk' => rw [hout] at hk'; cases hk'
    | through _ he hr =>
      obtain ⟨k'', hk'', hs'⟩ := hj.children _ (hchild he)
      rw [hk, Option.some.injEq] at hk''
      exact (hs'.only k' hr).trans hk''.symm
  refine ⟨⟨hj.inv.assigned, ?_, fun x hx => ?_, fun x hx => ?_, fun pre x post he d hd hdout => ?_⟩, hset⟩
  · exact List.nodup_append.2 ⟨hj.inv.nodup, List.nodup_singleton c,
      fun a ha b hb => by rw [List.mem_singleton.1 hb]; rintro rfl; exact hj.unlisted ha⟩
  · rcases List.mem_append.1 hx with hx | hx
    · exact hj.inv.outside x hx
    · rw [List.mem_singleton.1 hx]
      exact ⟨(List.getElem?_eq_some_iff.1 hc).1, hout⟩
  · rcases List.mem_append.1 hx with hx | hx
    · obtain ⟨k, hk⟩ := hj.inv.settled x hx
      exact ⟨k, hk.mono (Assigned.refl _) hmono⟩
    · rw [List.mem_singleton.1 hx]
      exact hset
  · rcases List.eq_nil_or_concat post with rfl | ⟨post, y, rfl⟩
    · obtain ⟨rfl, hx⟩ := List.append_inj' he rfl
      obtain rfl : c = x := (List.cons.inj hx).1
      obtain ⟨k, -, hs⟩ := hj.children d (hchild hd)
      exact hs.listed hdout
    · have he' : st.newly_set ++ [c] = (pre ++ x :: post) ++ [y] := by
        rw [List.concat_eq_append] at he
        rw [List.append_assoc]
        exact he
      exact hj.inv.order pre x post (List.append_inj' he' rfl).1 d hd hdout

/-- A call comes to a conflict or settles its category. -/
theorem visit_good (hm : Layered mem) (h : Loopless mem c) : c < mem.length → VisitGood mem c := by
  induction h with
  | intro c _ ih =>
    intro hlt st hi hclear
    have hc := List.getElem?_eq_getElem hlt
    cases hk : cnccatOf mem c with
    | some k =>
      -- inside a range
      have hk' := hi.assigned.kept c k hk
      refine ⟨_, .known hk', .inr ⟨st, k, rfl, hi, ⟨Assigned.refl _, fun _ h => h, fun _ h => .inl h, fun _ h => .inl h⟩,
        hk', .inside hk, fun k' h => reaches_inside hk h, fun hn => ?_⟩⟩
      rw [hk] at hn
      cases hn
    | none =>
      have hn : mem[c].cnccat = none := (cnccatOf_eq hc).symm.trans hk
      cases hset : cnccatOf st.ccatMem c with
      | some k =>
        -- visited before
        have hin : c ∈ st.newly_set := hclear c Relation.ReflTransGen.refl (by rw [hset]; simp) hk
        obtain ⟨k', hs⟩ := hi.settled c hin
        exact ⟨_, .known hset, .inr ⟨st, k', rfl, hi,
          ⟨Assigned.refl _, fun _ h => h, fun _ h => .inl h, fun _ h => .inl h⟩, hs⟩⟩
      | none =>
        obtain ⟨k', hst⟩ := hi.assigned.ccats c _ hc
        have hk' : k' = none := (cnccatOf_eq hst).symm.trans hset
        subst hk'
        obtain ⟨hne, hco⟩ := hm.outside c _ hc hn
        have hunl : c ∉ st.newly_set := by
          intro h
          obtain ⟨k, hs⟩ := hi.settled c h
          rw [hs.has] at hset
          cases hset
        have hps : ∀ p ∈ mem[c].prods.elems, ∃ d, p = .COERCE d ∧ Coerces mem d c ∧ VisitGood mem d := by
          intro p hp
          obtain ⟨d, rfl⟩ := hco p hp
          have hd : Coerces mem d c := ⟨_, hc, hp⟩
          have hdlt := hm.linked _ (List.getElem_mem hlt) _ hp d (List.mem_singleton_self d)
          exact ⟨d, rfl, hd, ih d hd hdlt⟩
        have hj : Joined mem c [] st :=
          ⟨hi, hunl, fun d hd => absurd hd List.not_mem_nil, fun k h => by rw [hset] at h; cases h⟩
        obtain ⟨r, hr, hres⟩ := loop_good hm hk hlt hps hj fun d hd x hx => hclear x (hx.tail hd)
        have hnull : mem[c].prods.isNull = false := by
          cases hp : mem[c].prods with
          | null => rw [hp] at hne; exact absurd rfl hne
          | seq => rfl
          | buf => rfl
        rcases hres with ⟨rfl, hcon⟩ | ⟨st', rfl, hj', hl⟩
        · exact ⟨_, .visit_fails hst rfl hnull hr, .inl ⟨rfl, hcon⟩⟩
        · obtain ⟨hi', k, hs⟩ := pushed hm hc hn hj'
          refine ⟨_, .visit hst rfl hnull hr, .inr ⟨_, k, rfl, hi', ⟨hl.assigned, fun x hx => ?_, fun x hx => ?_, fun x hx => ?_⟩, hs⟩⟩
          · exact List.mem_append_left _ (hl.listed x hx)
          · rcases List.mem_append.1 hx with hx | hx
            · exact hl.below x hx
            · rw [List.mem_singleton.1 hx]
              exact .inr Relation.ReflTransGen.refl
          · by_cases hxc : x = c
            · exact .inr (List.mem_append_right _ (hxc ▸ List.mem_singleton_self c))
            · rcases hl.set x hxc hx with h | h
              · exact .inl h
              · exact .inr (List.mem_append_left _ h)

/-! ## The pass -/

/-- No category is being visited. -/
def Idle (mem : List PgfCCat) (st : Setting) : Prop :=
  ∀ x, cnccatOf st.ccatMem x ≠ none → cnccatOf mem x = none → x ∈ st.newly_set

theorem pass_good (hm : Layered mem) : ∀ {order : List PgfCCatId} {st : Setting}, (∀ c ∈ order, c < mem.length) →
    Inv mem st → Idle mem st → ∃ r, Settles (fun fuel => pgf_read_extra_ccats fuel order st) r ∧
      (r = Exec.abort ∧ Conflict mem ∨
        ∃ st', r = .ok st' ∧ Inv mem st' ∧ Assigned st.ccatMem st'.ccatMem ∧ (∀ x ∈ st.newly_set, x ∈ st'.newly_set) ∧
          ∀ c ∈ order, ∃ k, Settled mem st' c k) := by
  intro order
  induction order with
  | nil =>
    intro st _ hi _
    exact ⟨_, .of_eq fun _ => rfl, .inr ⟨st, rfl, hi, Assigned.refl _, fun _ h => h, fun _ h => absurd h List.not_mem_nil⟩⟩
  | cons c order ih =>
    intro st hlt hi hidle
    have hc := hlt c List.mem_cons_self
    obtain ⟨r, hr, h⟩ := visit_good hm (hm.loopless c) hc st hi fun x _ => hidle x
    have hset : Settles (fun fuel => (pgf_ccat_set_cnccat fuel st c).map Prod.fst) r := by
      obtain ⟨n, hn⟩ := hr.comes
      refine ⟨n, fun m hle => ?_⟩
      simp only [hn m hle]
      cases r <;> rfl
    rcases h with ⟨rfl, hcon⟩ | ⟨st₁, k, rfl, hi₁, hv, hs⟩
    · exact ⟨_, Settles.bind_error hset, .inl ⟨rfl, hcon⟩⟩
    · have hidle₁ : Idle mem st₁ := by
        intro x hx hout
        rcases hv.set x hx with h | h
        · exact hv.listed x (hidle x h hout)
        · exact h
      obtain ⟨r, hr', h⟩ := ih (fun d hd => hlt d (List.mem_cons_of_mem _ hd)) hi₁ hidle₁
      refine ⟨r, Settles.bind hset hr', ?_⟩
      rcases h with h | ⟨st', rfl, hi', ha, hl, hall⟩
      · exact .inl h
      · refine .inr ⟨st', rfl, hi', hv.assigned.trans ha, fun x hx => hl x (hv.listed x hx), fun d hd => ?_⟩
        rcases List.mem_cons.1 hd with rfl | hd
        · exact ⟨k, hs.mono ha hl⟩
        · exact hall d hd

theorem Inv.start (mem : List PgfCCat) : Inv mem { ccatMem := mem, newly_set := [] } where
  assigned := Assigned.refl mem
  nodup := List.nodup_nil
  outside _ h := absurd h List.not_mem_nil
  settled _ h := absurd h List.not_mem_nil
  order pre c post h := by simp at h

end Setting

/-- The pass over the category map, in any order: it fails exactly when a
category outside the ranges reaches two concrete categories. Otherwise each
category outside gets the one that it reaches, and is listed once, after those
outside that it coerces to; and nothing else is changed. Here no other
assertion can fail, since the categories outside have coercions only. -/
theorem pgf_read_extra_ccats_spec {mem : List PgfCCat} {order : List PgfCCatId} (hm : Layered mem)
    (horder : ∀ c, c ∈ order ↔ c < mem.length) :
    (Settles (fun fuel => pgf_read_extra_ccats fuel order { ccatMem := mem, newly_set := [] }) Exec.abort ↔ Conflict mem) ∧
    (¬ Conflict mem → ∃ st',
      Settles (fun fuel => pgf_read_extra_ccats fuel order { ccatMem := mem, newly_set := [] }) (.ok st') ∧
      Assigned mem st'.ccatMem ∧
      (∀ c < mem.length, cnccatOf mem c = none → ∃ k, cnccatOf st'.ccatMem c = some k ∧ ∀ k', Reaches mem c k' ↔ k' = k) ∧
      st'.newly_set.Nodup ∧ (∀ c, c ∈ st'.newly_set ↔ c < mem.length ∧ cnccatOf mem c = none) ∧
      ∀ pre c post, st'.newly_set = pre ++ c :: post → ∀ d, Coerces mem d c → cnccatOf mem d = none → d ∈ pre) := by
  obtain ⟨r, hr, h⟩ := Setting.pass_good hm (fun c => (horder c).1) (.start mem) fun x hx hn => absurd hn hx
  rcases h with ⟨rfl, hcon⟩ | ⟨st', rfl, hi, -, -, hall⟩
  · exact ⟨⟨fun _ => hcon, fun _ => hr⟩, fun hno => absurd hcon hno⟩
  · have hlt : ∀ {c k}, cnccatOf mem c = none → Reaches mem c k → c < mem.length := by
      intro c k hn hreach
      cases hreach with
      | inside hk => rw [hn] at hk; cases hk
      | through _ hd _ =>
        obtain ⟨ccat, hc, -⟩ := hd
        exact (List.getElem?_eq_some_iff.1 hc).1
    have hno : ¬ Conflict mem := by
      rintro ⟨c, k, k', hc, hk, hk', hne⟩
      obtain ⟨k₀, hs⟩ := hall c ((horder c).2 (hlt hc hk))
      exact hne ((hs.only k hk).trans (hs.only k' hk').symm)
    refine ⟨⟨fun h => ?_, fun h => absurd h hno⟩, fun _ => ⟨st', hr, hi.assigned, fun c hc _ => ?_, hi.nodup, fun c => ?_, hi.order⟩⟩
    · cases hr.unique h
    · obtain ⟨k, hs⟩ := hall c ((horder c).2 hc)
      refine ⟨k, hs.has, fun k' => ⟨hs.only k', ?_⟩⟩
      rintro rfl
      exact hs.reaches
    · refine ⟨hi.outside c, fun ⟨hc, hn⟩ => ?_⟩
      obtain ⟨k, hs⟩ := hall c ((horder c).2 hc)
      exact hs.listed hn

/-- The order of the map's table is such an order. -/
theorem PgfReader.Interned.mem_order {rdr : PgfReader} (hr : rdr.Interned) (c : PgfCCatId) :
    c ∈ rdr.order ↔ c < rdr.ccatMem.length := by
  unfold PgfReader.order
  rw [List.mem_filterMap]
  constructor
  · rintro ⟨i, hi, hc⟩
    split at hc
    · cases hc
    · rename_i hfree
      have hv : rdr.curr_ccats.values[i]? = some (some c) := by
        cases hv : rdr.curr_ccats.values[i]? with
        | none => rw [hv] at hc; cases hc
        | some v =>
          rw [hv] at hc
          exact congrArg some hc
      have hat : rdr.Names (rdr.curr_ccats.key gu_int32_hasher i) c :=
        ⟨i, ⟨List.mem_range.1 hi, by simpa using hfree⟩, gu_int32_hasher.eq_refl _, hv⟩
      obtain ⟨_, hmem, -⟩ := hr.fid _ _ hat
      exact (List.getElem?_eq_some_iff.1 hmem).1
  · intro hlt
    obtain ⟨i, hu, -, hv⟩ := hr.named c _ (List.getElem?_eq_getElem hlt)
    refine ⟨i, List.mem_range.2 hu.1, ?_⟩
    rw [hu.2, hv]
    rfl

/-- Two categories outside the ranges, one of which coerces to the other and to a category inside. -/
def shared : List PgfCCat :=
  [{ cnccat := none, prods := .seq [.COERCE 1, .COERCE 2], fid := 0 },
    { cnccat := none, prods := .seq [.COERCE 2], fid := 1 }, { cnccat := some 0, prods := .null, fid := 2 }]

theorem shared_layered : Layered shared := by
  have h₂ : Loopless shared 2 := Loopless.of_coerces rfl fun e he => absurd he (by simp [PgfProductions.elems])
  have h₁ : Loopless shared 1 := by
    refine Loopless.of_coerces rfl fun e he => ?_
    obtain rfl : e = 2 := by simpa [PgfProductions.elems] using he
    exact h₂
  have h₀ : Loopless shared 0 := by
    refine Loopless.of_coerces rfl fun e he => ?_
    obtain rfl | rfl : e = 1 ∨ e = 2 := by simpa [PgfProductions.elems] using he
    · exact h₁
    · exact h₂
  refine ⟨by unfold Linked; decide, fun c => ?_, fun c ccat hc hn => ?_⟩
  · rcases c with _ | _ | _ | c
    · exact h₀
    · exact h₁
    · exact h₂
    · refine Acc.intro _ fun d hd => ?_
      obtain ⟨_, hc, -⟩ := hd
      simp [shared] at hc
  · rcases c with _ | _ | _ | c
    · obtain rfl := Option.some.inj hc
      simp [PgfProductions.elems]
    · obtain rfl := Option.some.inj hc
      simp [PgfProductions.elems]
    · obtain rfl := Option.some.inj hc
      cases hn
    · simp [shared] at hc

theorem pgf_read_extra_ccats_spec_shared :
    ¬ Settles (fun fuel => pgf_read_extra_ccats fuel [1, 2, 0] { ccatMem := shared, newly_set := [] }) Exec.abort := by
  have horder : ∀ c, c ∈ [1, 2, 0] ↔ c < shared.length := by
    intro c
    simp only [shared, List.mem_cons, List.not_mem_nil, or_false, List.length_cons, List.length_nil]
    omega
  rw [(pgf_read_extra_ccats_spec shared_layered horder).1]
  have hzero : ∀ c k, Reaches shared c k → k = 0 := by
    intro c k h
    induction h with
    | @inside c k hk =>
      rcases c with _ | _ | _ | c
      · cases hk
      · cases hk
      · exact (Option.some.inj hk).symm
      · simp [cnccatOf, shared] at hk
    | through _ _ _ ih => exact ih
  rintro ⟨c, k, k', -, hk, hk', hne⟩
  exact hne ((hzero c k hk).trans (hzero c k' hk').symm)

end Libpgf
