import Libpgf.Gu.ChoiceLaws
/-!
# Backtracking

A run may fail. A program that goes back to an earlier choice when that happens
explores the search tree: from a position it makes the runs that are left, up
to the first that does not fail.
-/

namespace Libpgf

namespace GuChoice

variable {α β γ δ : Type}

/-! ## The first run that does not fail -/

/-- The first run with a value, or one that stops. -/
def first : List (List Nat × Exec (Option α)) → Option (List Nat × Exec α)
  | [] => none
  | (_, .ok none) :: rs => first rs
  | (p, .ok (some a)) :: _ => some (p, .ok a)
  | (p, .error e) :: _ => some (p, .error e)

theorem first_append (rs rs' : List (List Nat × Exec (Option α))) : first (rs ++ rs') = (first rs).or (first rs') := by
  fun_induction first rs with
  | case1 => rfl
  | case2 p rs ih => exact ih
  | case3 => rfl
  | case4 => rfl

theorem first_map (p : List Nat) (rs : List (List Nat × Exec (Option α))) :
    first (rs.map fun r => (p ++ r.1, r.2)) = (first rs).map fun r => (p ++ r.1, r.2) := by
  fun_induction first rs with
  | case1 => rfl
  | case2 q rs ih => exact ih
  | case3 => rfl
  | case4 => rfl

theorem first_none {rs : List (List Nat × Exec (Option α))} (h : first rs = none) : ∀ r ∈ rs, r.2 = .ok none := by
  fun_induction first rs with
  | case1 => simp
  | case2 p rs ih => exact List.forall_mem_cons.2 ⟨rfl, ih h⟩
  | case3 => cases h
  | case4 => cases h

theorem first_some {rs : List (List Nat × Exec (Option α))} {p : List Nat} {r : Exec α} (h : first rs = some (p, r)) :
    ∃ skip rest, rs = skip ++ (p, r.map some) :: rest ∧ ∀ r ∈ skip, r.2 = .ok none := by
  fun_induction first rs with
  | case1 => cases h
  | case2 q rs ih =>
    obtain ⟨skip, rest, rfl, hskip⟩ := ih h
    exact ⟨(q, .ok none) :: skip, rest, rfl, List.forall_mem_cons.2 ⟨rfl, hskip⟩⟩
  | case3 q a rs =>
    cases h
    exact ⟨[], rs, rfl, by simp⟩
  | case4 q e rs =>
    cases h
    exact ⟨[], rs, rfl, by simp⟩

theorem first_skip {skip : List (List Nat × Exec (Option α))} (h : ∀ r ∈ skip, r.2 = .ok none) : first skip = none := by
  induction skip with
  | nil => rfl
  | cons r skip ih =>
    obtain ⟨p, r⟩ := r
    obtain rfl : r = .ok none := h _ List.mem_cons_self
    exact ih fun r hr => h r (List.mem_cons_of_mem _ hr)

/-- First one tree, and another when that does not fail. -/
def andAlso (s : Search (Exec (Option α))) (f : α → Search (Exec (Option β))) : Search (Exec (Option β)) :=
  andThen s fun
    | none => .done (.ok none)
    | some a => f a

/-- What follows a run of the first tree. -/
def follow (f : α → Search (Exec (Option β))) : Exec (Option α) → Search (Exec (Option β))
  | .ok (some a) => f a
  | .ok none => .done (.ok none)
  | .error e => .done (.error e)

/-- Failed runs stay as they are. -/
theorem extend_skip (f : α → Search (Exec (Option β))) {skip : List (List Nat × Exec (Option α))} (h : ∀ r ∈ skip, r.2 = .ok none) :
    ∃ skip' : List (List Nat × Exec (Option β)), skip.flatMap (Search.extend (follow f)) = skip' ∧ skip'.length = skip.length ∧
      ∀ r ∈ skip', r.2 = .ok none := by
  induction skip with
  | nil => exact ⟨[], rfl, rfl, by simp⟩
  | cons r skip ih =>
    obtain ⟨p, r⟩ := r
    obtain rfl : r = .ok none := h _ List.mem_cons_self
    obtain ⟨skip', he, hlen, hskip⟩ := ih fun r hr => h r (List.mem_cons_of_mem _ hr)
    refine ⟨(p, .ok none) :: skip', ?_, by simp [hlen], List.forall_mem_cons.2 ⟨rfl, hskip⟩⟩
    rw [List.flatMap_cons, he]
    simp [Search.extend, follow, Search.runs]

theorem andAlso_eq (s : Search (Exec (Option α))) (f : α → Search (Exec (Option β))) : andAlso s f = s.bind (follow f) := by
  rw [andAlso, andThen]
  congr 1
  funext r
  rcases r with e | ⟨_ | a⟩ <;> rfl

theorem safe_andAlso {s : Search (Exec (Option α))} {f : α → Search (Exec (Option β))} :
    Safe (andAlso s f) ↔ Safe s ∧ ∀ a, .ok (some a) ∈ s.leaves → Safe (f a) := by
  rw [andAlso, safe_andThen]
  refine and_congr_right fun _ => ⟨fun h a ha => h (some a) ha, fun h r hr => ?_⟩
  cases r with
  | none => simp [Safe]
  | some a => exact h a hr

theorem ok_mem_andAlso {s : Search (Exec (Option α))} {f : α → Search (Exec (Option β))} {b : β} :
    .ok (some b) ∈ (andAlso s f).leaves ↔ ∃ a, .ok (some a) ∈ s.leaves ∧ .ok (some b) ∈ (f a).leaves := by
  rw [andAlso, ok_mem_andThen]
  constructor
  · rintro ⟨_ | a, ha, hb⟩
    · simp at hb
    · exact ⟨a, ha, hb⟩
  · rintro ⟨a, ha, hb⟩
    exact ⟨some a, ha, hb⟩

/-- A position is one in the first tree, or one in a tree that follows a run of it. -/
theorem after_andAlso {s : Search (Exec (Option α))} {f : α → Search (Exec (Option β))} {q : List Nat}
    {rs : List (List Nat × Exec (Option β))} (h : (andAlso s f).After q rs) :
    (∃ rs', s.After q rs' ∧ rs = rs'.flatMap (Search.extend (follow f))) ∨
    ∃ p a rest q' rs', q = p ++ q' ∧ s.After p ((p, .ok (some a)) :: rest) ∧ (f a).After q' rs' ∧
      rs = (rs'.map fun x => (p ++ x.1, x.2)) ++ rest.flatMap (Search.extend (follow f)) := by
  rw [andAlso_eq] at h
  rcases h.of_bind with h | ⟨p, r, rest, q', rs', rfl, hp, hq', rfl⟩
  · exact .inl h
  · rcases r with e | ⟨_ | a⟩
    · cases hq'
      rw [List.append_nil]
      exact .inl ⟨_, hp, rfl⟩
    · cases hq'
      rw [List.append_nil]
      exact .inl ⟨_, hp, rfl⟩
    · exact .inr ⟨p, a, rest, q', rs', rfl, hp, hq', rfl⟩

theorem mem_runs_andAlso {s : Search (Exec (Option α))} {f : α → Search (Exec (Option β))} {p : List Nat} {b : β}
    (h : (p, .ok (some b)) ∈ (andAlso s f).runs) :
    ∃ p₁ p₂ a, p = p₁ ++ p₂ ∧ (p₁, .ok (some a)) ∈ s.runs ∧ (p₂, .ok (some b)) ∈ (f a).runs := by
  rw [andAlso_eq, Search.runs_bind] at h
  obtain ⟨⟨p₁, r⟩, hr, h⟩ := List.mem_flatMap.1 h
  obtain ⟨⟨p₂, r'⟩, hr', he⟩ := List.mem_map.1 h
  cases he
  rcases r with e | ⟨_ | a⟩
  · simp [follow, Search.runs] at hr'
  · simp [follow, Search.runs] at hr'
  · exact ⟨p₁, p₂, a, rfl, hr, hr'⟩

/-! ## Programs that explore a tree -/

/-- How a search ends: nothing is left behind the place where it began, or the
choices of the run found. -/
def Found (g : α → β) (pre : List Nat) : Option (List Nat × Exec α) → Exec (Option β × GuChoice) → Prop
  | none, r => ∃ ch, r = .ok (none, ch) ∧ ch.At pre []
  | some (p, .ok a), r => ∃ ch, r = .ok (some (g a), ch) ∧ ch.At (pre ++ p) []
  | some (_, .error e), r => r = .error e

structure Explores (g : α → β) (s : Search (Exec (Option α))) (f : GuChoice → Exec (Option β × GuChoice)) : Prop where
  find : ∀ {pre q : List Nat} {rs : List (List Nat × Exec (Option α))} {ch : GuChoice}, ch.At pre q → s.After q rs →
    Found g pre (first rs) (f ch)
  /-- A run that has been found is made again. -/
  replay : ∀ {pre p x : List Nat} {a : α} {ch : GuChoice}, (p, .ok (some a)) ∈ s.runs → ch.At pre (p ++ x) →
    ∃ ch', f ch = .ok (some (g a), ch') ∧ ch'.At (pre ++ p) x

theorem explores_fail {g : α → β} {f : GuChoice → Exec (Option β × GuChoice)} (hf : ∀ ch, f ch = .ok (none, ch)) :
    Explores g (.done (.ok none)) f where
  find hch hq := by
    cases hq
    exact ⟨_, hf _, hch⟩
  replay hp := by simp [Search.runs] at hp

theorem explores_done {g : α → β} {a : α} {f : GuChoice → Exec (Option β × GuChoice)} (hf : ∀ ch, f ch = .ok (some (g a), ch)) :
    Explores g (.done (.ok (some a))) f where
  find {pre _ _ _} hch hq := by
    cases hq
    exact ⟨_, hf _, (List.append_nil pre).symm ▸ hch⟩
  replay {pre _ _ _ _} hp hch := by
    simp only [Search.runs, List.mem_singleton, Prod.mk.injEq, Except.ok.injEq, Option.some.injEq] at hp
    obtain ⟨rfl, rfl⟩ := hp
    exact ⟨_, hf _, (List.append_nil pre).symm ▸ hch⟩

/-- Running a tree along one of its runs. -/
theorem run_replay {s : Search (Exec α)} (hs : s.Small 255) {pre p x : List Nat} {r : Exec α} {ch : GuChoice} (hp : (p, r) ∈ s.runs)
    (hch : ch.At pre (p ++ x)) : ∃ ch', run s ch = r.map (fun a => (a, ch')) ∧ ch'.At (pre ++ p) x := by
  induction s generalizing pre p ch with
  | done r' =>
    simp only [Search.runs, List.mem_singleton, Prod.mk.injEq] at hp
    obtain ⟨rfl, rfl⟩ := hp
    exact ⟨ch, rfl, (List.append_nil pre).symm ▸ hch⟩
  | choose n next ih =>
    simp only [Search.runs, List.mem_flatMap, List.mem_finRange, List.mem_map, true_and, Prod.mk.injEq] at hp
    obtain ⟨i, ⟨p', r'⟩, hp', rfl, rfl⟩ := hp
    have hi : (i : Nat) < n + 1 := i.2
    obtain ⟨ch₁, hnext, hat⟩ := hch.next_replay hs.1 (by omega) (Nat.sub_le _ _)
    rw [Nat.sub_sub_self (Nat.le_of_lt hi)] at hnext
    obtain ⟨ch', hrun, hat'⟩ := ih i (hs.2 i) hp' hat
    refine ⟨ch', ?_, by simpa using hat'⟩
    simp only [run, hnext, Exec.ok_bind, dif_pos hi]
    exact hrun

/-- First one program, and then another if it does not fail; `k` makes the result. -/
def thenRun {ζ : Type} (f : GuChoice → Exec (Option β × GuChoice)) (v : β → GuChoice → Exec (δ × GuChoice)) (k : β → δ → ζ)
    (ch : GuChoice) : Exec (Option ζ × GuChoice) :=
  f ch >>= fun r =>
    match r.1 with
    | none => .ok (none, r.2)
    | some b => v b r.2 >>= fun c => .ok (some (k b c.1), c.2)

/-- A run that always has a value needs no backtracking. -/
theorem Explores.then_run {g : α → β} {s : Search (Exec (Option α))} {f : GuChoice → Exec (Option β × GuChoice)}
    (hf : Explores g s f) {ε ζ : Type} {u : α → Search (Exec γ)} {v : β → GuChoice → Exec (δ × GuChoice)} {k : α → γ → ε}
    {k' : β → δ → ζ} {g' : ε → ζ} {gc : γ → δ} (hsmall : ∀ a, (u a).Small 255)
    (hv : ∀ a ch, v (g a) ch = run (u a) ch >>= fun r => .ok (gc r.1, r.2)) (hk : ∀ a c, k' (g a) (gc c) = g' (k a c)) :
    Explores g' (andAlso s fun a => andThen (u a) fun c => .done (.ok (some (k a c)))) (thenRun f v k') where
  find {pre q rs ch} hch hq := by
    have hrun : ∀ {p a q' rs'} {ch₁ : GuChoice} (rest : List (List Nat × Exec (Option ε))), f ch = .ok (some (g a), ch₁) →
        ch₁.At (pre ++ p) q' → (andThen (u a) fun c => Search.done (.ok (some (k a c)))).After q' rs' →
        Found g' pre (first ((rs'.map fun x => (p ++ x.1, x.2)) ++ rest)) (thenRun f v k' ch) := by
      intro p a q' rs' ch₁ rest hfch hat hq'
      obtain ⟨p', r, rest', ch₂, rfl, hat', hr⟩ := run_after hq' (andThen_small (hsmall a) fun _ => trivial) hat
      rw [run_andThen] at hr
      simp only [thenRun, hfch, Exec.ok_bind, hv, bind_assoc, hk]
      cases hu : run (u a) ch₁ with
      | error e =>
        rw [hu] at hr
        rcases r with e' | o
        · simp only [Exec.error_bind, Except.map, Except.error.injEq] at hr
          simp [first, Found, hr]
        · simp [Except.map] at hr
      | ok c =>
        obtain ⟨c, ch₃⟩ := c
        rw [hu] at hr
        rcases r with e' | o
        · simp [run, Except.map] at hr
        · simp only [Exec.ok_bind, run, Except.map, Except.ok.injEq, Prod.mk.injEq] at hr
          obtain ⟨rfl, rfl⟩ := hr
          exact ⟨_, rfl, List.append_assoc pre p p' ▸ hat'⟩
    rcases after_andAlso hq with ⟨rs', hq', rfl⟩ | ⟨p, a, rest, q', rs', rfl, hp, hq', rfl⟩
    · have hfind := hf.find hch hq'
      clear hq hq'
      fun_induction first rs' with
      | case1 =>
        obtain ⟨ch₁, hf₁, hat⟩ := hfind
        simp only [thenRun, hf₁]
        exact ⟨ch₁, rfl, hat⟩
      | case2 p rs' ih => exact ih hfind
      | case3 p a rs' =>
        obtain ⟨ch₁, hf₁, hat⟩ := hfind
        exact hrun _ hf₁ hat .start
      | case4 p e rs' =>
        simp only [thenRun, show f ch = .error e from hfind]
        rfl
    · obtain ⟨ch₁, hf₁, hat⟩ := hf.replay (hp.suffix.mem List.mem_cons_self) hch
      exact hrun _ hf₁ hat hq'
  replay {pre p x a ch} hp hch := by
    obtain ⟨p₁, p₂, a, rfl, hp₁, hp₂⟩ := mem_runs_andAlso hp
    rw [List.append_assoc] at hch
    obtain ⟨ch₁, hf₁, hat⟩ := hf.replay hp₁ hch
    have hs : (andThen (u a) fun c => Search.done (.ok (some (k a c)))).Small 255 := andThen_small (hsmall a) fun _ => trivial
    obtain ⟨ch₂, hr, hat'⟩ := run_replay hs hp₂ hat
    rw [run_andThen] at hr
    simp only [thenRun, hf₁, Exec.ok_bind, hv, bind_assoc, hk]
    cases hu : run (u a) ch₁ with
    | error e =>
      rw [hu] at hr
      simp [Except.map] at hr
    | ok c =>
      obtain ⟨c, ch₃⟩ := c
      rw [hu] at hr
      simp only [Exec.ok_bind, run, Except.map, Except.ok.injEq, Prod.mk.injEq, Option.some.injEq] at hr
      obtain ⟨rfl, rfl⟩ := hr
      exact ⟨_, rfl, List.append_assoc pre p₁ p₂ ▸ hat'⟩

end GuChoice

/-! ## The values of runs -/

section Values
variable {α : Type}

/-- Runs that all end, the last of them with a value. -/
def Uncut (rs : List (List Nat × Exec (Option α))) : Prop :=
  (∀ r ∈ rs, ∃ o, r.2 = .ok o) ∧ ∀ r ∈ rs.getLast?, ∃ a, r.2 = .ok (some a)

/-- The values found. -/
def found (rs : List (List Nat × Exec (Option α))) : List α :=
  rs.filterMap fun
    | (_, .ok o) => o
    | (_, .error _) => none

theorem found_append (rs rs' : List (List Nat × Exec (Option α))) : found (rs ++ rs') = found rs ++ found rs' :=
  List.filterMap_append

theorem found_skip {skip : List (List Nat × Exec (Option α))} (h : ∀ r ∈ skip, r.2 = .ok none) : found skip = [] := by
  refine List.filterMap_eq_nil_iff.2 fun r hr => ?_
  obtain ⟨p, o⟩ := r
  simp [show o = .ok none from h _ hr]

theorem Uncut.split {rs : List (List Nat × Exec (Option α))} (hrs : Uncut rs) (hne : rs ≠ []) :
    ∃ skip p a rest, rs = skip ++ (p, .ok (some a)) :: rest ∧ (∀ r ∈ skip, r.2 = .ok none) ∧ Uncut rest := by
  induction rs with
  | nil => exact absurd rfl hne
  | cons r rs ih =>
    have hrest : rs ≠ [] → Uncut rs := fun hrs' => by
      refine ⟨fun r hr => hrs.1 r (List.mem_cons_of_mem _ hr), fun r hr => hrs.2 r ?_⟩
      rwa [List.getLast?_cons_of_ne_nil hrs']
    obtain ⟨p, o⟩ := r
    obtain ⟨o, rfl⟩ : ∃ o', o = .ok o' := hrs.1 _ List.mem_cons_self
    cases o with
    | some a =>
      refine ⟨[], p, a, rs, rfl, by simp, ?_⟩
      by_cases hrs' : rs = []
      · subst hrs'
        exact ⟨by simp, by simp⟩
      · exact hrest hrs'
    | none =>
      have hrs' : rs ≠ [] := by
        rintro rfl
        obtain ⟨a, ha⟩ := hrs.2 _ rfl
        simp at ha
      obtain ⟨skip, p', kd, rest, rfl, hskip, hun⟩ := ih (hrest hrs') hrs'
      refine ⟨(p, .ok none) :: skip, p', kd, rest, rfl, fun r hr => ?_, hun⟩
      rcases List.mem_cons.1 hr with rfl | hr
      · rfl
      · exact hskip r hr

theorem Uncut.join {skip rest : List (List Nat × Exec (Option α))} {p : List Nat} {a : α}
    (hskip : ∀ r ∈ skip, r.2 = .ok none) (hrest : Uncut rest) : Uncut (skip ++ (p, .ok (some a)) :: rest) := by
  refine ⟨fun r hr => ?_, fun r hr => ?_⟩
  · rcases List.mem_append.1 hr with hr | hr
    · exact ⟨none, hskip r hr⟩
    · rcases List.mem_cons.1 hr with rfl | hr
      · exact ⟨some a, rfl⟩
      · exact hrest.1 r hr
  · rw [List.getLast?_append_of_ne_nil _ (by simp)] at hr
    by_cases hnil : rest = []
    · subst hnil
      simp only [List.getLast?_singleton, Option.mem_def, Option.some.injEq] at hr
      exact ⟨a, hr ▸ rfl⟩
    · rw [List.getLast?_cons_of_ne_nil hnil] at hr
      exact hrest.2 r hr

theorem found_yielded (s : Search (Exec (Option α))) : found s.runs = GuChoice.yielded id s := by
  rw [GuChoice.yielded, Search.leaves, List.filterMap_map, found]
  congr 1
  funext r
  obtain ⟨p, o⟩ := r
  cases o <;> rfl

end Values

end Libpgf
