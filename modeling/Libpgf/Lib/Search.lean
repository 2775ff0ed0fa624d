import Libpgf.Lib.Exec
/-!
# Search trees

A program that makes choices, each among finitely many alternatives that may
depend on what was chosen before, is a tree. Its runs are the paths from the
root to the leaves. A path names at every choice how many alternatives are
left, the one taken included, so the runs come in the order of decreasing
labels.
-/

namespace Libpgf

/-- A choice has `n + 1` alternatives. -/
inductive Search (α : Type) where
  | done (a : α)
  | choose (n : Nat) (next : Fin (n + 1) → Search α)

namespace Search
variable {α β γ : Type}

def bind : Search α → (α → Search β) → Search β
  | done a, f => f a
  | choose n next, f => choose n fun i => (next i).bind f

def map (f : α → β) : Search α → Search β
  | done a => done (f a)
  | choose n next => choose n fun i => (next i).map f

/-- The runs in order: the path of each, and its result. -/
def runs : Search α → List (List Nat × α)
  | done a => [([], a)]
  | choose n next => (List.finRange (n + 1)).flatMap fun i => (next i).runs.map fun r => ((n + 1 - i) :: r.1, r.2)

/-- The results in order. -/
def leaves (s : Search α) : List α := s.runs.map Prod.snd

/-- Every result of the tree has the property. -/
def All (p : α → Prop) : Search α → Prop
  | done a => p a
  | choose _ next => ∀ i, (next i).All p

/-- Every choice has at most `b` alternatives. -/
def Small (b : Nat) : Search α → Prop
  | done _ => True
  | choose n next => n + 1 ≤ b ∧ ∀ i, (next i).Small b

/-! ## Results -/

@[simp] theorem leaves_done (a : α) : (done a).leaves = [a] := rfl

theorem leaves_choose (n : Nat) (next : Fin (n + 1) → Search α) :
    (choose n next).leaves = (List.finRange (n + 1)).flatMap fun i => (next i).leaves := by
  simp only [leaves, runs, List.map_flatMap, List.map_map]
  rfl

theorem leaves_bind (f : α → Search β) (s : Search α) : (s.bind f).leaves = s.leaves.flatMap fun a => (f a).leaves := by
  induction s with
  | done a => simp [bind]
  | choose n next ih => simp only [bind, leaves_choose, List.flatMap_assoc, ih]

/-! ## Positions -/

/-- The runs that take alternative `k` or a later one at the first choice. -/
def later {n : Nat} (next : Fin (n + 1) → Search α) (k : Nat) : List (List Nat × α) :=
  ((List.finRange (n + 1)).drop k).flatMap fun i => (next i).runs.map fun r => ((n + 1 - i) :: r.1, r.2)

theorem later_eq {n : Nat} (next : Fin (n + 1) → Search α) (i : Fin (n + 1)) :
    later next i = ((next i).runs.map fun r => ((n + 1 - (i : Nat)) :: r.1, r.2)) ++ later next (i + 1) := by
  have hlt : (i : Nat) < (List.finRange (n + 1)).length := by
    rw [List.length_finRange]
    exact i.2
  rw [later, List.drop_eq_getElem_cons hlt, List.flatMap_cons, List.getElem_finRange]
  rfl

theorem later_end {n : Nat} (next : Fin (n + 1) → Search α) : later next (n + 1) = [] := by
  rw [later, List.drop_eq_nil_of_le (by simp)]
  rfl

theorem mem_later {n : Nat} {next : Fin (n + 1) → Search α} {k : Nat} {a : α} :
    a ∈ (later next k).map Prod.snd ↔ ∃ i : Fin (n + 1), k ≤ i ∧ a ∈ (next i).leaves := by
  have hdrop : ∀ i : Fin (n + 1), i ∈ (List.finRange (n + 1)).drop k ↔ k ≤ i := by
    intro i
    rw [List.mem_drop_iff_getElem]
    constructor
    · rintro ⟨j, hj, rfl⟩
      simp
    · intro h
      exact ⟨i - k, by simp only [List.length_finRange]; omega, by ext; simp; omega⟩
  simp only [later, List.map_flatMap, List.mem_flatMap, hdrop, List.map_map]
  rfl

/-- The runs from the first one whose path begins with `q`. -/
inductive After : Search α → List Nat → List (List Nat × α) → Prop
  | start {s} : After s [] s.runs
  | branch {n next} (i : Fin (n + 1)) {q rs} : After (next i) q rs →
      After (choose n next) ((n + 1 - i) :: q) ((rs.map fun r => ((n + 1 - (i : Nat)) :: r.1, r.2)) ++ later next (i + 1))

theorem runs_choose (n : Nat) (next : Fin (n + 1) → Search α) :
    (choose n next).runs = ((next 0).runs.map fun r => ((n + 1) :: r.1, r.2)) ++ later next 1 := by
  have := later_eq next 0
  simpa [later, runs] using this

/-- What is left is the end of all the runs. -/
theorem After.suffix {s : Search α} {q : List Nat} {rs : List (List Nat × α)} (h : s.After q rs) : rs <:+ s.runs := by
  induction h with
  | start => exact List.suffix_refl _
  | @branch n next i q rs _ ih =>
    obtain ⟨front, hfront⟩ := ih
    refine ⟨((List.finRange (n + 1)).take i).flatMap (fun i => (next i).runs.map fun r => ((n + 1 - i) :: r.1, r.2)) ++
      front.map fun r => ((n + 1 - (i : Nat)) :: r.1, r.2), ?_⟩
    rw [List.append_assoc, ← List.append_assoc (front.map _), ← List.map_append, hfront, ← later_eq, later,
      ← List.flatMap_append, List.take_append_drop]
    rfl

/-! ## Runs of one tree after another -/

/-- The runs of `s.bind f` that begin with a run of `s`. -/
def extend (f : α → Search β) (r : List Nat × α) : List (List Nat × β) := (f r.2).runs.map fun x => (r.1 ++ x.1, x.2)

theorem extend_cons (f : α → Search β) (b : Nat) (p : List Nat) (a : α) :
    extend f (b :: p, a) = (extend f (p, a)).map fun x => (b :: x.1, x.2) := by
  simp only [extend, List.map_map]
  rfl

theorem flatMap_extend_cons (f : α → Search β) (b : Nat) (rs : List (List Nat × α)) :
    (rs.map fun r => (b :: r.1, r.2)).flatMap (extend f) = (rs.flatMap (extend f)).map fun x => (b :: x.1, x.2) := by
  rw [List.flatMap_map, List.map_flatMap]
  exact List.flatMap_congr fun r _ => extend_cons f b r.1 r.2

theorem runs_bind (s : Search α) (f : α → Search β) : (s.bind f).runs = s.runs.flatMap (extend f) := by
  induction s with
  | done a => simp [bind, runs, extend]
  | choose n next ih =>
    simp only [bind, runs, List.flatMap_assoc]
    refine List.flatMap_congr fun i _ => ?_
    rw [ih, flatMap_extend_cons]

theorem later_bind {n : Nat} (next : Fin (n + 1) → Search α) (f : α → Search β) (k : Nat) :
    later (fun i => (next i).bind f) k = (later next k).flatMap (extend f) := by
  simp only [later, List.flatMap_assoc]
  refine List.flatMap_congr fun i _ => ?_
  rw [runs_bind, flatMap_extend_cons]

/-- A position in `s.bind f` is one in `s`, or one in a tree that follows a run of `s`. -/
theorem After.of_bind {s : Search α} {f : α → Search β} {q : List Nat} {rs : List (List Nat × β)} (h : (s.bind f).After q rs) :
    (∃ rs', s.After q rs' ∧ rs = rs'.flatMap (extend f)) ∨
    ∃ p a rest q' rs', q = p ++ q' ∧ s.After p ((p, a) :: rest) ∧ (f a).After q' rs' ∧
      rs = (rs'.map fun x => (p ++ x.1, x.2)) ++ rest.flatMap (extend f) := by
  induction s generalizing q rs with
  | done a => exact .inr ⟨[], a, [], q, rs, rfl, .start, h, by simp⟩
  | choose n next ih =>
    rw [bind] at h
    generalize hs : (choose n fun i => (next i).bind f) = s' at h
    cases h with
    | start =>
      refine .inl ⟨_, .start, ?_⟩
      rw [← hs, ← runs_bind]
      rfl
    | @branch n' next' i q rs h =>
      cases hs
      rcases ih i h with ⟨rs', hq, rfl⟩ | ⟨p, a, rest, q', rs', rfl, hp, hq', rfl⟩
      · refine .inl ⟨_, .branch i hq, ?_⟩
        rw [later_bind, List.flatMap_append, flatMap_extend_cons]
      · refine .inr ⟨(n + 1 - (i : Nat)) :: p, a, (rest.map fun r => ((n + 1 - (i : Nat)) :: r.1, r.2)) ++ later next (i + 1),
          q', rs', rfl, .branch i hp, hq', ?_⟩
        rw [later_bind, List.flatMap_append, flatMap_extend_cons, List.map_append, List.map_map, List.append_assoc]
        rfl

end Search

end Libpgf
