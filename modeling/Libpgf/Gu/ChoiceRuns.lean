import Libpgf.Gu.ChoiceLaws
import Libpgf.Lib.Settles
/-!
# Running a program with all its choices

The loop that goes through the alternatives of a program: mark the choice, run
the program, go back to the mark and advance, until there is nothing to advance
to.
-/

namespace Libpgf

/-- A program that makes choices: it returns, or calls `gu_choice_next` and goes on with the answer. -/
inductive Chooser (α : Type) where
  | ret (a : α)
  | next (n_choices : Nat) (k : Option Nat → Chooser α)

/-- The answers that there are. -/
def answers (n_choices : Nat) : List (Option Nat) :=
  if n_choices = 0 then [none] else (List.range n_choices).map some

/-- One round of the loop. -/
structure Round (α : Type) where
  result : α
  /-- The choice after the run. -/
  after : GuChoice
  /-- What `gu_choice_advance` returns. -/
  more : Bool
  next : GuChoice

/-- The rounds of the loop from the first to the last. -/
def driverFrom {α : Type} (run : GuChoice → Exec (α × GuChoice)) (mark : GuChoiceMark) : Nat → GuChoice → Exec (List (Round α))
  | 0, _ => .error .fuel
  | fuel + 1, ch => do
    let r ← run ch
    let ch ← r.2.gu_choice_reset mark
    let adv ← ch.gu_choice_advance
    let rest ← if adv.1 then driverFrom run mark fuel adv.2 else .ok []
    return ⟨r.1, r.2, adv.1, adv.2⟩ :: rest

/-- `mark = gu_choice_mark(ch); do { run; gu_choice_reset(ch, mark); } while (gu_choice_advance(ch))` -/
def driver {α : Type} (run : GuChoice → Exec (α × GuChoice)) (fuel : Nat) (ch : GuChoice) : Exec (List (Round α)) := do
  let mark ← ch.gu_choice_mark
  driverFrom run mark fuel ch

namespace Chooser
variable {α : Type}

/-- The answers that the program gets, and what it returns. -/
def run : Chooser α → GuChoice → Exec ((List (Option Nat) × α) × GuChoice)
  | ret a, ch => .ok (([], a), ch)
  | next n k, ch => do
    let r ← ch.gu_choice_next n
    let s ← run (k r.1) r.2
    return ((r.1 :: s.1.1, s.1.2), s.2)

/-- No choice has more alternatives than a byte can count. -/
def Small : Chooser α → Prop
  | ret _ => True
  | next n k => n ≤ 255 ∧ ∀ i ∈ answers n, (k i).Small

/-- With these answers the program returns `a`: a leaf of its tree. -/
inductive Runs : Chooser α → List (Option Nat) → α → Prop
  | ret (a : α) : Runs (ret a) [] a
  | next {n : Nat} {k : Option Nat → Chooser α} {i : Option Nat} {is : List (Option Nat)} {a : α} :
    i ∈ answers n → Runs (k i) is a → Runs (next n k) (i :: is) a

/-- The answers lead to a node of the tree. -/
inductive Begins : Chooser α → List (Option Nat) → Prop
  | nil (p : Chooser α) : Begins p []
  | cons {n : Nat} {k : Option Nat → Chooser α} {i : Option Nat} {is : List (Option Nat)} :
    i ∈ answers n → Begins (k i) is → Begins (next n k) (i :: is)

/-- The bytes on the path to a node. -/
def labels : Chooser α → List (Option Nat) → List Nat
  | ret _, _ => []
  | next _ _, [] => []
  | next _ k, none :: is => (k none).labels is
  | next n k, some i :: is => (n - i) :: (k (some i)).labels is

/-- The search tree of the program, after the answers `done`. -/
def tree : Chooser α → List (Option Nat) → Search (Exec (List (Option Nat) × α))
  | ret a, done => .done (.ok (done, a))
  | next n k, done =>
    match n with
    | 0 => (k none).tree (done ++ [none])
    | n + 1 => .choose n fun i => (k (some i)).tree (done ++ [some (i : Nat)])

end Chooser

/-- An answer is one of those that there are. -/
theorem GuChoice.next_mem {n : Nat} {ch : GuChoice} {r : Option Nat × GuChoice} (h : ch.gu_choice_next n = .ok r) :
    r.1 ∈ answers n := by
  have hmem : .ok r.1 ∈ (choice n).leaves := run_mem_leaves ((run_choice n ch).trans h)
  rw [leaves_choice] at hmem
  unfold answers
  by_cases h0 : n = 0
  · simpa [h0] using hmem
  · rw [if_neg h0] at hmem ⊢
    split at hmem
    · obtain ⟨i, hi, he⟩ := List.mem_map.1 hmem
      simp only [Except.ok.injEq] at he
      exact List.mem_map.2 ⟨i, hi, he⟩
    · simp [Exec.abort] at hmem

namespace Chooser
variable {α : Type}

/-! ## The tree of a program -/

theorem mem_answers_succ {n : Nat} {i : Option Nat} : i ∈ answers (n + 1) ↔ ∃ j < n + 1, i = some j := by
  simp only [answers, Nat.succ_ne_zero, if_false, List.mem_map, List.mem_range]
  constructor
  · rintro ⟨j, hj, rfl⟩
    exact ⟨j, hj, rfl⟩
  · rintro ⟨j, hj, rfl⟩
    exact ⟨j, hj, rfl⟩

theorem tree_small {p : Chooser α} (h : p.Small) (done : List (Option Nat)) : (p.tree done).Small 255 := by
  induction p generalizing done with
  | ret a => trivial
  | next n k ih =>
    cases n with
    | zero => exact ih none (h.2 none (List.mem_singleton_self _)) _
    | succ n => exact ⟨h.1, fun i => ih (some i) (h.2 _ (mem_answers_succ.2 ⟨i, i.2, rfl⟩)) _⟩

/-- The program runs its tree. -/
theorem run_tree {p : Chooser α} (h : p.Small) (done : List (Option Nat)) (ch : GuChoice) :
    GuChoice.run (p.tree done) ch = (p.run ch).map fun r => ((done ++ r.1.1, r.1.2), r.2) := by
  have hmap : ∀ (done : List (Option Nat)) (i : Option Nat) (x : Exec ((List (Option Nat) × α) × GuChoice)),
      (x.map fun r => (((done ++ [i]) ++ r.1.1, r.1.2), r.2)) =
        (x >>= fun s => .ok ((i :: s.1.1, s.1.2), s.2)).map fun r => ((done ++ r.1.1, r.1.2), r.2) := by
    intro done i x
    cases x with
    | error e => rfl
    | ok s => simp [Except.map]
  induction p generalizing done ch with
  | ret a => simp [tree, GuChoice.run, run, Except.map]
  | next n k ih =>
    cases n with
    | zero =>
      have hnext : ch.gu_choice_next 0 = .ok (none, ch) := (GuChoice.run_choice 0 ch).symm
      rw [run, hnext]
      exact (ih none (h.2 none (List.mem_singleton_self _)) _ ch).trans (hmap done none _)
    | succ n =>
      simp only [tree, GuChoice.run, run]
      cases hnext : ch.gu_choice_next (n + 1) with
      | error e => rfl
      | ok r =>
        obtain ⟨i, hi, hr⟩ := mem_answers_succ.1 (GuChoice.next_mem hnext)
        simp only [Exec.ok_bind, hr, dif_pos hi]
        exact (ih (some i) (h.2 _ (mem_answers_succ.2 ⟨i, hi, rfl⟩)) _ r.2).trans (hmap done (some i) _)

/-- The leaves of the tree are what the program returns with each sequence of answers. -/
theorem mem_leaves_tree {p : Chooser α} {done : List (Option Nat)} {x : Exec (List (Option Nat) × α)} :
    x ∈ (p.tree done).leaves ↔ ∃ is a, x = .ok (done ++ is, a) ∧ p.Runs is a := by
  induction p generalizing done x with
  | ret a =>
    simp only [tree, Search.leaves_done, List.mem_singleton]
    constructor
    · rintro rfl
      exact ⟨[], a, by rw [List.append_nil], .ret a⟩
    · rintro ⟨is, a', rfl, hr⟩
      cases hr
      rw [List.append_nil]
  | next n k ih =>
    have hsub : ∀ i, i ∈ answers n → ((∃ is a, x = .ok ((done ++ [i]) ++ is, a) ∧ (k i).Runs is a) ↔
        ∃ is a, x = .ok (done ++ i :: is, a) ∧ (next n k).Runs (i :: is) a) := by
      intro i hi
      simp only [List.append_assoc, List.singleton_append]
      constructor
      · rintro ⟨is, a, hx, hr⟩
        exact ⟨is, a, hx, .next hi hr⟩
      · rintro ⟨is, a, hx, hr⟩
        cases hr with
        | next _ hr => exact ⟨is, a, hx, hr⟩
    have hall : (∃ i ∈ answers n, x ∈ ((k i).tree (done ++ [i])).leaves) ↔
        ∃ is a, x = .ok (done ++ is, a) ∧ (next n k).Runs is a := by
      constructor
      · rintro ⟨i, hi, hx⟩
        obtain ⟨is, a, hx, hr⟩ := (hsub i hi).1 (ih i |>.1 hx)
        exact ⟨i :: is, a, hx, hr⟩
      · rintro ⟨is, a, hx, hr⟩
        cases hr with
        | @next _ _ i is _ hi hr => exact ⟨i, hi, (ih i).2 ((hsub i hi).2 ⟨is, a, hx, .next hi hr⟩)⟩
    rw [← hall]
    cases n with
    | zero => simp [tree, answers]
    | succ n =>
      simp only [tree, Search.leaves_choose, List.mem_flatMap, List.mem_finRange, true_and, mem_answers_succ]
      constructor
      · rintro ⟨i, hx⟩
        exact ⟨some i, ⟨i, i.2, rfl⟩, hx⟩
      · rintro ⟨_, ⟨i, hi, rfl⟩, hx⟩
        exact ⟨⟨i, hi⟩, hx⟩

/-- One leaf comes before another: its answers do. -/
def Before (done : List (Option Nat)) (x y : Exec (List (Option Nat) × α)) : Prop :=
  ∃ is a js b, x = .ok (done ++ is, a) ∧ y = .ok (done ++ js, b) ∧ is < js

theorem before_next {done : List (Option Nat)} {i : Option Nat} {x y : Exec (List (Option Nat) × α)}
    (h : Before (done ++ [i]) x y) : Before done x y := by
  obtain ⟨is, a, js, b, rfl, rfl, hlt⟩ := h
  refine ⟨i :: is, a, i :: js, b, by simp, by simp, ?_⟩
  exact List.cons_lt_cons_iff.2 (.inr ⟨rfl, hlt⟩)

/-- The leaves come in the order of their answers. -/
theorem leaves_pairwise (p : Chooser α) (done : List (Option Nat)) : (p.tree done).leaves.Pairwise (Before done) := by
  induction p generalizing done with
  | ret a => exact List.pairwise_singleton _ _
  | next n k ih =>
    cases n with
    | zero => exact (ih none (done ++ [none])).imp before_next
    | succ n =>
      rw [tree, Search.leaves_choose, List.pairwise_flatMap]
      refine ⟨fun i _ => (ih (some i) _).imp before_next, ?_⟩
      refine (List.pairwise_lt_finRange (n + 1)).imp fun {i j} hij x hx y hy => ?_
      obtain ⟨is, a, rfl, -⟩ := mem_leaves_tree.1 hx
      obtain ⟨js, b, rfl, -⟩ := mem_leaves_tree.1 hy
      refine ⟨some i :: is, a, some j :: js, b, by simp, by simp, ?_⟩
      exact List.cons_lt_cons_iff.2 (.inl (Option.some_lt_some.2 hij))

/-- From the path to a node there are the leaves left that do not come before it. -/
theorem after_labels {p : Chooser α} {is : List (Option Nat)} (h : p.Begins is) (done : List (Option Nat)) :
    ∃ rs, (p.tree done).After (p.labels is) rs ∧
      ∀ x, x ∈ rs.map Prod.snd ↔ ∃ js a, x = .ok (done ++ js, a) ∧ p.Runs js a ∧ ¬ js < is := by
  induction h generalizing done with
  | nil p =>
    refine ⟨(p.tree done).runs, ?_, fun x => ?_⟩
    · cases p <;> exact .start
    · have hleaves : x ∈ (p.tree done).leaves ↔ _ := mem_leaves_tree
      simpa [Search.leaves] using hleaves
  | @cons n k i is hi hb ih =>
    obtain ⟨rs, hrs, hmem⟩ := ih (done ++ [i])
    cases n with
    | zero =>
      obtain rfl : i = none := List.mem_singleton.1 hi
      refine ⟨rs, hrs, fun x => (hmem x).trans ?_⟩
      constructor
      · rintro ⟨js, a, rfl, hr, hlt⟩
        refine ⟨none :: js, a, by simp, .next (List.mem_singleton_self _) hr, ?_⟩
        simpa [List.cons_lt_cons_iff] using hlt
      · rintro ⟨_, a, rfl, hr, hlt⟩
        cases hr with
        | @next _ _ j js _ hj hr =>
          obtain rfl : j = none := List.mem_singleton.1 hj
          exact ⟨js, a, by simp, hr, fun h => hlt (List.cons_lt_cons_iff.2 (.inr ⟨rfl, h⟩))⟩
    | succ n =>
      obtain ⟨i, hlt, rfl⟩ := mem_answers_succ.1 hi
      have hbranch : (tree (next (n + 1) k) done).After (labels (next (n + 1) k) (some i :: is)) _ :=
        @Search.After.branch _ _ (fun i : Fin (n + 1) => (k (some (i : Nat))).tree (done ++ [some (i : Nat)])) ⟨i, hlt⟩ _ _ hrs
      refine ⟨_, hbranch, fun x => ?_⟩
      have hmap : (rs.map fun r => ((n + 1 - i) :: r.1, r.2)).map Prod.snd = rs.map Prod.snd := by
        rw [List.map_map]
        rfl
      rw [List.map_append, List.mem_append, Search.mem_later, hmap, hmem]
      constructor
      · rintro (⟨js, a, rfl, hr, hle⟩ | ⟨j, hj, hx⟩)
        · refine ⟨some i :: js, a, by simp, .next hi hr, ?_⟩
          simpa [List.cons_lt_cons_iff] using hle
        · obtain ⟨js, a, rfl, hr⟩ := mem_leaves_tree.1 hx
          refine ⟨some j :: js, a, by simp, .next (mem_answers_succ.2 ⟨j, j.2, rfl⟩) hr, fun h => ?_⟩
          rcases List.cons_lt_cons_iff.1 h with h | ⟨h, -⟩
          · have := Option.some_lt_some.1 h
            simp only at hj
            omega
          · simp only [Option.some.injEq] at h
            simp only at hj
            omega
      · rintro ⟨_, a, rfl, hr, hle⟩
        cases hr with
        | @next _ _ j js _ hj hr =>
          obtain ⟨j, hjn, rfl⟩ := mem_answers_succ.1 hj
          rcases Nat.lt_trichotomy j i with h | rfl | h
          · exact absurd (List.cons_lt_cons_iff.2 (.inl (Option.some_lt_some.2 h))) hle
          · exact .inl ⟨js, a, by simp, hr, fun h => hle (List.cons_lt_cons_iff.2 (.inr ⟨rfl, h⟩))⟩
          · exact .inr ⟨⟨j, hjn⟩, h, mem_leaves_tree.2 ⟨js, a, by simp, hr⟩⟩

end Chooser

/-! ## The loop -/

/-- A round leaves alone what was on the path before the mark, and goes back to the mark. -/
def Round.Keeps {α : Type} (pre : List Nat) (r : Round α) : Prop :=
  pre <+: r.after.path ∧ pre <+: r.next.path ∧ r.next.path_idx = pre.length

/-- The rounds take the loop through the leaves, and the last of them is the one with nothing to advance to. -/
structure Rounds {α : Type} (pre : List Nat) (rounds : List (Round α)) (leaves : List (Exec α)) : Prop where
  results : rounds.map (fun r => .ok r.result) = leaves
  keeps : ∀ r ∈ rounds, r.Keeps pre
  more : rounds.map Round.more = List.replicate (rounds.length - 1) true ++ [false]
  last : ∃ r, rounds.getLast? = some r ∧ r.next.At pre []

namespace Rounds
variable {α : Type} {pre q : List Nat} {ch ch' : GuChoice} {a : α} {p : List Nat} {rounds : List (Round α)} {leaves : List (Exec α)}

theorem one (h : ch.At (pre ++ p) []) (h' : ch'.At pre []) : Rounds pre [⟨a, ch, false, ch'⟩] [.ok a] where
  results := rfl
  keeps r hr := by
    obtain rfl := List.mem_singleton.1 hr
    refine ⟨?_, ?_, h'.path_idx⟩
    · rw [h.path, List.append_nil]
      exact List.prefix_append _ _
    · rw [h'.path]
      exact List.prefix_append _ _
  more := rfl
  last := ⟨_, rfl, h'⟩

theorem cons (h : ch.At (pre ++ p) []) (h' : ch'.At pre q) (hrounds : Rounds pre rounds leaves) :
    Rounds pre (⟨a, ch, true, ch'⟩ :: rounds) (.ok a :: leaves) where
  results := by rw [List.map_cons, hrounds.results]
  keeps r hr := by
    rcases List.mem_cons.1 hr with rfl | hr
    · refine ⟨?_, ?_, h'.path_idx⟩
      · rw [h.path, List.append_nil]
        exact List.prefix_append _ _
      · rw [h'.path]
        exact List.prefix_append _ _
    · exact hrounds.keeps r hr
  more := by
    obtain ⟨r, hr, -⟩ := hrounds.last
    cases rounds with
    | nil => cases hr
    | cons r rounds =>
      rw [List.map_cons, hrounds.more]
      rfl
  last := by
    obtain ⟨r, hr, hat⟩ := hrounds.last
    refine ⟨r, ?_, hat⟩
    rw [List.getLast?_cons, hr]
    rfl

end Rounds

namespace Chooser
variable {α : Type}

/-- From a position of the tree the loop goes through what is left of its leaves. -/
theorem driverFrom_after {p : Chooser α} (hp : p.Small) {q : List Nat} {rs : List (List Nat × Exec (List (Option Nat) × α))}
    (h : (p.tree []).After q rs) {pre : List Nat} {ch : GuChoice} (hch : ch.At pre q) :
    ∃ rounds, Settles (fun fuel => driverFrom p.run pre.length fuel ch) (.ok rounds) ∧ Rounds pre rounds (rs.map Prod.snd) := by
  have hok : ∀ r, r ∈ (p.tree []).leaves → ∃ a, r = .ok a := by
    intro r hr
    obtain ⟨is, a, rfl, -⟩ := mem_leaves_tree.1 hr
    exact ⟨_, rfl⟩
  induction rs generalizing q ch with
  | nil =>
    obtain ⟨_, _, _, _, he, -⟩ := GuChoice.run_next h (tree_small hp []) hch
    cases he
  | cons r rs ih =>
    obtain ⟨path, res, rest, ch', he, hat, hrun, ch₁, ch₂, hreset, hadv⟩ := GuChoice.run_next h (tree_small hp []) hch
    obtain ⟨rfl, rfl⟩ := List.cons.inj he
    obtain ⟨a, rfl⟩ := hok res (List.mem_map.2 ⟨_, h.suffix.subset List.mem_cons_self, rfl⟩)
    have hstep : ∀ m, driverFrom p.run pre.length (m + 1) ch = (do
        let adv ← ch₁.gu_choice_advance
        let rest ← if adv.1 then driverFrom p.run pre.length m adv.2 else .ok []
        return ⟨a, ch', adv.1, adv.2⟩ :: rest) := by
      intro m
      have hrun' : p.run ch = .ok (a, ch') := by
        rw [run_tree hp] at hrun
        cases hpr : p.run ch with
        | error e => simp [hpr, Except.map] at hrun
        | ok r => simpa [hpr, Except.map] using hrun
      rw [driverFrom, hrun', Exec.ok_bind, hreset, Exec.ok_bind]
    rcases hadv with ⟨rfl, hadv, hat₂⟩ | ⟨q', hq', hadv, hat₂⟩
    · -- the last leaf
      refine ⟨[⟨a, ch', false, ch₂⟩], ?_, .one hat hat₂⟩
      apply Settles.succ (.of_eq fun _ => rfl)
      intro m
      rw [hstep, hadv]
      rfl
    · obtain ⟨rounds, hset, hrounds⟩ := ih hq' hat₂
      refine ⟨⟨a, ch', true, ch₂⟩ :: rounds, ?_, .cons hat hat₂ hrounds⟩
      apply Settles.succ (hset.bind (h := fun _ rest => .ok (⟨a, ch', true, ch₂⟩ :: rest)) (.of_eq fun _ => rfl))
      intro m
      rw [hstep, hadv]
      rfl

/-- The loop `mark; do { run; reset } while (advance)`, started at a mark with any path before it and the path of any node
behind it, runs the program once for each leaf that does not come before the node, in lexicographic order. Behind a new mark
the path is empty and these are all the leaves. What is before the mark stays as it is, and `gu_choice_advance` fails at the
last leaf only. -/
theorem driver_runs_each_leaf_once (p : Chooser α) (hp : p.Small) (node : List (Option Nat)) (hnode : p.Begins node)
    (pre : List Nat) (ch : GuChoice) (hch : ch.At pre (p.labels node)) :
    ∃ rounds, Settles (fun fuel => driver p.run fuel ch) (.ok rounds) ∧
      (rounds.map Round.result).Pairwise (fun r s => r.1 < s.1) ∧
      (∀ is a, (is, a) ∈ rounds.map Round.result ↔ p.Runs is a ∧ ¬ is < node) ∧
      (∀ r ∈ rounds, r.Keeps pre) ∧
      rounds.map Round.more = List.replicate (rounds.length - 1) true ++ [false] ∧
      ∃ r, rounds.getLast? = some r ∧ r.next.At pre [] := by
  obtain ⟨rs, hafter, hmem⟩ := after_labels hnode []
  obtain ⟨rounds, hset, hrounds⟩ := driverFrom_after hp hafter hch
  refine ⟨rounds, ?_, ?_, ?_, hrounds.keeps, hrounds.more, hrounds.last⟩
  · refine Settles.bind (h := fun m mark => driverFrom p.run mark m ch) (a := pre.length) (.of_eq fun _ => hch.mark) hset
  · have hpair := (leaves_pairwise p []).sublist (hafter.suffix.sublist.map Prod.snd)
    rw [← hrounds.results, List.pairwise_map] at hpair
    rw [List.pairwise_map]
    refine hpair.imp fun {r s} h => ?_
    obtain ⟨is, a, js, b, hr, hs, hlt⟩ := h
    simp only [List.nil_append, Except.ok.injEq] at hr hs
    rw [hr, hs]
    exact hlt
  · intro is a
    have hcongr : (is, a) ∈ rounds.map Round.result ↔ .ok (is, a) ∈ rs.map Prod.snd := by
      rw [← hrounds.results]
      simp
    rw [hcongr, hmem]
    constructor
    · rintro ⟨js, b, he, hr, hlt⟩
      simp only [List.nil_append, Except.ok.injEq, Prod.mk.injEq] at he
      rw [he.1, he.2]
      exact ⟨hr, hlt⟩
    · rintro ⟨hr, hlt⟩
      exact ⟨is, a, rfl, hr, hlt⟩

/-- The shape of the tree depends on the first answer. -/
def shapes : Chooser Nat :=
  .next 2 fun i => if i = some 0 then .next 2 fun j => .ret (j.getD 0) else .next 0 fun _ => .ret 2

theorem driver_runs_each_leaf_once_shapes : ∃ rounds, Settles (fun fuel => driver shapes.run fuel ⟨[3], 1, by decide, by decide⟩) (.ok rounds) ∧
    ([some 0, some 1], 1) ∈ rounds.map Round.result ∧ ([some 1, none], 2) ∈ rounds.map Round.result ∧
    ∃ r, rounds.getLast? = some r ∧ r.next.At [3] [] := by
  have hsmall : shapes.Small := by
    refine ⟨by decide, fun i _ => ?_⟩
    dsimp only
    split
    · simp [Small]
    · simp [Small]
  obtain ⟨rounds, hset, -, hmem, -, -, hlast⟩ :=
    driver_runs_each_leaf_once shapes hsmall [] (.nil _) [3] ⟨[3], 1, by decide, by decide⟩ ⟨rfl, rfl⟩
  refine ⟨rounds, hset, (hmem _ _).2 ⟨?_, ?_⟩, (hmem _ _).2 ⟨?_, ?_⟩, hlast⟩
  · exact .next (by decide) (.next (by decide) (.ret 1))
  · exact List.not_lt_nil _
  · exact .next (by decide) (.next (by decide) (.ret 2))
  · exact List.not_lt_nil _

example : (driver shapes.run 4 gu_new_choice).map (List.map Round.result) =
    .ok [([some 0, some 0], 0), ([some 0, some 1], 1), ([some 1, none], 2)] := by rfl

end Chooser

end Libpgf
