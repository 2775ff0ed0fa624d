import Libpgf.Gu.Choice
/-!
# The laws of choices

A function that makes choices runs a search tree. Running it, going back to
where it began and advancing visits the runs of the tree in order, each of them
once.
-/

namespace Libpgf

namespace GuChoice

/-! ## Running a search tree -/

/-- The program that makes the choices of the tree. -/
def run {α : Type} : Search (Exec α) → GuChoice → Exec (α × GuChoice)
  | .done r, ch => r.map fun a => (a, ch)
  | .choose n next, ch => do
    let (i, ch) ← gu_choice_next ch (n + 1)
    match i with
    | none => Exec.abort
    | some i => if h : i < n + 1 then run (next ⟨i, h⟩) ch else Exec.abort

/-- First one tree, and then another that depends on its result. -/
def andThen {α β : Type} (s : Search (Exec α)) (f : α → Search (Exec β)) : Search (Exec β) :=
  s.bind fun
    | .ok a => f a
    | .error e => .done (.error e)

theorem run_andThen {α β : Type} (s : Search (Exec α)) (f : α → Search (Exec β)) (ch : GuChoice) :
    run (andThen s f) ch = run s ch >>= fun r => run (f r.1) r.2 := by
  induction s generalizing ch with
  | done r => cases r <;> rfl
  | choose n next ih =>
    simp only [andThen, Search.bind, run, bind_assoc]
    refine bind_congr fun r => ?_
    rcases r with ⟨_ | i, ch'⟩
    · rfl
    · by_cases h : i < n + 1
      · simp only [dif_pos h]
        exact ih ⟨i, h⟩ ch'
      · simp only [dif_neg h]
        rfl

/-- A single choice among `n` alternatives. -/
def choice (n : Nat) : Search (Exec (Option Nat)) :=
  match n with
  | 0 => .done (.ok none)
  | n + 1 => if n + 1 ≤ 255 then .choose n fun i => .done (.ok (some i)) else .done Exec.abort

theorem choice_small (n : Nat) : (choice n).Small 255 := by
  unfold choice
  split
  · trivial
  · split
    · exact ⟨by assumption, fun _ => trivial⟩
    · trivial

theorem andThen_small {α β : Type} {b : Nat} {s : Search (Exec α)} {f : α → Search (Exec β)} (hs : s.Small b)
    (hf : ∀ a, (f a).Small b) : (andThen s f).Small b := by
  induction s with
  | done r =>
    cases r with
    | ok a => exact hf a
    | error e => trivial
  | choose n next ih => exact ⟨hs.1, fun i => ih i (hs.2 i)⟩

/-- What a run returns is a result of the tree. -/
theorem run_mem_leaves {α : Type} {s : Search (Exec α)} {ch ch' : GuChoice} {a : α} (h : run s ch = .ok (a, ch')) :
    .ok a ∈ s.leaves := by
  induction s generalizing ch with
  | done r =>
    cases r with
    | ok b =>
      simp only [run, Except.map, Except.ok.injEq, Prod.mk.injEq] at h
      simp [h.1]
    | error e => simp [run, Except.map] at h
  | choose n next ih =>
    rw [run] at h
    obtain ⟨⟨i, ch₁⟩, -, h⟩ := Exec.bind_ok.1 h
    rw [Search.leaves_choose, List.mem_flatMap]
    cases i with
    | none => simp at h
    | some i =>
      simp only at h
      split at h
      · exact ⟨_, List.mem_finRange _, ih _ h⟩
      · simp at h

theorem leaves_andThen {α β : Type} (s : Search (Exec α)) (f : α → Search (Exec β)) :
    (andThen s f).leaves = s.leaves.flatMap fun
      | .ok a => (f a).leaves
      | .error e => [.error e] := by
  rw [andThen, Search.leaves_bind]
  congr 1
  funext r
  cases r <;> rfl

theorem ok_mem_andThen {α β : Type} {s : Search (Exec α)} {f : α → Search (Exec β)} {b : β} :
    .ok b ∈ (andThen s f).leaves ↔ ∃ a, .ok a ∈ s.leaves ∧ .ok b ∈ (f a).leaves := by
  rw [leaves_andThen, List.mem_flatMap]
  constructor
  · rintro ⟨r, hr, hb⟩
    cases r with
    | ok a => exact ⟨a, hr, hb⟩
    | error e => simp at hb
  · rintro ⟨a, ha, hb⟩
    exact ⟨.ok a, ha, hb⟩

theorem error_mem_andThen {α β : Type} {s : Search (Exec α)} {f : α → Search (Exec β)} {e : Halt} :
    .error e ∈ (andThen s f).leaves ↔ .error e ∈ s.leaves ∨ ∃ a, .ok a ∈ s.leaves ∧ .error e ∈ (f a).leaves := by
  rw [leaves_andThen, List.mem_flatMap]
  constructor
  · rintro ⟨r, hr, he⟩
    cases r with
    | ok a => exact .inr ⟨a, hr, he⟩
    | error e' =>
      simp only [List.mem_singleton, Except.error.injEq] at he
      exact .inl (he ▸ hr)
  · rintro (he | ⟨a, ha, he⟩)
    · exact ⟨.error e, he, List.mem_singleton_self _⟩
    · exact ⟨.ok a, ha, he⟩

theorem andThen_congr {α β : Type} {s : Search (Exec α)} {f g : α → Search (Exec β)} (h : ∀ a, .ok a ∈ s.leaves → f a = g a) :
    andThen s f = andThen s g := by
  induction s with
  | done r =>
    cases r with
    | ok a => exact h a (List.mem_singleton_self _)
    | error e => rfl
  | choose n next ih =>
    simp only [andThen, Search.bind]
    congr 1
    funext i
    refine ih i fun a ha => h a ?_
    rw [Search.leaves_choose]
    exact List.mem_flatMap.2 ⟨i, List.mem_finRange _, ha⟩

/-- Every run of the tree comes to its end. -/
def Safe {α : Type} (s : Search (Exec α)) : Prop := ∀ e, .error e ∉ s.leaves

theorem safe_andThen {α β : Type} {s : Search (Exec α)} {f : α → Search (Exec β)} :
    Safe (andThen s f) ↔ Safe s ∧ ∀ a, .ok a ∈ s.leaves → Safe (f a) := by
  simp only [Safe, error_mem_andThen, not_or, not_exists, not_and]
  constructor
  · intro h
    exact ⟨fun e => (h e).1, fun a ha e => (h e).2 a ha⟩
  · rintro ⟨hs, hf⟩ e
    exact ⟨hs e, fun a ha => hf a ha e⟩

/-- The values that `f` finds in the results, in order. -/
def yielded {α β : Type} (f : α → Option β) (s : Search (Exec α)) : List β :=
  s.leaves.filterMap fun
    | .ok a => f a
    | .error _ => none

theorem mem_yielded {α β : Type} {f : α → Option β} {s : Search (Exec α)} {b : β} :
    b ∈ yielded f s ↔ ∃ a, .ok a ∈ s.leaves ∧ f a = some b := by
  simp only [yielded, List.mem_filterMap]
  constructor
  · rintro ⟨r, hr, hb⟩
    cases r with
    | ok a => exact ⟨a, hr, hb⟩
    | error e => simp at hb
  · rintro ⟨a, ha, hb⟩
    exact ⟨.ok a, ha, hb⟩

/-- No value is found twice, when each tells which of the different values of the first tree it was found behind. -/
theorem nodup_andThen {α β γ κ : Type} {s : Search (Exec α)} {f : α → Search (Exec β)} {k : α → Option κ} {g : β → Option γ}
    (key : γ → κ) (hs : (yielded k s).Nodup) (hf : ∀ a, .ok a ∈ s.leaves → (yielded g (f a)).Nodup)
    (hkey : ∀ a c, .ok a ∈ s.leaves → c ∈ yielded g (f a) → k a = some (key c)) : (yielded g (andThen s f)).Nodup := by
  have heq : yielded g (andThen s f) = s.leaves.flatMap fun
      | .ok a => yielded g (f a)
      | .error _ => [] := by
    rw [yielded, leaves_andThen, List.filterMap_flatMap]
    congr 1
    funext r
    cases r <;> rfl
  rw [heq, List.nodup_flatMap]
  refine ⟨fun r hr => ?_, ?_⟩
  · cases r with
    | ok a => exact hf a hr
    | error e => exact List.nodup_nil
  · refine (List.pairwise_filterMap.1 hs).imp_of_mem fun {r r'} hr hr' hne => ?_
    cases r with
    | error e => exact List.disjoint_nil_left _
    | ok a =>
      cases r' with
      | error e => exact List.disjoint_nil_right _
      | ok a' => exact fun c hc hc' => hne (key c) (hkey a c hr hc) (key c) (hkey a' c hr' hc') rfl

theorem leaves_choice (n : Nat) : (choice n).leaves =
    if n = 0 then [.ok none] else if n ≤ 255 then (List.range n).map fun i => .ok (some i) else [Exec.abort] := by
  cases n with
  | zero => rfl
  | succ n =>
    by_cases hn : n + 1 ≤ 255
    · have hmap : (List.finRange (n + 1)).flatMap (fun i : Fin (n + 1) => [Except.ok (some (i : Nat))]) =
          (List.range (n + 1)).map fun i => (Except.ok (some i) : Exec (Option Nat)) := by
        rw [← List.map_coe_finRange_eq_range, List.map_map, List.map_eq_flatMap]
        rfl
      simpa [choice, hn, Search.leaves_choose] using hmap
    · simp [choice, hn]

theorem nodup_choice (n : Nat) : (yielded id (choice n)).Nodup := by
  rw [yielded, leaves_choice]
  split
  · simp
  split
  · rw [List.filterMap_map]
    simpa [Function.comp_def] using List.nodup_range
  · simp [Exec.abort]

theorem mem_choice {n i : Nat} (h : Safe (choice n)) (hi : i < n) : .ok (some i) ∈ (choice n).leaves := by
  by_cases hn : n ≤ 255
  · rw [leaves_choice, if_neg (by omega), if_pos hn]
    exact List.mem_map_of_mem (List.mem_range.2 hi)
  · refine absurd ?_ (h .abort)
    rw [leaves_choice, if_neg (by omega), if_neg hn]
    exact List.mem_singleton_self _

/-- `gu_choice_next` makes a single choice. -/
theorem run_choice (n : Nat) (ch : GuChoice) : run (choice n) ch = gu_choice_next ch n := by
  have hidx : Exec.require (ch.path_idx ≤ ch.path.length) = .ok () := Exec.require_ok.2 ch.path_idx_le
  cases n with
  | zero =>
    have hreq : Exec.require (0 ≤ 255) = .ok () := Exec.require_ok.2 (Nat.zero_le _)
    simp only [choice, run, gu_choice_next, hreq, hidx, Exec.ok_bind, dif_pos]
    rfl
  | succ n =>
    by_cases hn : n + 1 ≤ 255
    · have hreq : Exec.require (n + 1 ≤ 255) = .ok () := Exec.require_ok.2 hn
      simp only [choice, if_pos hn, run, gu_choice_next, hreq, hidx, Exec.ok_bind, Nat.succ_ne_zero, dif_neg, not_false_eq_true]
      split
      · rename_i b hb
        have hpos := ch.path_pos b (List.mem_of_getElem? hb)
        by_cases hle : b ≤ n + 1
        · simp only [Exec.require, if_pos hle, Exec.ok_bind, Exec.pure_eq, if_neg (Nat.ne_of_gt hpos),
            dif_pos (show n + 1 - b < n + 1 by omega), Except.map]
        · simp [Exec.require, if_neg hle, Exec.abort]
      · simp [Except.map]
    · simp [choice, hn, run, gu_choice_next, Exec.require, Exec.abort, Except.map]

/-- There is always an alternative, as no label on the path is zero. -/
theorem next_none {n : Nat} {ch ch' : GuChoice} (h : gu_choice_next ch n = .ok (none, ch')) : n = 0 := by
  unfold gu_choice_next at h
  obtain ⟨_, -, h⟩ := Exec.bind_ok.1 h
  obtain ⟨_, -, h⟩ := Exec.bind_ok.1 h
  split at h
  · assumption
  · split at h
    · rename_i i hi
      obtain ⟨_, -, h⟩ := Exec.bind_ok.1 h
      have hpos := ch.path_pos i (List.mem_of_getElem? hi)
      simp [Nat.ne_of_gt hpos] at h
    · simp at h

/-! ## Where a choice stands -/

/-- The choices made so far are `pre`, and those to be replayed are `q`. -/
structure At (ch : GuChoice) (pre q : List Nat) : Prop where
  path : ch.path = pre ++ q
  path_idx : ch.path_idx = pre.length

namespace At
variable {ch : GuChoice} {pre p q : List Nat} {n b : Nat}

theorem new : gu_new_choice.At [] [] := ⟨rfl, rfl⟩

theorem eq {ch' : GuChoice} (h : ch.At pre q) (h' : ch'.At pre q) : ch = ch' := by
  obtain ⟨path, path_idx, _, _⟩ := ch
  obtain ⟨path', path_idx', _, _⟩ := ch'
  obtain rfl : path = path' := h.path.trans h'.path.symm
  obtain rfl : path_idx = path_idx' := h.path_idx.trans h'.path_idx.symm
  rfl

theorem mark (h : ch.At pre q) : gu_choice_mark ch = .ok pre.length := by
  simp [gu_choice_mark, h.path, h.path_idx, Exec.require]

theorem reset (h : ch.At (pre ++ p) q) : ∃ ch', gu_choice_reset ch pre.length = .ok ch' ∧ ch'.At pre (p ++ q) := by
  have hle : pre.length ≤ ch.path_idx := by
    rw [h.path_idx, List.length_append]
    exact Nat.le_add_right _ _
  refine ⟨{ ch with path_idx := pre.length, path_idx_le := hle.trans ch.path_idx_le }, ?_, ?_, rfl⟩
  · simp [gu_choice_reset, hle, ch.path_idx_le, Exec.require]
  · rw [h.path, List.append_assoc]

/-- Past the end of the path the first alternative is taken. -/
theorem next_end (h : ch.At pre []) (hn : n ≤ 255) (h0 : n ≠ 0) :
    ∃ ch', gu_choice_next ch n = .ok (some 0, ch') ∧ ch'.At (pre ++ [n]) [] := by
  have hnone : ch.path[ch.path_idx]? = none := by
    rw [h.path, h.path_idx, List.append_nil]
    exact List.getElem?_eq_none (Nat.le_refl _)
  refine ⟨ch.push n h0, ?_, ?_, ?_⟩
  · simp only [gu_choice_next, Exec.require, hn, ch.path_idx_le, h0, if_true, Exec.ok_bind, dif_neg, not_false_eq_true]
    split
    · rename_i i hi
      rw [hnone] at hi
      cases hi
    · rfl
  · simp [push, h.path]
  · simp [push, h.path_idx]

/-- A choice on the path is made again. -/
theorem next_replay (h : ch.At pre (b :: q)) (hn : n ≤ 255) (hb : 0 < b) (hbn : b ≤ n) :
    ∃ ch', gu_choice_next ch n = .ok (some (n - b), ch') ∧ ch'.At (pre ++ [b]) q := by
  have hsome : ch.path[ch.path_idx]? = some b := by
    rw [h.path, h.path_idx, List.getElem?_append_right (Nat.le_refl _), Nat.sub_self]
    rfl
  have hlt := (List.getElem?_eq_some_iff.1 hsome).1
  refine ⟨{ ch with path_idx := ch.path_idx + 1, path_idx_le := hlt }, ?_, ?_, ?_⟩
  · have h0 : n ≠ 0 := by omega
    simp only [gu_choice_next, Exec.require, hn, ch.path_idx_le, h0, if_true, Exec.ok_bind, dif_neg, not_false_eq_true]
    split
    · rename_i i hi
      obtain rfl : b = i := Option.some.inj (hsome.symm.trans hi)
      simp only [hbn, if_true, Exec.ok_bind, Exec.pure_eq, if_neg (Nat.ne_of_gt hb)]
    · rename_i hi
      rw [hsome] at hi
      cases hi
  · simp [h.path]
  · simp [h.path_idx]

theorem advance (h : ch.At pre p) : ∃ ch', gu_choice_advance ch = .ok ((popChoices p.length (pre ++ p)).1, ch') ∧
    ch'.path = (popChoices p.length (pre ++ p)).2 ∧ ch'.path_idx = pre.length := by
  have hidx : Exec.require (ch.path_idx ≤ ch.path.length) = .ok () := Exec.require_ok.2 ch.path_idx_le
  have hpop : popChoices (ch.path.length - ch.path_idx) ch.path = popChoices p.length (pre ++ p) := by
    rw [h.path, h.path_idx, List.length_append, Nat.add_sub_cancel_left]
  obtain ⟨ch', hadv, hpath, hpi⟩ : ∃ ch', gu_choice_advance ch = .ok ((popChoices (ch.path.length - ch.path_idx) ch.path).1, ch') ∧
      ch'.path = (popChoices (ch.path.length - ch.path_idx) ch.path).2 ∧ ch'.path_idx = ch.path_idx := by
    unfold gu_choice_advance
    rw [hidx]
    exact ⟨_, rfl, rfl, rfl⟩
  exact ⟨ch', hpop ▸ hadv, hpop ▸ hpath, hpi.trans h.path_idx⟩

end At

/-! ## The runs of a tree -/

theorem popChoices_add (n m : Nat) (path : List Nat) : popChoices (n + m) path =
    if (popChoices n path).1 then popChoices n path else popChoices m (popChoices n path).2 := by
  induction n generalizing path with
  | zero => simp [popChoices]
  | succ n ih =>
    rw [Nat.succ_add]
    cases hl : path.getLast? with
    | none =>
      obtain rfl := List.getLast?_eq_none_iff.1 hl
      cases m <;> simp [popChoices]
    | some last =>
      simp only [popChoices, hl]
      split
      · rfl
      · exact ih _

/-- Advancing from the path of a run leads to the next run, if there is one. -/
theorem pop_after {α : Type} {s : Search α} {q : List Nat} {rs : List (List Nat × α)} (h : s.After q rs) :
    ∃ p r rest, rs = (p, r) :: rest ∧ s.After p rs ∧ ((rest = [] ∧ ∀ pre, popChoices p.length (pre ++ p) = (false, pre)) ∨
      ∃ q', s.After q' rest ∧ ∀ pre, popChoices p.length (pre ++ p) = (true, pre ++ q')) := by
  have hbranch : ∀ {n : Nat} {next : Fin (n + 1) → Search α} (i : Fin (n + 1)) {rs : List (List Nat × α)},
      (∃ p r rest, rs = (p, r) :: rest ∧ (next i).After p rs ∧
        ((rest = [] ∧ ∀ pre, popChoices p.length (pre ++ p) = (false, pre)) ∨
          ∃ q', (next i).After q' rest ∧ ∀ pre, popChoices p.length (pre ++ p) = (true, pre ++ q'))) →
      ∃ p r rest, (rs.map fun r => ((n + 1 - (i : Nat)) :: r.1, r.2)) ++ Search.later next (i + 1) = (p, r) :: rest ∧
        (Search.choose n next).After p ((rs.map fun r => ((n + 1 - (i : Nat)) :: r.1, r.2)) ++ Search.later next (i + 1)) ∧
        ((rest = [] ∧ ∀ pre, popChoices p.length (pre ++ p) = (false, pre)) ∨
          ∃ q', (Search.choose n next).After q' rest ∧ ∀ pre, popChoices p.length (pre ++ p) = (true, pre ++ q')) := by
    rintro n next i rs ⟨p, r, rest, rfl, hp, hpop⟩
    have hi : (i : Nat) < n + 1 := i.2
    have hcons : ∀ pre, pre ++ (n + 1 - (i : Nat)) :: p = (pre ++ [n + 1 - (i : Nat)]) ++ p := by simp
    refine ⟨(n + 1 - (i : Nat)) :: p, r, _, rfl, .branch i hp, ?_⟩
    simp only [List.length_cons, popChoices_add]
    rcases hpop with ⟨rfl, hpop⟩ | ⟨q', hq', hpop⟩
    · -- the branch is exhausted
      simp only [hcons, hpop, Bool.false_eq_true, if_false, List.map_nil, popChoices, List.getLast?_append,
        List.getLast?_singleton, Option.some_or, List.dropLast_concat]
      by_cases hlast : (i : Nat) = n
      · refine .inl ⟨by rw [hlast, Search.later_end]; rfl, fun pre => ?_⟩
        rw [if_neg (by omega)]
      · refine .inr ⟨[n + 1 - (i + 1)], ?_, fun pre => ?_⟩
        · have : (Search.choose n next).After _ _ := .branch ⟨i + 1, by omega⟩ (.start (s := next ⟨i + 1, by omega⟩))
          rw [← Search.later_eq] at this
          exact this
        · rw [if_pos (by omega), Nat.sub_sub]
    · refine .inr ⟨(n + 1 - (i : Nat)) :: q', .branch i hq', fun pre => ?_⟩
      rw [hcons, hpop]
      simp
  induction h with
  | @start s =>
    induction s with
    | done a => exact ⟨[], a, [], rfl, .start, .inl ⟨rfl, fun pre => by simp [popChoices]⟩⟩
    | choose n next ih =>
      have := hbranch 0 (ih 0)
      rw [Search.runs_choose]
      exact this
  | branch i _ ih => exact hbranch i ih

/-- The path of a run is a position. -/
theorem after_run {α : Type} {s : Search α} {q : List Nat} {skip rest : List (List Nat × α)} {p : List Nat} {a : α}
    (h : s.After q (skip ++ (p, a) :: rest)) : s.After p ((p, a) :: rest) := by
  induction skip generalizing q with
  | nil =>
    obtain ⟨p', r, rest', he, hp, -⟩ := pop_after h
    simp only [List.nil_append, List.cons.injEq, Prod.mk.injEq] at he
    rw [← he.1.1] at hp
    exact hp
  | cons r skip ih =>
    obtain ⟨p', r', rest', he, -, ⟨hnil, -⟩ | ⟨q', hq', -⟩⟩ := pop_after h
    · simp [hnil] at he
    · rw [List.cons_append, List.cons.injEq] at he
      exact ih (he.2 ▸ hq')

/-- Running the tree from a position takes the first run there is. -/
theorem run_after {α : Type} {s : Search (Exec α)} {q : List Nat} {rs : List (List Nat × Exec α)} (h : s.After q rs)
    (hs : s.Small 255) {pre : List Nat} {ch : GuChoice} (hch : ch.At pre q) :
    ∃ p r rest ch', rs = (p, r) :: rest ∧ ch'.At (pre ++ p) [] ∧ run s ch = r.map fun a => (a, ch') := by
  have hbranch : ∀ {n : Nat} {next : Fin (n + 1) → Search (Exec α)} (i : Fin (n + 1)) {pre : List Nat} {ch ch₁ : GuChoice}
      {rs : List (List Nat × Exec α)}, gu_choice_next ch (n + 1) = .ok (some i, ch₁) →
      (∃ p r rest ch', rs = (p, r) :: rest ∧ ch'.At ((pre ++ [n + 1 - (i : Nat)]) ++ p) [] ∧
        run (next i) ch₁ = r.map fun a => (a, ch')) →
      ∃ p r rest ch', (rs.map fun r => ((n + 1 - (i : Nat)) :: r.1, r.2)) ++ Search.later next (i + 1) = (p, r) :: rest ∧
        ch'.At (pre ++ p) [] ∧ run (.choose n next) ch = r.map fun a => (a, ch') := by
    rintro n next i pre ch ch₁ rs hnext ⟨p, r, rest, ch', rfl, hat, hrun⟩
    refine ⟨_, r, _, ch', rfl, by simpa using hat, ?_⟩
    simp only [run, hnext, Exec.ok_bind, dif_pos i.2]
    exact hrun
  induction h generalizing pre ch with
  | @start s =>
    induction s generalizing pre ch with
    | done a => exact ⟨[], a, [], ch, rfl, by rwa [List.append_nil], rfl⟩
    | choose n next ih =>
      obtain ⟨ch₁, hnext, hat⟩ := hch.next_end hs.1 (Nat.succ_ne_zero n)
      have := hbranch 0 hnext (ih 0 (hs.2 0) hat)
      rw [Search.runs_choose]
      exact this
  | @branch n next i q rs _ ih =>
    have hi : (i : Nat) < n + 1 := i.2
    obtain ⟨ch₁, hnext, hat⟩ := hch.next_replay hs.1 (by omega) (Nat.sub_le _ _)
    rw [Nat.sub_sub_self (Nat.le_of_lt hi)] at hnext
    exact hbranch i hnext (ih (hs.2 i) hat)

/-- Runs the tree, goes back and advances: the next run of the tree. -/
theorem run_next {α : Type} {s : Search (Exec α)} {q : List Nat} {rs : List (List Nat × Exec α)} (h : s.After q rs)
    (hs : s.Small 255) {pre : List Nat} {ch : GuChoice} (hch : ch.At pre q) :
    ∃ p r rest ch', rs = (p, r) :: rest ∧ ch'.At (pre ++ p) [] ∧ run s ch = r.map (fun a => (a, ch')) ∧
      ∃ ch₁ ch₂, gu_choice_reset ch' pre.length = .ok ch₁ ∧ ((rest = [] ∧ gu_choice_advance ch₁ = .ok (false, ch₂) ∧ ch₂.At pre []) ∨
        ∃ q', s.After q' rest ∧ gu_choice_advance ch₁ = .ok (true, ch₂) ∧ ch₂.At pre q') := by
  obtain ⟨p, r, rest, ch', rfl, hat, hrun⟩ := run_after h hs hch
  obtain ⟨p', r', rest', he, -, hpop⟩ := pop_after h
  simp only [List.cons.injEq, Prod.mk.injEq] at he
  obtain ⟨⟨rfl, rfl⟩, rfl⟩ := he
  obtain ⟨ch₁, hreset, hat₁⟩ := hat.reset
  rw [List.append_nil] at hat₁
  obtain ⟨ch₂, hadv, hpath, hidx⟩ := hat₁.advance
  refine ⟨p, r, rest, ch', rfl, hat, hrun, ch₁, ch₂, hreset, ?_⟩
  rcases hpop with ⟨rfl, hpop⟩ | ⟨q', hq', hpop⟩
  · rw [hpop] at hadv hpath
    exact .inl ⟨rfl, hadv, by rw [hpath, List.append_nil], hidx⟩
  · rw [hpop] at hadv hpath
    exact .inr ⟨q', hq', hadv, hpath, hidx⟩

end GuChoice

end Libpgf
