import Libpgf.Lib.Search
/-!
# Choices (`gu/choice.c`)

A `GuChoice` makes a deterministic function run through all alternatives: it
replays the choices on its path, and past the end of the path takes the first
alternative. `gu_choice_advance` moves the path to the next run.
-/

namespace Libpgf

/-- The path is a buffer of `uint8_t`: for each choice how many alternatives are
left, the one taken included. -/
structure GuChoice where
  path : List Nat
  path_idx : Nat
  path_pos : ∀ b ∈ path, 0 < b
  path_idx_le : path_idx ≤ path.length

/-- A `path_idx` to return to. -/
abbrev GuChoiceMark := Nat

def gu_new_choice : GuChoice := ⟨[], 0, by simp, Nat.le_refl _⟩

namespace GuChoice

def gu_choice_mark (ch : GuChoice) : Exec GuChoiceMark := do
  Exec.require (ch.path_idx ≤ ch.path.length)
  return ch.path_idx

def gu_choice_reset (ch : GuChoice) (mark : GuChoiceMark) : Exec GuChoice := do
  Exec.require (ch.path_idx ≤ ch.path.length)
  if h : mark ≤ ch.path_idx then return { ch with path_idx := mark, path_idx_le := h.trans ch.path_idx_le }
  else Exec.abort

/-- `gu_buf_push` on the path, and a step past what it pushed. -/
def push (ch : GuChoice) (b : Nat) (hb : b ≠ 0) : GuChoice where
  path := ch.path ++ [b]
  path_idx := ch.path_idx + 1
  path_pos c hc := by
    rcases List.mem_append.1 hc with hc | hc
    · exact ch.path_pos c hc
    · rw [List.mem_singleton] at hc
      omega
  path_idx_le := by
    have := ch.path_idx_le
    rw [List.length_append, List.length_singleton]
    omega

/-- The alternative to take, among `n_choices`; `none` is -1. The callers pass lengths, each below `2 ^ 31` and so the `int` that they
become. -/
def gu_choice_next (ch : GuChoice) (n_choices : Nat) : Exec (Option Nat × GuChoice) := do
  Exec.require (n_choices ≤ 255)
  Exec.require (ch.path_idx ≤ ch.path.length)
  if h : n_choices = 0 then return (none, ch)
  else
    match hi : ch.path[ch.path_idx]? with
    | some i => do
      Exec.require (i ≤ n_choices)
      return (if i = 0 then none else some (n_choices - i),
        { ch with path_idx := ch.path_idx + 1, path_idx_le := (List.getElem?_eq_some_iff.1 hi).1 })
    | none => return (some 0, ch.push n_choices h)

/-- Pops at most `n` choices, until one of them has another alternative. -/
def popChoices : Nat → List Nat → Bool × List Nat
  | 0, path => (false, path)
  | n + 1, path =>
    match path.getLast? with
    | none => (false, path)
    | some last => if last > 1 then (true, path.dropLast ++ [last - 1]) else popChoices n path.dropLast

theorem popChoices_pos {n : Nat} {path : List Nat} (h : ∀ b ∈ path, 0 < b) : ∀ b ∈ (popChoices n path).2, 0 < b := by
  induction n generalizing path with
  | zero => exact h
  | succ n ih =>
    have hdrop : ∀ b ∈ path.dropLast, 0 < b := fun b hb => h b (List.dropLast_subset _ hb)
    unfold popChoices
    split
    · exact h
    · split
      · intro b hb
        rcases List.mem_append.1 hb with hb | hb
        · exact hdrop b hb
        · rw [List.mem_singleton] at hb
          omega
      · exact ih hdrop

theorem popChoices_length (n : Nat) (path : List Nat) : path.length - n ≤ (popChoices n path).2.length := by
  induction n generalizing path with
  | zero => exact Nat.le_refl _
  | succ n ih =>
    unfold popChoices
    split
    · exact Nat.sub_le _ _
    · split
      · simp only [List.length_append, List.length_dropLast, List.length_singleton]
        omega
      · have := ih path.dropLast
        rw [List.length_dropLast] at this
        omega

/-- Pops the choices past `path_idx` that have no alternatives left, and takes the next alternative of the last other. -/
def gu_choice_advance (ch : GuChoice) : Exec (Bool × GuChoice) := do
  Exec.require (ch.path_idx ≤ ch.path.length)
  let r := popChoices (ch.path.length - ch.path_idx) ch.path
  return (r.1, {
    path := r.2
    path_idx := ch.path_idx
    path_pos := popChoices_pos ch.path_pos
    path_idx_le := by
      have h := popChoices_length (ch.path.length - ch.path_idx) ch.path
      rwa [Nat.sub_sub_self ch.path_idx_le] at h })

end GuChoice

end Libpgf
