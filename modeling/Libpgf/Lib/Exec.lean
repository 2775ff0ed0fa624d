import Mathlib
/-!
# Runs of C code

A C function is a Lean function that returns `Exec α`: its result, or the way
it stopped without one. Functions that change memory take the memory and
return the new one.
-/

namespace Libpgf

/-- How a call ends without returning. -/
inductive Halt where
  /-- A failed assertion, or an access through a null or dangling pointer. -/
  | abort
  /-- A loop that the code does not leave. -/
  | hang
  /-- The recursion is deeper than the model was asked to follow. -/
  | fuel
  /-- `gu_fatal`: there is no memory left. -/
  | fatal
  deriving DecidableEq, Repr

abbrev Exec (α : Type) : Type := Except Halt α

namespace Exec

variable {α β γ : Type}

def abort : Exec α := .error .abort
def hang : Exec α := .error .hang
def fatal : Exec α := .error .fatal

/-- The value a pointer points to, when it points to one. -/
def deref (o : Option α) : Exec α :=
  match o with
  | some a => .ok a
  | none => abort

/-- `gu_require` and `gu_assert`. -/
def require (p : Prop) [Decidable p] : Exec Unit := if p then .ok () else abort

/-- What an `int` operation with the result `x` gives. One that does not fit has no defined meaning, and stops the run. -/
def int (x : Int) : Exec Int := if -2 ^ 31 ≤ x ∧ x < 2 ^ 31 then .ok x else abort

@[simp] theorem ok_bind (a : α) (f : α → Exec β) : (Except.ok a >>= f : Exec β) = f a := rfl

@[simp] theorem error_bind (e : Halt) (f : α → Exec β) : (Except.error e >>= f : Exec β) = .error e := rfl

@[simp] theorem pure_eq (a : α) : (pure a : Exec α) = .ok a := rfl

/-- A sequence of two calls returns when both do. -/
theorem bind_ok {x : Exec α} {f : α → Exec β} {b : β} :
    x >>= f = .ok b ↔ ∃ a, x = .ok a ∧ f a = .ok b := by
  cases x with
  | error e => simp
  | ok a => simp

@[simp] theorem deref_some (a : α) : deref (some a) = .ok a := rfl

@[simp] theorem deref_ok {o : Option α} {a : α} : deref o = .ok a ↔ o = some a := by
  cases o <;> simp [deref, abort]

@[simp] theorem require_ok {p : Prop} [Decidable p] {u : Unit} : require p = .ok u ↔ p := by
  unfold require
  split <;> simp_all [abort]

theorem int_ok {x : Int} (hl : -2 ^ 31 ≤ x) (hu : x < 2 ^ 31) : int x = .ok x := if_pos ⟨hl, hu⟩

@[simp] theorem abort_ne_ok (a : α) : (abort : Exec α) ≠ .ok a := by simp [abort]

@[simp] theorem fatal_ne_ok (a : α) : (fatal : Exec α) ≠ .ok a := by simp [fatal]

@[simp] theorem hang_ne_ok (a : α) : (hang : Exec α) ≠ .ok a := by simp [hang]

theorem of_int_ok {x y : Int} (h : int x = .ok y) : y = x ∧ -2 ^ 31 ≤ x ∧ x < 2 ^ 31 := by
  unfold int at h
  split at h
  · cases h
    exact ⟨rfl, ‹_›⟩
  · exact absurd h (abort_ne_ok y)

end Exec

/-! ## Loops over lists

`for` loops that thread a state through the elements of a list. -/

/-- Runs `f` on each element in turn. -/
def forEach {α σ : Type} (f : σ → α → Exec σ) : List α → σ → Exec σ
  | [], s => .ok s
  | a :: as, s => f s a >>= forEach f as

section ForEach
variable {α σ : Type} {f : σ → α → Exec σ}

@[simp] theorem forEach_nil (s : σ) : forEach f [] s = .ok s := rfl

@[simp] theorem forEach_cons (a : α) (as : List α) (s : σ) :
    forEach f (a :: as) s = f s a >>= forEach f as := rfl

/-- A loop keeps what each of its rounds keeps. -/
theorem forEach_inv {P : σ → Prop} {as : List α} {s s' : σ}
    (hf : ∀ a ∈ as, ∀ s s', P s → f s a = .ok s' → P s') (hs : P s) (h : forEach f as s = .ok s') : P s' := by
  induction as generalizing s with
  | nil =>
    simp only [forEach_nil, Except.ok.injEq] at h
    exact h ▸ hs
  | cons a as ih =>
    obtain ⟨s₁, h₁, h₂⟩ := Exec.bind_ok.1 h
    exact ih (fun b hb => hf b (List.mem_cons_of_mem _ hb)) (hf a List.mem_cons_self _ _ hs h₁) h₂

/-- A loop over `0, ..., n - 1` with an invariant that may mention the index. -/
theorem forEach_range {f : σ → Nat → Exec σ} {P : Nat → σ → Prop} {n : Nat}
    (hf : ∀ i s s', i < n → P i s → f s i = .ok s' → P (i + 1) s') {s s' : σ} (hs : P 0 s)
    (h : forEach f (List.range n) s = .ok s') : P n s' := by
  have main : ∀ m k s, k + m = n → P k s → forEach f (List.range' k m) s = .ok s' → P n s' := by
    intro m
    induction m with
    | zero =>
      intro k s hk hp h
      simp only [List.range'_zero, forEach_nil, Except.ok.injEq] at h
      subst h
      exact hk ▸ hp
    | succ m ih =>
      intro k s hk hp h
      rw [List.range'_succ, forEach_cons] at h
      obtain ⟨s₁, h₁, h₂⟩ := Exec.bind_ok.1 h
      exact ih (k + 1) s₁ (by omega) (hf k s s₁ (by omega) hp h₁) h₂
  rw [List.range_eq_range'] at h
  exact main n 0 s (by omega) hs h

/-- A loop over `0, ..., n - 1` returns when its rounds do. -/
theorem forEach_range_returns {f : σ → Nat → Exec σ} {P : Nat → σ → Prop} {n : Nat}
    (hf : ∀ i s, i < n → P i s → ∃ s', f s i = .ok s' ∧ P (i + 1) s') {s : σ} (hs : P 0 s) :
    ∃ s', forEach f (List.range n) s = .ok s' ∧ P n s' := by
  have main : ∀ m k s, k + m = n → P k s → ∃ s', forEach f (List.range' k m) s = .ok s' ∧ P n s' := by
    intro m
    induction m with
    | zero =>
      intro k s hk hp
      exact ⟨s, rfl, hk ▸ hp⟩
    | succ m ih =>
      intro k s hk hp
      obtain ⟨s₁, h₁, hp₁⟩ := hf k s (by omega) hp
      obtain ⟨s', hs', hp'⟩ := ih (k + 1) s₁ (by omega) hp₁
      refine ⟨s', ?_, hp'⟩
      rw [List.range'_succ, forEach_cons, h₁, Exec.ok_bind, hs']
  rw [List.range_eq_range']
  exact main n 0 s (by omega) hs

end ForEach

end Libpgf
