import Libpgf.Lib.Exec
/-!
# Calls that are deep enough

A recursive function of the model takes a bound on its depth, and a call that
would go deeper stops with `Halt.fuel`. What stops so inside of a sequence or a
loop stops in one of its calls.
-/

namespace Libpgf

namespace Exec
variable {α β : Type}

/-- The call does not ask for more depth. -/
def Deep (x : Exec α) : Prop := x ≠ .error .fuel

@[simp] theorem deep_ok (a : α) : Deep (Except.ok a : Exec α) := by simp [Deep]

@[simp] theorem deep_pure (a : α) : Deep (pure a : Exec α) := deep_ok a

@[simp] theorem deep_abort : Deep (abort : Exec α) := by simp [Deep, abort]

@[simp] theorem deep_hang : Deep (hang : Exec α) := by simp [Deep, hang]

@[simp] theorem deep_fatal : Deep (fatal : Exec α) := by simp [Deep, fatal]

@[simp] theorem deep_deref (o : Option α) : Deep (deref o) := by
  cases o
  · exact deep_abort
  · exact deep_ok _

@[simp] theorem deep_require (p : Prop) [Decidable p] : Deep (require p) := by
  unfold require
  split
  · exact deep_ok _
  · exact deep_abort

/-- A sequence that stops so does it in its first call or in its second. -/
theorem bind_fuel {x : Exec α} {f : α → Exec β} :
    x >>= f = .error .fuel ↔ x = .error .fuel ∨ ∃ a, x = .ok a ∧ f a = .error .fuel := by
  cases x with
  | error e => simp
  | ok a => simp

theorem Deep.bind {x : Exec α} {f : α → Exec β} (hx : Deep x) (hf : ∀ a, x = .ok a → Deep (f a)) : Deep (x >>= f) := by
  intro h
  rcases bind_fuel.1 h with h | ⟨a, ha, h⟩
  · exact hx h
  · exact hf a ha h

/-- After a call that is deep enough. -/
theorem Deep.bind_fuel {x : Exec α} (hx : Deep x) {f : α → Exec β} (h : x >>= f = .error .fuel) : ∃ a, x = .ok a ∧ f a = .error .fuel :=
  (Exec.bind_fuel.1 h).resolve_left hx

theorem Deep.map {x : Exec α} (hx : Deep x) (f : α → β) : Deep (x.map f) := by
  cases x with
  | ok a => exact deep_ok _
  | error e =>
    intro h
    exact hx (congrArg Except.error (Except.error.inj h))

/-! ## More depth -/

/-- What `x` returns, `y` returns as well. -/
def Extends (x y : Exec α) : Prop := ∀ a, x = .ok a → y = .ok a

namespace Extends
variable {x y : Exec α}

theorem refl (x : Exec α) : Extends x x := fun _ h => h

/-- A call that asks for more depth may do anything with more. -/
theorem fuel (y : Exec α) : Extends (.error .fuel) y := by
  intro a h
  cases h

theorem bind (h : Extends x y) {f g : α → Exec β} (hf : ∀ a, Extends (f a) (g a)) : Extends (x >>= f) (y >>= g) := by
  intro b hb
  obtain ⟨a, ha, hb⟩ := bind_ok.1 hb
  exact bind_ok.2 ⟨a, h a ha, hf a b hb⟩

end Extends

end Exec

section ForEach
variable {α σ : Type} {f : σ → α → Exec σ}

theorem forEach_deep (hf : ∀ a s, Exec.Deep (f s a)) (as : List α) (s : σ) : Exec.Deep (forEach f as s) := by
  induction as generalizing s with
  | nil => exact Exec.deep_ok _
  | cons a as ih => exact .bind (hf a s) fun s' _ => ih s'

/-- A loop that stops so does it in one of its rounds. -/
theorem forEach_fuel {I : σ → Prop} {as : List α} {s : σ} (hf : ∀ a ∈ as, ∀ s s', I s → f s a = .ok s' → I s') (hs : I s)
    (h : forEach f as s = .error .fuel) : ∃ a ∈ as, ∃ s', I s' ∧ f s' a = .error .fuel := by
  induction as generalizing s with
  | nil => cases h
  | cons a as ih =>
    rcases Exec.bind_fuel.1 h with h | ⟨s₁, h₁, h⟩
    · exact ⟨a, List.mem_cons_self, s, hs, h⟩
    · obtain ⟨b, hb, h⟩ := ih (fun b hb => hf b (List.mem_cons_of_mem _ hb)) (hf a List.mem_cons_self _ _ hs h₁) h
      exact ⟨b, List.mem_cons_of_mem _ hb, h⟩

end ForEach

end Libpgf
