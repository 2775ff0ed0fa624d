import Libpgf.Lib.Exec
/-!
# Runs that keep a record

A run with notes is a run that also writes down some of what it does. Leaving
the notes out gives back the run; what was noted stays noted when a run stops
without a result.
-/

namespace Libpgf

structure Noted (ι α : Type) where
  result : Exec α
  notes : List ι

namespace Noted
variable {ι α β : Type}

/-- A run that notes nothing. -/
def lift (x : Exec α) : Noted ι α := ⟨x, []⟩

protected def bind (x : Noted ι α) (f : α → Noted ι β) : Noted ι β :=
  match x.result with
  | .ok a => ⟨(f a).result, x.notes ++ (f a).notes⟩
  | .error e => ⟨.error e, x.notes⟩

instance : Monad (Noted ι) where
  pure a := lift (.ok a)
  bind := Noted.bind

instance : MonadLift (Except Halt) (Noted ι) where
  monadLift := lift

@[simp] theorem result_lift (x : Exec α) : (liftM x : Noted ι α).result = x := rfl

@[simp] theorem result_pure (a : α) : (pure a : Noted ι α).result = .ok a := rfl

@[simp] theorem result_bind (x : Noted ι α) (f : α → Noted ι β) : (x >>= f).result = x.result >>= fun a => (f a).result := by
  obtain ⟨r, notes⟩ := x
  cases r <;> rfl

/-- Every note has the property. -/
def All (p : ι → Prop) (x : Noted ι α) : Prop := ∀ i ∈ x.notes, p i

section All
variable {p : ι → Prop}

@[simp] theorem all_lift (x : Exec α) : (liftM x : Noted ι α).All p := fun _ h => by cases h

@[simp] theorem all_pure (a : α) : (pure a : Noted ι α).All p := fun _ h => by cases h

theorem all_bind {x : Noted ι α} {f : α → Noted ι β} :
    (x >>= f).All p ↔ x.All p ∧ ∀ a, x.result = .ok a → (f a).All p := by
  obtain ⟨r, notes⟩ := x
  cases r with
  | error e =>
    show (∀ i ∈ notes, p i) ↔ (∀ i ∈ notes, p i) ∧ _
    simp
  | ok a =>
    show (∀ i ∈ notes ++ (f a).notes, p i) ↔ (∀ i ∈ notes, p i) ∧ _
    simp only [List.mem_append, or_imp, forall_and, Except.ok.injEq, forall_eq']
    rfl

/-- The notes of a run that begins without any are those of what follows. -/
theorem all_lift_bind {x : Exec α} {f : α → Noted ι β} :
    ((liftM x : Noted ι α) >>= f).All p ↔ ∀ a, x = .ok a → (f a).All p := by
  rw [all_bind]
  exact and_iff_right (all_lift x)

end All

end Noted

end Libpgf
