import Libpgf.Lib.Exec
/-!
# Functions that are given enough fuel

A function that takes a bound on its recursion settles when all large bounds
give the same result.
-/

namespace Libpgf

variable {α β : Type}

/-- From some bound on, `f` comes to `r`. -/
def Settles (f : Nat → Exec α) (r : Exec α) : Prop := ∃ n, ∀ m, n ≤ m → f m = r

namespace Settles

variable {f g : Nat → Exec α} {r r' : Exec α}

theorem of_eq (h : ∀ m, f m = r) : Settles f r := ⟨0, fun m _ => h m⟩

theorem unique (h : Settles f r) (h' : Settles f r') : r = r' := by
  obtain ⟨n, h⟩ := h
  obtain ⟨n', h'⟩ := h'
  exact (h (max n n') (Nat.le_max_left _ _)).symm.trans (h' (max n n') (Nat.le_max_right _ _))

/-- The function spends one unit and goes on as `f`. -/
theorem succ (h : Settles f r) (hg : ∀ m, g (m + 1) = f m) : Settles g r := by
  obtain ⟨n, h⟩ := h
  refine ⟨n + 1, fun m hm => ?_⟩
  obtain ⟨k, rfl⟩ := Nat.exists_eq_add_of_le' (Nat.le_trans (Nat.le_add_left 1 n) hm)
  rw [hg, h k (by omega)]

theorem bind {h : Nat → α → Exec β} {a : α} {s : Exec β} (hf : Settles f (.ok a)) (hh : Settles (fun m => h m a) s) :
    Settles (fun m => f m >>= h m) s := by
  obtain ⟨n, hf⟩ := hf
  obtain ⟨n', hh⟩ := hh
  refine ⟨max n n', fun m hm => ?_⟩
  show f m >>= h m = s
  rw [hf m (by omega)]
  exact hh m (by omega)

theorem bind_error {h : Nat → α → Exec β} {e : Halt} (hf : Settles f (.error e)) : Settles (fun m => f m >>= h m) (.error e) := by
  obtain ⟨n, hf⟩ := hf
  refine ⟨n, fun m hm => ?_⟩
  show f m >>= h m = .error e
  rw [hf m hm, Exec.error_bind]

end Settles

/-- With enough fuel, `f` comes to a result. -/
def Terminates (f : Nat → Exec α) : Prop := ∃ r, Settles f r ∧ r ≠ .error .fuel

namespace Terminates

variable {f : Nat → Exec α}

theorem of_ok {a : α} (h : Settles f (.ok a)) : Terminates f := ⟨.ok a, h, by simp⟩

/-- Some amount of fuel is enough. -/
theorem returns (h : Terminates f) : ∃ n, f n ≠ .error .fuel := by
  obtain ⟨r, ⟨n, hn⟩, hr⟩ := h
  exact ⟨n, by rwa [hn n (Nat.le_refl n)]⟩

end Terminates

end Libpgf
