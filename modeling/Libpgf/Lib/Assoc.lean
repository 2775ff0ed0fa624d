import Mathlib
/-!
# Finite maps as lists of entries

A finite map whose keys are compared by an equivalence: a list of entries, where
no two keys are equal. The order of the entries does not matter.
-/

namespace Libpgf

namespace Assoc
variable {K V : Type} (eq : K → K → Bool)

/-- The entry of a key. -/
def entry (l : List (K × V)) (k : K) : Option (K × V) := l.find? fun e => eq k e.1

/-- No two keys are equal. -/
def Distinct (l : List (K × V)) : Prop := l.Pairwise fun e e' => eq e.1 e'.1 = false

/-- A new key gets the value; a key that is there keeps its own. -/
def insert (l : List (K × V)) (k : K) (v : V) : List (K × V) := if (entry eq l k).isSome then l else (k, v) :: l

/-- The key's value is replaced. -/
def write (l : List (K × V)) (k : K) (v : V) : List (K × V) := l.map fun e => if eq k e.1 then (e.1, v) else e

/-- What the keys are compared by. -/
structure Equiv (eq : K → K → Bool) : Prop where
  refl : ∀ k, eq k k = true
  symm : ∀ {k k'}, eq k k' = true → eq k' k = true
  trans : ∀ {a b c}, eq a b = true → eq b c = true → eq a c = true

section Entries
variable {eq} {l l' : List (K × V)} {k k' : K} {v : V} {e : K × V}

theorem entry_mem (h : entry eq l k = some e) : e ∈ l := List.mem_of_find?_eq_some h

theorem entry_key (h : entry eq l k = some e) : eq k e.1 = true := List.find?_some (p := fun e : K × V => eq k e.1) h

theorem entry_none : entry eq l k = none ↔ ∀ e ∈ l, eq k e.1 = false := by
  rw [entry, List.find?_eq_none]
  simp only [Bool.not_eq_true]

theorem Equiv.comm (heq : Equiv eq) : eq k k' = eq k' k := by
  rw [Bool.eq_iff_iff]
  exact ⟨heq.symm, heq.symm⟩

theorem Equiv.left (heq : Equiv eq) (h : eq k k' = true) (c : K) : eq k c = eq k' c := by
  rw [Bool.eq_iff_iff]
  exact ⟨heq.trans (heq.symm h), heq.trans h⟩

theorem Distinct.entry_iff (hl : Distinct eq l) (heq : Equiv eq) : entry eq l k = some e ↔ e ∈ l ∧ eq k e.1 = true := by
  constructor
  · intro h
    exact ⟨entry_mem h, entry_key h⟩
  · rintro ⟨he, hk⟩
    induction l with
    | nil => cases he
    | cons x l ih =>
      obtain ⟨hx, hrest⟩ := List.pairwise_cons.1 hl
      rcases List.mem_cons.1 he with rfl | he
      · exact List.find?_cons_of_pos hk
      · have hne : eq k x.1 = false := by
          rw [heq.left hk, heq.comm]
          exact hx e he
        rw [entry, List.find?_cons_of_neg (by rw [hne]; exact Bool.false_ne_true)]
        exact ih hrest he

theorem Distinct.perm (hl : Distinct eq l) (heq : Equiv eq) (hp : l.Perm l') : Distinct eq l' :=
  hp.pairwise hl fun {e e'} h => by rw [heq.comm]; exact h

/-- The entries in another order are the same map. -/
theorem Distinct.entry_perm (hl : Distinct eq l) (heq : Equiv eq) (hp : l.Perm l') (k : K) : entry eq l k = entry eq l' k := by
  refine Option.ext fun e => ?_
  rw [hl.entry_iff heq, (hl.perm heq hp).entry_iff heq, hp.mem_iff]

theorem insert_perm (hl : Distinct eq l) (heq : Equiv eq) (hp : l.Perm l') (k : K) (v : V) :
    (insert eq l k v).Perm (insert eq l' k v) := by
  unfold insert
  rw [hl.entry_perm heq hp]
  split
  · exact hp
  · exact hp.cons _

theorem write_perm (hp : l.Perm l') (k : K) (v : V) : (write eq l k v).Perm (write eq l' k v) := hp.map _

/-- No entry has the key. -/
theorem write_absent (hk : entry eq l k = none) (v : V) : write eq l k v = l := by
  rw [write, List.map_congr_left fun e he => if_neg (by rw [entry_none.1 hk e he]; exact Bool.false_ne_true), List.map_id']

theorem write_head (hk : entry eq l k = none) (h : eq k k' = true) (v v' : V) : write eq ((k', v) :: l) k v' = (k', v') :: l := by
  have hrest := write_absent hk v'
  unfold write at hrest ⊢
  rw [List.map_cons, hrest, if_pos h]

theorem length_write (k : K) (v : V) : (write eq l k v).length = l.length := List.length_map _

end Entries

end Assoc

end Libpgf
