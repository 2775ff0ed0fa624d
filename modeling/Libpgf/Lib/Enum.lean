import Libpgf.Lib.Exec
/-!
# Enumerations

An enumeration is a function that returns the next value, or nothing, and its
new state. What matters is what a sequence of calls returns.
-/

namespace Libpgf

section Calls
variable {σ β : Type} (next : σ → Exec (Option β × σ))

/-- What the first `m` calls return. -/
def calls : Nat → σ → Exec (List (Option β))
  | 0, _ => .ok []
  | m + 1, s => do
    let (b, s) ← next s
    let bs ← calls m s
    return b :: bs

/-- The calls return the values, and then nothing for the first time. -/
def Yields (s : σ) (bs : List β) : Prop := calls next (bs.length + 1) s = .ok (bs.map some ++ [none])

/-- The calls return the values, then nothing, and nothing ever after. -/
def EndsAfter (s : σ) (bs : List β) : Prop := ∀ m, calls next m s = .ok ((bs.map some ++ List.replicate m none).take m)

end Calls

section Laws
variable {σ β : Type} {next : σ → Exec (Option β × σ)}

/-- One more `none` at the end makes no difference to the first `m` calls. -/
theorem take_padded (m : Nat) (bs : List (Option β)) :
    (bs ++ List.replicate m none).take m = (bs ++ List.replicate (m + 1) none).take m := by
  have hm : m ≤ (bs ++ List.replicate m none).length := by
    rw [List.length_append, List.length_replicate]
    omega
  rw [List.replicate_succ', ← List.append_assoc, List.take_append_of_le_length hm]

namespace Yields

theorem nil {s s' : σ} (h : next s = .ok (none, s')) : Yields next s [] := by
  simp [Yields, calls, h]

theorem cons {s s' : σ} {b : β} {bs : List β} (h : next s = .ok (some b, s')) (h' : Yields next s' bs) :
    Yields next s (b :: bs) := by
  have h' : calls next (bs.length + 1) s' = .ok (bs.map some ++ [none]) := h'
  rw [Yields, List.length_cons, calls, h]
  simp only [Exec.ok_bind, h', Exec.pure_eq, List.map_cons, List.cons_append]

theorem head {s : σ} {bs : List β} (h : Yields next s bs) : ∃ s', next s = .ok (bs.head?, s') ∧ (bs ≠ [] → Yields next s' bs.tail) := by
  obtain ⟨⟨b, s'⟩, hb, h⟩ := Exec.bind_ok.1 h
  obtain ⟨rest, hrest, h⟩ := Exec.bind_ok.1 h
  simp only [Exec.pure_eq, Except.ok.injEq] at h
  cases bs with
  | nil =>
    simp only [List.map_nil, List.nil_append, List.cons.injEq] at h
    rw [h.1] at hb
    exact ⟨s', hb, fun hne => absurd rfl hne⟩
  | cons c bs =>
    simp only [List.map_cons, List.cons_append, List.cons.injEq] at h
    obtain ⟨rfl, rfl⟩ := h
    exact ⟨s', hb, fun _ => hrest⟩

theorem unique {s : σ} {bs bs' : List β} (h : Yields next s bs) (h' : Yields next s bs') : bs = bs' := by
  induction bs generalizing s bs' with
  | nil =>
    obtain ⟨s₁, h₁, -⟩ := h.head
    obtain ⟨s₂, h₂, -⟩ := h'.head
    rw [h₁] at h₂
    simp only [List.head?_nil, Except.ok.injEq, Prod.mk.injEq] at h₂
    exact (List.head?_eq_none_iff.1 h₂.1.symm).symm
  | cons b bs ih =>
    obtain ⟨s₁, h₁, hrest⟩ := h.head
    obtain ⟨s₂, h₂, hrest'⟩ := h'.head
    rw [h₁] at h₂
    simp only [List.head?_cons, Except.ok.injEq, Prod.mk.injEq] at h₂
    obtain ⟨hb, rfl⟩ := h₂
    cases bs' with
    | nil => simp at hb
    | cons b' bs' =>
      simp only [List.head?_cons, Option.some.injEq] at hb
      rw [hb, ih (hrest (by simp)) (hrest' (by simp)), List.tail_cons]

end Yields

namespace EndsAfter

theorem nil {s : σ} (h : next s = .ok (none, s)) : EndsAfter next s [] := by
  intro m
  induction m with
  | zero => rfl
  | succ m ih =>
    simp only [calls, h, Exec.ok_bind, ih]
    simp [List.replicate_succ]

theorem cons {s s' : σ} {b : β} {bs : List β} (h : next s = .ok (some b, s')) (h' : EndsAfter next s' bs) :
    EndsAfter next s (b :: bs) := by
  intro m
  cases m with
  | zero => rfl
  | succ m =>
    simp only [calls, h, Exec.ok_bind, h' m, List.map_cons, List.cons_append, List.take_succ_cons, Exec.pure_eq, Except.ok.injEq,
      List.cons.injEq, true_and]
    exact take_padded m _

/-- What the first call returns, and what is left for the others. -/
theorem call {s : σ} {bs : List β} (h : EndsAfter next s bs) :
    ∃ s', next s = .ok (bs.head?, s') ∧ EndsAfter next s' bs.tail := by
  obtain ⟨⟨b, s'⟩, hb, h1⟩ := Exec.bind_ok.1 (h 1)
  have hhead : b = bs.head? := by
    simp only [calls, Exec.ok_bind, Exec.pure_eq, Except.ok.injEq] at h1
    cases bs with
    | nil => simpa using h1
    | cons c cs => simpa using h1
  refine ⟨s', hhead ▸ hb, fun m => ?_⟩
  have hm := h (m + 1)
  simp only [calls, hb, Exec.ok_bind] at hm
  obtain ⟨rest, hrest, he⟩ := Exec.bind_ok.1 hm
  simp only [Exec.pure_eq, Except.ok.injEq] at he
  rw [hrest, Except.ok.injEq]
  cases bs with
  | nil =>
    simp only [List.map_nil, List.nil_append, List.replicate_succ, List.take_succ_cons, List.cons.injEq] at he
    simpa using he.2
  | cons c cs =>
    simp only [List.map_cons, List.cons_append, List.take_succ_cons, List.cons.injEq] at he
    rw [he.2, List.tail_cons, take_padded]

/-- An enumeration returns one list of values. -/
theorem unique {s : σ} {bs bs' : List β} (h : EndsAfter next s bs) (h' : EndsAfter next s bs') : bs = bs' := by
  induction bs generalizing s bs' with
  | nil =>
    obtain ⟨s₁, hs₁, -⟩ := h.call
    obtain ⟨s₂, hs₂, -⟩ := h'.call
    rw [hs₁] at hs₂
    simp only [List.head?_nil, Except.ok.injEq, Prod.mk.injEq] at hs₂
    exact (List.head?_eq_none_iff.1 hs₂.1.symm).symm
  | cons b bs ih =>
    obtain ⟨s₁, hs₁, h₁⟩ := h.call
    obtain ⟨s₂, hs₂, h₂⟩ := h'.call
    rw [hs₁] at hs₂
    simp only [List.head?_cons, Except.ok.injEq, Prod.mk.injEq] at hs₂
    obtain ⟨hb, rfl⟩ := hs₂
    cases bs' with
    | nil => simp at hb
    | cons b' bs' =>
      simp only [List.head?_cons, Option.some.injEq] at hb
      rw [hb, ih h₁ h₂, List.tail_cons]

/-- An enumeration that ends yields its values. -/
theorem yields {s : σ} {bs : List β} (h : EndsAfter next s bs) : Yields next s bs := by
  rw [Yields, h (bs.length + 1), List.take_append, List.length_map, Nat.add_sub_cancel_left,
    List.take_of_length_le (by rw [List.length_map]; exact Nat.le_succ _)]
  simp [List.take_replicate]

end EndsAfter
end Laws

end Libpgf
