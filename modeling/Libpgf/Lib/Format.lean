import Libpgf.Lib.Exec
/-!
# Formats and their readers

A format says which items stand for which value. A reader works on a state that
has the items that are to come, and raises an error in it where they are not
those of the format: its caller looks there before it reads on.
-/

namespace Libpgf

variable {S β α γ : Type}

/-- The items stand for the value. -/
abbrev Format (β α : Type) : Type := List β → α → Prop

namespace Format

def nothing (a : α) : Format β α := fun bs a' => bs = [] ∧ a' = a

def never : Format β α := fun _ _ => False

/-- One after the other. -/
def andThen (F : Format β α) (G : α → Format β γ) : Format β γ := fun bs c => ∃ bs₁ bs₂ a, bs = bs₁ ++ bs₂ ∧ F bs₁ a ∧ G a bs₂ c

/-- So many values, one after the other. -/
def each (F : Format β α) : Nat → Format β (List α)
  | 0 => nothing []
  | n + 1 => F.andThen fun a => (each F n).andThen fun as => nothing (a :: as)

end Format

/-- What the states of a reader hold. -/
structure ReaderStates (S β : Type) where
  /-- No error is raised. -/
  ok : S → Bool
  /-- The items are to come, and no error is raised. -/
  At : S → List β → Prop
  at_ok : ∀ {s rem}, At s rem → ok s = true

/-- Reads on if no error is raised. The value is not looked at otherwise. -/
def thenRead [Inhabited γ] (ok : S → Bool) (read : S → Exec (α × S)) (next : α → S → Exec (γ × S)) (s : S) : Exec (γ × S) :=
  read s >>= fun r => if !ok r.2 then .ok (default, r.2) else next r.1 r.2

def readEach [Inhabited α] (ok : S → Bool) (read : S → Exec (α × S)) : Nat → S → Exec (List α × S)
  | 0 => fun s => .ok ([], s)
  | n + 1 => thenRead ok read fun a => thenRead ok (readEach ok read n) fun as s => .ok (a :: as, s)

/-- The reader returns the values of the format, and raises an error if the items end too early or are others. -/
structure ReadsFormat (L : ReaderStates S β) (read : S → Exec (α × S)) (F : Format β α) : Prop where
  whole : ∀ {s bs rest a}, L.At s (bs ++ rest) → F bs a → ∃ s', read s = .ok (a, s') ∧ L.At s' rest
  cut : ∀ {s pre more a}, L.At s pre → F (pre ++ more) a → more ≠ [] → ∃ a' s', read s = .ok (a', s') ∧ L.ok s' = false
  only : ∀ {s rem a s'}, L.At s rem → read s = .ok (a, s') → L.ok s' = false ∨ ∃ bs rest, rem = bs ++ rest ∧ F bs a ∧ L.At s' rest

/-- What breaks off in two parts breaks off in the first, or in the second. -/
theorem broken_off {bs₁ bs₂ pre more : List β} (h : bs₁ ++ bs₂ = pre ++ more) (hmore : more ≠ []) :
    (∃ pre', pre = bs₁ ++ pre' ∧ bs₂ = pre' ++ more) ∨ ∃ more', bs₁ = pre ++ more' ∧ more' ≠ [] := by
  rcases List.append_eq_append_iff.1 h with ⟨pre', rfl, rfl⟩ | ⟨more', rfl, rfl⟩
  · exact .inl ⟨pre', rfl, rfl⟩
  · by_cases hnil : more' = []
    · subst hnil
      exact .inl ⟨[], by simp, rfl⟩
    · exact .inr ⟨more', rfl, hnil⟩

namespace ReadsFormat
variable {L : ReaderStates S β} {read : S → Exec (α × S)} {F : Format β α} {next : α → S → Exec (γ × S)} {G : α → Format β γ}

theorem nothing (a : α) : ReadsFormat L (fun s => .ok (a, s)) (.nothing a) where
  whole := by
    rintro s _ rest _ hs ⟨rfl, rfl⟩
    exact ⟨s, rfl, hs⟩
  cut := by
    rintro s pre more _ - ⟨hnil, -⟩ hmore
    exact absurd (List.append_eq_nil_iff.1 hnil).2 hmore
  only := by
    rintro s rem _ _ hs ⟨⟩
    exact .inr ⟨[], rem, rfl, ⟨rfl, rfl⟩, hs⟩

/-- A reader that raises an error whatever comes. -/
theorem never (h : ∀ s, ∃ a s', read s = .ok (a, s') ∧ L.ok s' = false) : ReadsFormat L read .never where
  whole := by
    rintro s bs rest a - ⟨⟩
  cut := by
    rintro s pre more a - ⟨⟩
  only := by
    intro s rem a s' _ hrun
    obtain ⟨a', s'', hrun', hraised⟩ := h s
    rw [hrun] at hrun'
    cases hrun'
    exact .inl hraised

/-- Formats with the same values have the same readers. -/
theorem congr {F' : Format β α} (h : ReadsFormat L read F) (he : ∀ bs a, F bs a ↔ F' bs a) : ReadsFormat L read F' where
  whole hs hF := h.whole hs ((he _ _).2 hF)
  cut hs hF hmore := h.cut hs ((he _ _).2 hF) hmore
  only hs hrun := by
    rcases h.only hs hrun with hraised | ⟨bs, rest, hrem, hF, hs'⟩
    · exact .inl hraised
    · exact .inr ⟨bs, rest, hrem, (he _ _).1 hF, hs'⟩

theorem then_ok [Inhabited γ] {s s' : S} {a : α} (hrun : read s = .ok (a, s')) (hok : L.ok s' = true) :
    thenRead L.ok read next s = next a s' := by
  unfold thenRead
  rw [hrun, Exec.ok_bind, hok]
  rfl

theorem then_raised [Inhabited γ] {s s' : S} {a : α} (hrun : read s = .ok (a, s')) (hok : L.ok s' = false) :
    thenRead L.ok read next s = .ok (default, s') := by
  unfold thenRead
  rw [hrun, Exec.ok_bind, hok]
  rfl

theorem andThen [Inhabited γ] (h : ReadsFormat L read F) (h' : ∀ a, ReadsFormat L (next a) (G a)) :
    ReadsFormat L (thenRead L.ok read next) (F.andThen G) where
  whole := by
    rintro s _ rest c hs ⟨bs₁, bs₂, a, rfl, hF, hG⟩
    rw [List.append_assoc] at hs
    obtain ⟨s₁, hrun, hs₁⟩ := h.whole hs hF
    obtain ⟨s', hrun', hs'⟩ := (h' a).whole hs₁ hG
    exact ⟨s', (then_ok hrun (L.at_ok hs₁)).trans hrun', hs'⟩
  cut := by
    rintro s pre more c hs ⟨bs₁, bs₂, a, heq, hF, hG⟩ hmore
    rcases broken_off heq.symm hmore with ⟨pre', rfl, rfl⟩ | ⟨more', rfl, hmore'⟩
    · obtain ⟨s₁, hrun, hs₁⟩ := h.whole hs hF
      obtain ⟨c', s', hrun', hraised⟩ := (h' a).cut hs₁ hG hmore
      exact ⟨c', s', (then_ok hrun (L.at_ok hs₁)).trans hrun', hraised⟩
    · obtain ⟨a', s', hrun, hraised⟩ := h.cut hs hF hmore'
      exact ⟨default, s', then_raised hrun hraised, hraised⟩
  only := by
    intro s rem c s' hs hrun
    obtain ⟨⟨a, s₁⟩, hrun₁, hrun'⟩ := Exec.bind_ok.1 hrun
    rcases h.only hs hrun₁ with hraised | ⟨bs₁, rest₁, rfl, hF, hs₁⟩
    · rw [then_raised hrun₁ hraised] at hrun
      cases hrun
      exact .inl hraised
    · rw [then_ok hrun₁ (L.at_ok hs₁)] at hrun
      rcases (h' a).only hs₁ hrun with hraised | ⟨bs₂, rest, rfl, hG, hs'⟩
      · exact .inl hraised
      · exact .inr ⟨bs₁ ++ bs₂, rest, (List.append_assoc _ _ _).symm, ⟨bs₁, bs₂, a, rfl, hF, hG⟩, hs'⟩

theorem each [Inhabited α] (h : ReadsFormat L read F) (n : Nat) : ReadsFormat L (readEach L.ok read n) (F.each n) := by
  induction n with
  | zero => exact nothing []
  | succ n ih => exact h.andThen fun a => ih.andThen fun as => nothing (a :: as)

/-- No items stand for two values, or begin others that stand for one. -/
theorem unique (h : ReadsFormat L read F) {s : S} {bs₁ bs₂ rest₁ : List β} {a₁ a₂ : α} (hs : L.At s bs₁) (h₁ : F bs₁ a₁) (h₂ : F bs₂ a₂)
    (heq : bs₁ ++ rest₁ = bs₂) : a₁ = a₂ ∧ bs₁ = bs₂ := by
  have hall : L.At s (bs₁ ++ []) := by rwa [List.append_nil]
  obtain ⟨s₁, hrun₁, hs₁⟩ := h.whole hall h₁
  by_cases hnil : rest₁ = []
  · subst hnil
    rw [List.append_nil] at heq
    subst heq
    obtain ⟨s₂, hrun₂, -⟩ := h.whole hall h₂
    rw [hrun₁] at hrun₂
    cases hrun₂
    exact ⟨rfl, rfl⟩
  · subst heq
    obtain ⟨a', s', hrun', hraised⟩ := h.cut hs h₂ hnil
    rw [hrun₁] at hrun'
    cases hrun'
    rw [L.at_ok hs₁] at hraised
    cases hraised

end ReadsFormat

end Libpgf
