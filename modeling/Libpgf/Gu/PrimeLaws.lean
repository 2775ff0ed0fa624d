import Libpgf.Gu.MapLaws
/-!
# The prime searches find what they look for

Trial division over the wheel decides primality; the two searches walk over
the odd numbers, whose residue they track, and the twin searches may skip the
numbers that they skip.
-/

namespace Libpgf

def PrimeInt (p : Int) : Prop := p.toNat.Prime

instance : DecidablePred PrimeInt := fun p => Nat.decidablePrime p.toNat

/-- `p` is the upper one of two primes whose difference is 2. -/
def TwinPrime (p : Int) : Prop := PrimeInt p ∧ PrimeInt (p - 2)

instance : DecidablePred TwinPrime := fun _ => inferInstanceAs (Decidable (_ ∧ _))

/-- `p` is the greatest number up to `i` in `s`, or 0 when there is none. -/
def GreatestOr0 (s : Int → Prop) (i p : Int) : Prop := IsGreatest {q | s q ∧ q ≤ i} p ∨ p = 0 ∧ ∀ q ≤ i, ¬ s q

/-- The square from which on the search for the divisors of a prime does not fit. -/
def squareLimit : Int := 46320 * 46320

/-- The numbers up to `i` fit, and so do the searches for their divisors: those for the divisors of composite numbers end before. -/
def Searchable (i : Int) : Prop := i < 2 ^ 31 ∧ ∀ p, PrimeInt p → p ≤ i → p < squareLimit

theorem Searchable.mono {i j : Int} (h : Searchable i) (hji : j ≤ i) : Searchable j :=
  ⟨lt_of_le_of_lt hji h.1, fun p hp hpj => h.2 p hp (le_trans hpj hji)⟩

theorem searchable_of_lt {i : Int} (h : i < squareLimit) : Searchable i :=
  ⟨lt_trans h (by decide), fun _ _ hp => lt_of_le_of_lt hp h⟩

/-! ## Primes -/

theorem PrimeInt.two_le {p : Int} (h : PrimeInt p) : 2 ≤ p := by
  have := Nat.Prime.two_le h
  omega

theorem PrimeInt.not_dvd {p : Int} (h : PrimeInt p) {k : Int} (hk : 1 < k) (hlt : k < p) : ¬ k ∣ p := by
  intro hd
  have h2 := h.two_le
  lift p to ℕ using by omega
  lift k to ℕ using by omega
  rw [Int.natCast_dvd_natCast] at hd
  rcases (Nat.dvd_prime h).1 hd with h1 | h1
  · omega
  · rw [Int.toNat_natCast] at h1
    omega

/-- A prime above 2 is odd. -/
theorem PrimeInt.odd {p : Int} (h : PrimeInt p) (hp : 2 < p) : p % 2 = 1 := by
  have := h.not_dvd (by decide : (1 : Int) < 2) hp
  omega

theorem TwinPrime.five_le {p : Int} (h : TwinPrime p) : 5 ≤ p := by
  have h2 := h.2.two_le
  have hodd := h.1.odd (by omega)
  omega

/-- Every prime divisor of `u` is at least `d`. -/
def Rough (u d : Int) : Prop := ∀ p : ℕ, p.Prime → (p : Int) ∣ u → d ≤ p

theorem prime_of_rough {u d : Int} (hu : 1 < u) (hrough : Rough u d) (hd : u < d * d) (hd0 : 0 ≤ d) :
    PrimeInt u := by
  lift u to ℕ using by omega
  show (u : Int).toNat.Prime
  rw [Int.toNat_natCast]
  by_contra hn
  have hp := Nat.minFac_prime (n := u) (by omega)
  have hle := hrough u.minFac hp (Int.natCast_dvd_natCast.2 (Nat.minFac_dvd u))
  have hsq : u.minFac * u.minFac ≤ u := by
    rw [← pow_two]
    exact Nat.minFac_sq_le_self (by omega) hn
  have hmul : d * d ≤ (u.minFac : Int) * u.minFac := mul_le_mul hle hle hd0 (by omega)
  have : ((u.minFac * u.minFac : ℕ) : Int) ≤ u := Int.ofNat_le.2 hsq
  rw [Nat.cast_mul] at this
  omega

/-! ## Trial division -/

/-- What the wheel's mask says of a residue. -/
def onWheel (r : Int) : Bool := gu_prime_wheel_mask.testBit r.toNat

theorem wheel_eq {r : Int} (h0 : 0 ≤ r) (h : r < 30) : gu_prime_wheel r = .ok (onWheel r) := by
  unfold gu_prime_wheel Exec.require
  rw [if_pos ⟨h0, h⟩]
  rfl

theorem onWheel_iff {r : Int} (h0 : 0 ≤ r) (h : r < 30) : onWheel r = true ↔ r % 2 ≠ 0 ∧ r % 3 ≠ 0 ∧ r % 5 ≠ 0 := by
  have hall : ∀ n < 30, onWheel (n : ℕ) = true ↔ (n : Int) % 2 ≠ 0 ∧ (n : Int) % 3 ≠ 0 ∧ (n : Int) % 5 ≠ 0 := by decide
  lift r to ℕ using h0
  exact hall r (by omega)

theorem wheel_row_spec {u d : Int} (hd : 0 ≤ d) (hmax : d ≤ 46340) {is : List Int} (his : ∀ i ∈ is, 0 ≤ i ∧ i < 30) :
    gu_wheel_row u d is = .ok (decide (∃ i ∈ is, onWheel i = true ∧ d + i ∣ u)) := by
  induction is with
  | nil => simp [gu_wheel_row]
  | cons i is ih =>
    have hi := his i List.mem_cons_self
    have ih := ih fun j hj => his j (List.mem_cons_of_mem i hj)
    have hfit : Exec.int (d + i) = .ok (d + i) := Exec.int_ok (by omega) (by omega)
    unfold gu_wheel_row
    rw [wheel_eq hi.1 hi.2, Exec.ok_bind]
    by_cases hw : onWheel i = true
    · rw [if_pos hw, hfit, Exec.ok_bind]
      by_cases hz : u % (d + i) = 0
      · have hdvd : d + i ∣ u := Int.dvd_of_emod_eq_zero hz
        simp [hz, hw, hdvd]
      · have hdvd : ¬ d + i ∣ u := fun hd => hz (Int.emod_eq_zero_of_dvd hd)
        rw [if_neg hz, ih]
        simp [hdvd]
    · rw [if_neg hw, ih]
      simp [hw]

theorem offsets_range : ∀ i ∈ gu_wheel_offsets, 0 ≤ i ∧ i < 30 := by decide

theorem mem_offsets {i : Int} (h0 : 0 ≤ i) (h : i < 30) (hw : onWheel i = true) : i ∈ gu_wheel_offsets := by
  have hall : ∀ n < 30, onWheel (n : ℕ) = true → (n : Int) ∈ gu_wheel_offsets := by decide
  lift i to ℕ using h0
  exact hall i (by omega) hw

/-- A divisor of `u` has a residue on the wheel, when 2, 3 and 5 do not divide `u`. -/
theorem onWheel_of_dvd {u d q : Int} (hu : u % 2 ≠ 0 ∧ u % 3 ≠ 0 ∧ u % 5 ≠ 0) (hd : 30 ∣ d) (hq : q ∣ u) (hge : d ≤ q) (hlt : q < d + 30) :
    onWheel (q - d) = true := by
  rw [onWheel_iff (by omega) (by omega)]
  refine ⟨fun h => hu.1 ?_, fun h => hu.2.1 ?_, fun h => hu.2.2 ?_⟩
  · exact Int.emod_eq_zero_of_dvd (dvd_trans (by omega) hq)
  · exact Int.emod_eq_zero_of_dvd (dvd_trans (by omega) hq)
  · exact Int.emod_eq_zero_of_dvd (dvd_trans (by omega) hq)

/-- A row without a divisor raises the bound by 30. -/
theorem Rough.next {u d : Int} (hr : Rough u d) (hu : u % 2 ≠ 0 ∧ u % 3 ≠ 0 ∧ u % 5 ≠ 0) (hd : 30 ∣ d) {is : List Int}
    (his : ∀ i ∈ gu_wheel_offsets, onWheel i = true → 2 ≤ d + i → i ∈ is) (hrow : ¬ ∃ i ∈ is, onWheel i = true ∧ d + i ∣ u) :
    Rough u (d + 30) := by
  intro p hp hdvd
  have hge := hr p hp hdvd
  have h2 := hp.two_le
  by_contra hlt
  have hw := onWheel_of_dvd hu hd hdvd hge (by omega)
  have hmem := his _ (mem_offsets (by omega) (by omega) hw) hw (by omega)
  refine hrow ⟨p - d, hmem, hw, ?_⟩
  rwa [add_sub_cancel]

/-- What the rows from `d` on find out, if they return. -/
theorem wheel_rows_spec {u : Int} (h30 : 30 < u) (hu : u % 2 ≠ 0 ∧ u % 3 ≠ 0 ∧ u % 5 ≠ 0) {n : Nat} {d : Int} {b : Bool}
    (hd : 30 ∣ d) (hge : 30 ≤ d) (hr : Rough u d) (h : gu_wheel_rows u n d = .ok b) : b = decide (PrimeInt u) := by
  induction n generalizing d with
  | zero => simp [gu_wheel_rows] at h
  | succ n ih =>
    unfold gu_wheel_rows at h
    obtain ⟨square, hsquare, h⟩ := Exec.bind_ok.1 h
    obtain ⟨rfl, hfit⟩ := Exec.of_int_ok hsquare
    by_cases hle : d * d ≤ u
    · have hd46 : d ≤ 46340 := by nlinarith
      have hfit' : Exec.int (d + 30) = .ok (d + 30) := Exec.int_ok (by omega) (by omega)
      rw [if_pos hle, wheel_row_spec (by omega) hd46 offsets_range, Exec.ok_bind] at h
      by_cases hrow : ∃ i ∈ gu_wheel_offsets, onWheel i = true ∧ d + i ∣ u
      · have hnot : ¬ PrimeInt u := by
          obtain ⟨i, hi, _, hdvd⟩ := hrow
          have hirange := offsets_range i hi
          intro hp
          exact hp.not_dvd (by omega) (by nlinarith) hdvd
        rw [if_pos (decide_eq_true hrow)] at h
        cases h
        exact (decide_eq_false hnot).symm
      · simp only [hrow, decide_false, Bool.false_eq_true, if_false, hfit', Exec.ok_bind] at h
        exact ih (by omega) (by omega) (hr.next hu hd (fun i hi _ _ => hi) hrow) h
    · have hp := prime_of_rough (by omega) hr (by omega) (by omega)
      rw [if_neg hle] at h
      cases h
      exact (decide_eq_true hp).symm

/-- The rows end: a number without small divisors is prime. -/
theorem wheel_rows_returns {u : Int} (h30 : 30 < u) (hu : u % 2 ≠ 0 ∧ u % 3 ≠ 0 ∧ u % 5 ≠ 0) (hmax : Searchable u) {n : Nat} {d : Int}
    (hd : 30 ∣ d) (hge : 30 ≤ d) (hr : Rough u d) (hsq : (d - 30) * (d - 30) ≤ u) (h0 : 0 < n) (hn : u < d + n) :
    ∃ b, gu_wheel_rows u n d = .ok b := by
  induction n generalizing d with
  | zero => exact absurd h0 (Nat.lt_irrefl 0)
  | succ n ih =>
    have hlt := hmax.1
    have hd46 : d ≤ 46320 := by
      by_contra hlarge
      have hd46350 : 46350 ≤ d := by omega
      have hp := prime_of_rough (by omega) hr (by nlinarith) (by omega)
      have hsmall := hmax.2 u hp (le_refl u)
      unfold squareLimit at hsmall
      nlinarith
    have hfit : Exec.int (d * d) = .ok (d * d) := Exec.int_ok (by nlinarith) (by nlinarith)
    unfold gu_wheel_rows
    rw [hfit, Exec.ok_bind]
    by_cases hle : d * d ≤ u
    · have hfit' : Exec.int (d + 30) = .ok (d + 30) := Exec.int_ok (by omega) (by omega)
      have hdu : d < u := by nlinarith
      rw [if_pos hle, wheel_row_spec (by omega) (by omega) offsets_range, Exec.ok_bind, hfit', Exec.ok_bind]
      by_cases hrow : ∃ i ∈ gu_wheel_offsets, onWheel i = true ∧ d + i ∣ u
      · exact ⟨false, by rw [if_pos (decide_eq_true hrow)]; rfl⟩
      · obtain ⟨b, hb⟩ := ih (d := d + 30) (by omega) (by omega) (hr.next hu hd (fun i hi _ _ => hi) hrow)
          (by rwa [add_sub_cancel_right]) (by omega) (by push_cast at hn; omega)
        exact ⟨b, by rw [decide_eq_false hrow, if_neg Bool.false_ne_true, hb]⟩
    · exact ⟨true, if_neg hle⟩

theorem drop_offsets_range : ∀ i ∈ gu_wheel_offsets.drop 3, 0 ≤ i ∧ i < 30 := by decide

theorem is_wheel_prime_spec {u : Int} {b : Bool} (h : gu_is_wheel_prime u = .ok b) : b = decide (PrimeInt u) := by
  have hseven : ∀ i ∈ gu_wheel_offsets.drop 3, 7 ≤ i := by decide
  have hkept : ∀ i ∈ gu_wheel_offsets, onWheel i = true → 2 ≤ 0 + i → i ∈ gu_wheel_offsets.drop 3 := by decide
  have hrough : Rough u 0 := fun p _ _ => by omega
  unfold gu_is_wheel_prime at h
  obtain ⟨_, hreq, h⟩ := Exec.bind_ok.1 h
  obtain ⟨h30, hu⟩ := Exec.require_ok.1 hreq
  rw [wheel_row_spec (by omega) (by omega) drop_offsets_range, Exec.ok_bind] at h
  by_cases hrow : ∃ i ∈ gu_wheel_offsets.drop 3, onWheel i = true ∧ 0 + i ∣ u
  · have hnot : ¬ PrimeInt u := by
      obtain ⟨i, hi, _, hdvd⟩ := hrow
      have hirange := drop_offsets_range i hi
      have hi7 := hseven i hi
      intro hp
      exact hp.not_dvd (by omega) (by omega) hdvd
    rw [if_pos (decide_eq_true hrow)] at h
    cases h
    exact (decide_eq_false hnot).symm
  · simp only [hrow, decide_false, Bool.false_eq_true, if_false] at h
    exact wheel_rows_spec h30 hu (by decide) (by decide) (hrough.next hu (by decide) hkept hrow) h

/-- Numbers above 30 without the divisors 2, 3 and 5. -/
theorem is_wheel_prime_eq {u : Int} (h30 : 30 < u) (hmax : Searchable u) (hu : u % 2 ≠ 0 ∧ u % 3 ≠ 0 ∧ u % 5 ≠ 0) :
    gu_is_wheel_prime u = .ok (decide (PrimeInt u)) := by
  have hlt := hmax.1
  have hkept : ∀ i ∈ gu_wheel_offsets, onWheel i = true → 2 ≤ 0 + i → i ∈ gu_wheel_offsets.drop 3 := by decide
  have hrough : Rough u 0 := fun p _ _ => by omega
  have hsteps : u < 30 + (intSteps : Nat) := by
    unfold intSteps
    omega
  obtain ⟨b, hb⟩ : ∃ b, gu_is_wheel_prime u = .ok b := by
    unfold gu_is_wheel_prime Exec.require
    rw [if_pos ⟨h30, hu⟩, Exec.ok_bind, wheel_row_spec (by omega) (by omega) drop_offsets_range, Exec.ok_bind]
    by_cases hrow : ∃ i ∈ gu_wheel_offsets.drop 3, onWheel i = true ∧ 0 + i ∣ u
    · exact ⟨false, by rw [if_pos (decide_eq_true hrow)]; rfl⟩
    · obtain ⟨b, hb⟩ := wheel_rows_returns h30 hu hmax (n := intSteps) (d := 30) (by decide) (by decide)
        (hrough.next hu (by decide) hkept hrow) (by omega) (by decide) hsteps
      exact ⟨b, by rw [decide_eq_false hrow, if_neg Bool.false_ne_true, hb]⟩
  rw [hb, is_wheel_prime_spec hb]

/-! ## The searches by one -/

/-- A number above 30 off the wheel is not prime. -/
theorem not_prime_of_residue {d : Int} (h30 : 30 < d) (hw : ¬ onWheel (d % 30) = true) : ¬ PrimeInt d := by
  intro hp
  have h2 := hp.not_dvd (by decide : (1 : Int) < 2) (by omega)
  have h3 := hp.not_dvd (by decide : (1 : Int) < 3) (by omega)
  have h5 := hp.not_dvd (by decide : (1 : Int) < 5) (by omega)
  exact hw ((onWheel_iff (by omega) (by omega)).2 (by omega))

/-- The loops stop at `d` when it is prime. -/
theorem prime_at_spec {d : Int} {b : Bool} (h30 : 30 < d) (h : gu_prime_at d (d % 30) = .ok b) : b = decide (PrimeInt d) := by
  unfold gu_prime_at at h
  rw [wheel_eq (by omega) (by omega), Exec.ok_bind] at h
  by_cases hw : onWheel (d % 30) = true
  · rw [if_pos hw] at h
    exact is_wheel_prime_spec h
  · rw [if_neg hw] at h
    cases h
    exact (decide_eq_false (not_prime_of_residue h30 hw)).symm

theorem prime_at_eq {d : Int} (h30 : 30 < d) (hmax : Searchable d) : gu_prime_at d (d % 30) = .ok (decide (PrimeInt d)) := by
  unfold gu_prime_at
  rw [wheel_eq (by omega) (by omega), Exec.ok_bind]
  by_cases hw : onWheel (d % 30) = true
  · have hres := (onWheel_iff (by omega) (by omega)).1 hw
    rw [if_pos hw]
    exact is_wheel_prime_eq h30 hmax (by omega)
  · rw [if_neg hw, decide_eq_false (not_prime_of_residue h30 hw)]
    rfl

/-- Above 30, `gu_is_prime` makes the test of the loops. -/
theorem is_prime_large {i : Int} (h30 : 30 ≤ i) : gu_is_prime i = gu_prime_at i (i % 30) := by
  unfold gu_is_prime gu_prime_at
  rw [if_neg (by omega), if_neg (by omega), wheel_eq (by omega) (by omega), Exec.ok_bind, Exec.ok_bind]
  cases onWheel (i % 30) <;> rfl

theorem is_prime_small {i : Int} (h30 : i < 31) : gu_is_prime i = .ok (decide (PrimeInt i)) := by
  by_cases h2 : i < 2
  · have hnot : ¬ PrimeInt i := by
      intro hp
      have := hp.two_le
      omega
    unfold gu_is_prime
    rw [if_pos h2, decide_eq_false hnot]
    rfl
  · have hall : ∀ n < 31, gu_is_prime (n : ℕ) = .ok (decide (PrimeInt (n : ℕ))) := by decide
    lift i to ℕ using by omega
    exact hall i (by omega)

theorem is_prime_spec {i : Int} {b : Bool} (h : gu_is_prime i = .ok b) : b = decide (PrimeInt i) := by
  by_cases h30 : i < 31
  · rw [is_prime_small h30] at h
    cases h
    rfl
  · rw [is_prime_large (by omega)] at h
    exact prime_at_spec (by omega) h

theorem is_prime_eq {i : Int} (hmax : Searchable i) : gu_is_prime i = .ok (decide (PrimeInt i)) := by
  by_cases h30 : i < 31
  · exact is_prime_small h30
  · rw [is_prime_large (by omega)]
    exact prime_at_eq (by omega) hmax

theorem small_prime_spec {i : Int} (h0 : 0 ≤ i) (h : i < 32) : gu_small_prime i = decide (PrimeInt i) := by
  have hall : ∀ n < 32, gu_small_prime (n : ℕ) = decide (PrimeInt (n : ℕ)) := by decide
  lift i to ℕ using h0
  exact hall i (by omega)

/-- A number that is not prime is not what a search looks for. -/
theorem greatest_pred {i k p : Int} (h : IsGreatest {q | PrimeInt q ∧ q ≤ k} p) (hki : k ≤ i) (hskip : ∀ q, PrimeInt q → k < q → ¬ q ≤ i) :
    IsGreatest {q | PrimeInt q ∧ q ≤ i} p := by
  refine ⟨⟨h.1.1, le_trans h.1.2 hki⟩, ?_⟩
  intro q hq
  refine h.2 ⟨hq.1, not_lt.1 fun hlt => hskip q hq.1 hlt hq.2⟩

theorem least_succ {i k p : Int} (h : IsLeast {q | PrimeInt q ∧ k ≤ q} p) (hik : i ≤ k) (hskip : ∀ q, PrimeInt q → q < k → ¬ i ≤ q) :
    IsLeast {q | PrimeInt q ∧ i ≤ q} p := by
  refine ⟨⟨h.1.1, le_trans hik h.1.2⟩, ?_⟩
  intro q hq
  refine h.2 ⟨hq.1, not_lt.1 fun hlt => hskip q hq.1 hlt hq.2⟩

theorem small_prime_inf_spec {n : Nat} {i : Int} (h2 : 2 ≤ i) (h32 : i < 32) (hn : i < 2 + n) :
    ∃ p, gu_small_prime_inf n i = .ok p ∧ IsGreatest {q | PrimeInt q ∧ q ≤ i} p := by
  induction n generalizing i with
  | zero => omega
  | succ n ih =>
    unfold gu_small_prime_inf
    rw [small_prime_spec (by omega) h32]
    by_cases hp : PrimeInt i
    · exact ⟨i, by simp [hp], ⟨hp, le_refl i⟩, fun q hq => hq.2⟩
    · have hi2 : i ≠ 2 := by
        rintro rfl
        exact hp (by decide)
      obtain ⟨p, hr, hg⟩ := ih (i := i - 1) (by omega) (by omega) (by omega)
      refine ⟨p, by simpa [hp] using hr, greatest_pred hg (by omega) ?_⟩
      intro q hq hlt hle
      obtain rfl : q = i := by omega
      exact hp hq

theorem small_prime_sup_spec {n : Nat} {i : Int} (h2 : 2 ≤ i) (h32 : i < 32) (hn : 32 < i + n + 1) :
    ∃ p, gu_small_prime_sup n i = .ok p ∧ IsLeast {q | PrimeInt q ∧ i ≤ q} p := by
  induction n generalizing i with
  | zero => omega
  | succ n ih =>
    unfold gu_small_prime_sup
    rw [small_prime_spec (by omega) h32]
    by_cases hp : PrimeInt i
    · exact ⟨i, by simp [hp], ⟨hp, le_refl i⟩, fun q hq => hq.2⟩
    · have hi31 : i ≠ 31 := by
        rintro rfl
        exact hp (by decide)
      obtain ⟨p, hr, hg⟩ := ih (i := i + 1) (by omega) (by omega) (by omega)
      refine ⟨p, by simpa [hp] using hr, least_succ hg (by omega) ?_⟩
      intro q hq hlt hle
      obtain rfl : q = i := by omega
      exact hp hq

theorem setOdd_eq {i : Int} (h : 0 ≤ i) : setOdd i = i + 1 - i % 2 := by
  lift i to ℕ using h
  unfold setOdd
  rw [Int.toNat_natCast]
  have hor : i ||| 1 = 2 * (i / 2) + 1 := by
    apply Nat.eq_of_testBit_eq
    intro j
    cases j with
    | zero => simp
    | succ j =>
      have hhalf : (2 * (i / 2) + 1) / 2 = i / 2 := by omega
      rw [Nat.testBit_or, Nat.testBit_succ i, Nat.testBit_succ 1, Nat.testBit_succ (2 * (i / 2) + 1), hhalf]
      simp
  omega

theorem prime_inf_loop_spec {n : Nat} {d r p : Int} (h30 : 30 < d) (hodd : d % 2 = 1) (hr : r = d % 30)
    (h : gu_prime_inf_loop n d r = .ok p) : IsGreatest {q | PrimeInt q ∧ q ≤ d} p := by
  induction n generalizing d r with
  | zero => simp [gu_prime_inf_loop] at h
  | succ n ih =>
    subst hr
    unfold gu_prime_inf_loop at h
    obtain ⟨b, hb, h⟩ := Exec.bind_ok.1 h
    obtain rfl := prime_at_spec h30 hb
    by_cases hp : PrimeInt d
    · rw [if_pos (decide_eq_true hp)] at h
      cases h
      exact ⟨⟨hp, le_refl _⟩, fun q hq => hq.2⟩
    · have h31 : d ≠ 31 := by
        rintro rfl
        exact hp (by decide)
      rw [decide_eq_false hp, if_neg Bool.false_ne_true] at h
      obtain ⟨d', hd', h⟩ := Exec.bind_ok.1 h
      obtain ⟨rfl, -⟩ := Exec.of_int_ok hd'
      refine greatest_pred (ih (by omega) (by omega) (by split <;> omega) h) (by omega) ?_
      intro q hq hlt hle
      have := hq.odd (by omega)
      obtain rfl : q = d := by omega
      exact hp hq

theorem prime_inf_loop_returns {n : Nat} {d r : Int} (h30 : 30 < d) (hmax : Searchable d) (hodd : d % 2 = 1) (hr : r = d % 30)
    (hn : d < 31 + n) : ∃ p, gu_prime_inf_loop n d r = .ok p := by
  induction n generalizing d r with
  | zero => omega
  | succ n ih =>
    subst hr
    unfold gu_prime_inf_loop
    rw [prime_at_eq h30 hmax, Exec.ok_bind]
    by_cases hp : PrimeInt d
    · exact ⟨d, by simp [hp]⟩
    · have h31 : d ≠ 31 := by
        rintro rfl
        exact hp (by decide)
      have hlt := hmax.1
      have hfit : Exec.int (d - 2) = .ok (d - 2) := Exec.int_ok (by omega) (by omega)
      obtain ⟨p, hp'⟩ := ih (d := d - 2) (r := if d % 30 - 2 < 0 then d % 30 - 2 + 30 else d % 30 - 2) (by omega)
        (hmax.mono (by omega)) (by omega) (by split <;> omega) (by omega)
      exact ⟨p, by simpa [hp, hfit] using hp'⟩

theorem prime_sup_loop_spec {n : Nat} {d r w : Int} (h30 : 30 < d) (hw : PrimeInt w) (hdw : d ≤ w) (hmax : Searchable w)
    (hodd : d % 2 = 1) (hr : r = d % 30) (hn : w < d + n) :
    ∃ p, gu_prime_sup_loop n d r = .ok p ∧ IsLeast {q | PrimeInt q ∧ d ≤ q} p := by
  induction n generalizing d r with
  | zero => omega
  | succ n ih =>
    subst hr
    unfold gu_prime_sup_loop
    rw [prime_at_eq h30 (hmax.mono hdw), Exec.ok_bind]
    by_cases hp : PrimeInt d
    · exact ⟨d, by simp [hp], ⟨hp, le_refl d⟩, fun q hq => hq.2⟩
    · have hne : d ≠ w := by
        rintro rfl
        exact hp hw
      have hwodd := hw.odd (by omega)
      have hlt := hmax.1
      have hfit : Exec.int (d + 2) = .ok (d + 2) := Exec.int_ok (by omega) (by omega)
      obtain ⟨p, hp', hg⟩ := ih (d := d + 2) (r := if d % 30 + 2 > 30 then d % 30 + 2 - 30 else d % 30 + 2) (by omega) (by omega)
        (by omega) (by split <;> omega) (by omega)
      refine ⟨p, by simpa [hp, hfit] using hp', least_succ hg (by omega) ?_⟩
      intro q hq hlt hle
      have := hq.odd (by omega)
      obtain rfl : q = d := by omega
      exact hp hq

theorem prime_inf_spec {i p : Int} (h : gu_prime_inf i = .ok p) : GreatestOr0 PrimeInt i p := by
  unfold gu_prime_inf at h
  by_cases h2 : i < 2
  · rw [if_pos h2] at h
    cases h
    refine .inr ⟨rfl, ?_⟩
    intro q hq hp
    have := hp.two_le
    omega
  by_cases h32 : i < 32
  · obtain ⟨p', hr, hg⟩ := small_prime_inf_spec (n := 32) (not_lt.1 h2) h32 (by omega)
    rw [if_neg h2, if_pos h32, hr] at h
    cases h
    exact .inl hg
  · have hd := setOdd_eq (i := i - 1) (by omega)
    rw [if_neg h2, if_neg h32] at h
    refine .inl (greatest_pred (prime_inf_loop_spec (by omega) (by omega) rfl h) (by omega) ?_)
    intro q hq hlt hle
    have := hq.odd (by omega)
    omega

theorem prime_inf_returns {i : Int} (hmax : Searchable i) : ∃ p, gu_prime_inf i = .ok p := by
  unfold gu_prime_inf
  by_cases h2 : i < 2
  · exact ⟨0, if_pos h2⟩
  by_cases h32 : i < 32
  · obtain ⟨p, hr, -⟩ := small_prime_inf_spec (n := 32) (not_lt.1 h2) h32 (by omega)
    exact ⟨p, by simpa [h2, h32] using hr⟩
  · have hd := setOdd_eq (i := i - 1) (by omega)
    have hlt := hmax.1
    have hsteps : i < 31 + (intSteps : Nat) := by
      unfold intSteps
      omega
    obtain ⟨p, hr⟩ := prime_inf_loop_returns (n := intSteps) (d := setOdd (i - 1)) (by omega) (hmax.mono (by omega)) (by omega) rfl (by omega)
    exact ⟨p, by simpa [h2, h32] using hr⟩

/-- The upward search returns when there is a prime for it to find. -/
theorem prime_sup_spec {i w : Int} (hw : PrimeInt w) (hiw : i ≤ w) (hmax : Searchable w) :
    ∃ p, gu_prime_sup i = .ok p ∧ IsLeast {q | PrimeInt q ∧ i ≤ q} p := by
  unfold gu_prime_sup
  by_cases h2 : i ≤ 2
  · exact ⟨2, if_pos h2, ⟨by decide, h2⟩, fun q hq => hq.1.two_le⟩
  by_cases h32 : i < 32
  · obtain ⟨p, hr, hg⟩ := small_prime_sup_spec (n := 32) (by omega) h32 (by omega)
    exact ⟨p, by simpa [h2, h32] using hr, hg⟩
  · have hd := setOdd_eq (i := i) (by omega)
    have hwodd := hw.odd (by omega)
    have hlt := hmax.1
    have hbound : w < i + (intSteps : Nat) := by
      unfold intSteps
      omega
    obtain ⟨p, hr, hg⟩ := prime_sup_loop_spec (n := intSteps) (d := setOdd i) (by omega) hw (by omega) hmax (by omega) rfl (by omega)
    refine ⟨p, by simpa [h2, h32] using hr, least_succ hg (by omega) ?_⟩
    intro q hq hlt hle
    have := hq.odd (by omega)
    omega

/-! ## The twin searches -/

theorem is_twin_prime_eq {i : Int} (hmax : Searchable i) : gu_is_twin_prime i = .ok (decide (TwinPrime i)) := by
  unfold gu_is_twin_prime
  rw [is_prime_eq hmax, Exec.ok_bind]
  by_cases hp : PrimeInt i
  · have h2 := hp.two_le
    have hlt := hmax.1
    have hfit : Exec.int (i - 2) = .ok (i - 2) := Exec.int_ok (by omega) (by omega)
    rw [if_pos (decide_eq_true hp), hfit, Exec.ok_bind, is_prime_eq (hmax.mono (by omega))]
    simp [TwinPrime, hp]
  · simp [TwinPrime, hp]

/-- Below a prime whose lower neighbour is not prime, the next candidate is 4 away. -/
theorem TwinPrime.below {q i p : Int} (h : TwinPrime q) (hp : IsGreatest {q | PrimeInt q ∧ q ≤ i} p) (hlow : ¬ PrimeInt (p - 2)) (hqi : q ≤ i) :
    q ≤ p - 4 := by
  have h5 := h.five_le
  have hle : q ≤ p := hp.2 ⟨h.1, hqi⟩
  have hqodd := h.1.odd (by omega)
  have hpodd := hp.1.1.odd (by omega)
  have hne : q ≠ p := by
    rintro rfl
    exact hlow h.2
  have hne' : q ≠ p - 2 := by
    rintro rfl
    exact hlow h.1
  omega

theorem TwinPrime.above {q i p : Int} (h : TwinPrime q) (hi : 2 < i) (hp : IsLeast {q | PrimeInt q ∧ i ≤ q} p) (hhigh : ¬ PrimeInt (p + 2))
    (hqi : i + 2 ≤ q) : p + 6 ≤ q := by
  have hge : p ≤ q - 2 := hp.2 ⟨h.2, by omega⟩
  have hpi : i ≤ p := hp.1.2
  have hqodd := h.1.odd (by omega)
  have hpodd := hp.1.1.odd (by omega)
  have hne : q ≠ p + 2 := by
    rintro rfl
    exact hhigh h.1
  have hne' : q ≠ p + 4 := by
    rintro rfl
    refine hhigh ?_
    have hlow := h.2
    rwa [show p + 4 - 2 = p + 2 by omega] at hlow
  omega

theorem twin_prime_inf_loop_spec {n : Nat} {i p : Int} (h : gu_twin_prime_inf_loop n i = .ok p) : GreatestOr0 TwinPrime i p := by
  induction n generalizing i with
  | zero => simp [gu_twin_prime_inf_loop] at h
  | succ n ih =>
    unfold gu_twin_prime_inf_loop at h
    obtain ⟨k, hk, h⟩ := Exec.bind_ok.1 h
    rcases prime_inf_spec hk with hg | ⟨rfl, hnone⟩
    · have h2 : 2 ≤ k := hg.1.1.two_le
      have hle : k ≤ i := hg.1.2
      rw [if_neg (by omega)] at h
      obtain ⟨j, hj, h⟩ := Exec.bind_ok.1 h
      obtain ⟨rfl, -⟩ := Exec.of_int_ok hj
      obtain ⟨b, hb, h⟩ := Exec.bind_ok.1 h
      obtain rfl := is_prime_spec hb
      by_cases hlow : PrimeInt (k - 2)
      · rw [if_pos (decide_eq_true hlow)] at h
        cases h
        refine .inl ⟨⟨⟨hg.1.1, hlow⟩, hle⟩, ?_⟩
        intro q hq
        exact hg.2 ⟨hq.1.1, hq.2⟩
      · rw [decide_eq_false hlow, if_neg Bool.false_ne_true] at h
        obtain ⟨j, hj, h⟩ := Exec.bind_ok.1 h
        obtain ⟨rfl, -⟩ := Exec.of_int_ok hj
        rcases ih h with hgt | ⟨rfl, hnone⟩
        · refine .inl ⟨⟨hgt.1.1, le_trans hgt.1.2 (by omega)⟩, ?_⟩
          intro q hq
          exact hgt.2 ⟨hq.1, hq.1.below hg hlow hq.2⟩
        · refine .inr ⟨rfl, ?_⟩
          intro q hq htwin
          exact hnone q (htwin.below hg hlow hq) htwin
    · cases h
      refine .inr ⟨rfl, ?_⟩
      intro q hq htwin
      exact hnone q hq htwin.1

theorem twin_prime_inf_loop_returns {n : Nat} {i : Int} (hmax : Searchable i) (h0 : 0 < n) (hn : i < n) :
    ∃ p, gu_twin_prime_inf_loop n i = .ok p := by
  induction n generalizing i with
  | zero => omega
  | succ n ih =>
    obtain ⟨p, hr⟩ := prime_inf_returns hmax
    unfold gu_twin_prime_inf_loop
    rw [hr, Exec.ok_bind]
    rcases prime_inf_spec hr with hg | ⟨rfl, -⟩
    · have h2 : 2 ≤ p := hg.1.1.two_le
      have hle : p ≤ i := hg.1.2
      have hlt := hmax.1
      have hfit : Exec.int (p - 2) = .ok (p - 2) := Exec.int_ok (by omega) (by omega)
      have hfit' : Exec.int (p - 4) = .ok (p - 4) := Exec.int_ok (by omega) (by omega)
      rw [if_neg (by omega), hfit, Exec.ok_bind, is_prime_eq (hmax.mono (by omega)), Exec.ok_bind]
      by_cases hlow : PrimeInt (p - 2)
      · exact ⟨p, by simp [hlow]⟩
      · obtain ⟨t, ht⟩ := ih (i := p - 4) (hmax.mono (by omega)) (by omega) (by omega)
        exact ⟨t, by simpa [hlow, hfit'] using ht⟩
    · exact ⟨0, rfl⟩

theorem twin_prime_sup_loop_spec {n : Nat} {i w : Int} (hi : 2 < i) (hw : TwinPrime w) (hiw : i + 2 ≤ w) (hmax : Searchable w) (hn : w < i + n) :
    ∃ p, gu_twin_prime_sup_loop n i = .ok p ∧ IsLeast {q | TwinPrime q ∧ i + 2 ≤ q} p := by
  induction n generalizing i with
  | zero => omega
  | succ n ih =>
    obtain ⟨p, hr, hg⟩ := prime_sup_spec (i := i) hw.2 (by omega) (hmax.mono (by omega))
    have hle : p ≤ w - 2 := hg.2 ⟨hw.2, by omega⟩
    have hip : i ≤ p := hg.1.2
    have hsmall : w < squareLimit := hmax.2 w hw.1 (le_refl w)
    have hlimit : squareLimit + 2 < 2 ^ 31 := by decide
    have hfit : Exec.int (p + 2) = .ok (p + 2) := Exec.int_ok (by omega) (by omega)
    have hfit' : Exec.int (p + 4) = .ok (p + 4) := Exec.int_ok (by omega) (by omega)
    unfold gu_twin_prime_sup_loop
    rw [hr, Exec.ok_bind, hfit, Exec.ok_bind, is_prime_eq (hmax.mono (by omega)), Exec.ok_bind]
    by_cases hhigh : PrimeInt (p + 2)
    · have htwin : TwinPrime (p + 2) := ⟨hhigh, by rw [add_sub_cancel_right]; exact hg.1.1⟩
      refine ⟨p + 2, by simp [hhigh], ⟨htwin, by omega⟩, ?_⟩
      intro q hq
      have hqi : i + 2 ≤ q := hq.2
      have : p ≤ q - 2 := hg.2 ⟨hq.1.2, by omega⟩
      omega
    · have hfar := hw.above hi hg hhigh hiw
      obtain ⟨t, ht, hgt⟩ := ih (i := p + 4) (by omega) (by omega) (by omega)
      refine ⟨t, by simpa [hhigh, hfit'] using ht, ⟨hgt.1.1, le_trans (by omega) hgt.1.2⟩, ?_⟩
      intro q hq
      have := hq.1.above hi hg hhigh hq.2
      exact hgt.2 ⟨hq.1, by omega⟩

/-- The upward search returns when there is a twin prime for it to find. -/
theorem twin_prime_sup_spec {i w : Int} (hw : TwinPrime w) (hiw : i ≤ w) (hmax : Searchable w) :
    ∃ p, gu_twin_prime_sup i = .ok p ∧ IsLeast {q | TwinPrime q ∧ i ≤ q} p := by
  unfold gu_twin_prime_sup
  by_cases h5 : i ≤ 5
  · exact ⟨5, if_pos h5, ⟨by decide, h5⟩, fun q hq => hq.1.five_le⟩
  · have hlt := hmax.1
    have hfit : Exec.int (i - 2) = .ok (i - 2) := Exec.int_ok (by omega) (by omega)
    obtain ⟨p, hp, hg⟩ := twin_prime_sup_loop_spec (n := intSteps) (i := i - 2) (by omega) hw (by omega) hmax (by unfold intSteps; omega)
    rw [sub_add_cancel] at hg
    exact ⟨p, by simpa [h5, hfit] using hp, hg⟩

/-! ## Table sizes -/

namespace GuMap
variable {K V : Type} {h : GuHasher K} {m : GuMap K V} {k : K}

/-- A table that `gu_map_resize` made has a twin prime size. -/
def Sized (m : GuMap K V) : Prop := TwinPrime m.n_entries

theorem resizedEntries_greatest {n : Nat} (hr : m.resizedEntries = .ok n) :
    ∃ room p, gu_twin_prime_inf (intOf room) = .ok p ∧ GreatestOr0 TwinPrime (intOf room) p ∧ n = p.toNat := by
  unfold resizedEntries at hr
  obtain ⟨_, -, hr⟩ := Exec.bind_ok.1 hr
  obtain ⟨room, -, hr⟩ := Exec.bind_ok.1 hr
  obtain ⟨p, hp, hr⟩ := Exec.bind_ok.1 hr
  cases hr
  exact ⟨room, p, hp, twin_prime_inf_loop_spec hp, rfl⟩

theorem resizedEntries_twin {n : Nat} (hr : m.resizedEntries = .ok n) (hn : 0 < n) : TwinPrime n := by
  obtain ⟨room, p, -, hg | ⟨rfl, -⟩, rfl⟩ := resizedEntries_greatest hr
  · have h5 := hg.1.1.five_le
    rw [Int.toNat_of_nonneg (by omega)]
    exact hg.1.1
  · cases hn

theorem intOf_lt (n : Nat) : intOf n < 2 ^ 31 := Int.bmod_lt (by decide)

theorem resizedEntries_lt {n : Nat} (hr : m.resizedEntries = .ok n) : n < 2 ^ 31 := by
  obtain ⟨room, p, -, hg | ⟨rfl, -⟩, rfl⟩ := resizedEntries_greatest hr
  · have hle := hg.1.2
    have hlt := intOf_lt room
    omega
  · decide

theorem store_n_entries {m' : GuMap K V} {i : Nat} (hs : m.store h k i = .ok m') : m'.n_entries = m.n_entries := by
  have hkeep : (m.stored k i).n_entries = m.n_entries := List.length_set
  unfold GuMap.store at hs
  dsimp only at hs
  split at hs
  · obtain ⟨_, -, hs⟩ := Exec.bind_ok.1 hs
    cases hs
    exact hkeep
  · cases hs
    exact hkeep

section Sizes
variable {P : Nat → Prop}

/-- What holds of every size that `gu_map_resize` chooses holds of the table's size. -/
theorem resize_size (hP : ∀ (m : GuMap K V) (n : Nat), m.resizedEntries = .ok n → 0 < n → P n)
    {insert : GuMap K V → K → Exec (GuMap K V × Nat)} {m' : GuMap K V}
    (hins : ∀ m k r, P m.n_entries → insert m k = .ok r → P r.1.n_entries) (hr : m.gu_map_resize h insert = .ok m') : P m'.n_entries := by
  unfold gu_map_resize at hr
  obtain ⟨n, hn, hr⟩ := Exec.bind_ok.1 hr
  obtain ⟨_, hreq, hr⟩ := Exec.bind_ok.1 hr
  have hocc := Exec.require_ok.1 hreq
  have hcleared : P (m.cleared h n).n_entries := by
    unfold n_entries cleared
    rw [List.length_replicate]
    exact hP m n hn (by omega)
  refine forEach_inv (P := fun m => P m.n_entries) ?_ hcleared hr
  intro i _ s s' hs hstep
  unfold reinsert at hstep
  split at hstep
  · cases hstep
    exact hs
  · obtain ⟨r, hr, hstep⟩ := Exec.bind_ok.1 hstep
    cases hstep
    exact hins _ _ _ hs hr

theorem insert_at_size (hP : ∀ (m : GuMap K V) (n : Nat), m.resizedEntries = .ok n → 0 < n → P n) (depth : Nat) {r : GuMap K V × Nat}
    (hm : P m.n_entries) (hr : m.gu_map_insert_at h depth k = .ok r) : P r.1.n_entries := by
  induction depth generalizing m k r with
  | zero => simp [gu_map_insert_at] at hr
  | succ depth ih =>
    unfold gu_map_insert_at at hr
    obtain ⟨⟨found, i⟩, -, hr⟩ := Exec.bind_ok.1 hr
    cases found with
    | true =>
      cases hr
      exact hm
    | false =>
      simp only [Bool.false_eq_true, if_false] at hr
      split at hr
      · obtain ⟨m₁, hz, hr⟩ := Exec.bind_ok.1 hr
        obtain ⟨⟨found, i⟩, -, hr⟩ := Exec.bind_ok.1 hr
        obtain ⟨_, -, hr⟩ := Exec.bind_ok.1 hr
        obtain ⟨m₂, hs, hr⟩ := Exec.bind_ok.1 hr
        cases hr
        rw [store_n_entries hs]
        exact resize_size hP (fun _ _ _ hm hr => ih hm hr) hz
      · obtain ⟨m₂, hs, hr⟩ := Exec.bind_ok.1 hr
        cases hr
        rw [store_n_entries hs]
        exact hm

theorem make_size (hP : ∀ (m : GuMap K V) (n : Nat), m.resizedEntries = .ok n → 0 < n → P n) {ks vs : Nat} {dv : Option V} {zv : V}
    (hr : gu_make_map h ks vs dv zv = .ok m) : P m.n_entries := resize_size hP (fun _ _ _ hm hr => insert_at_size hP 3 hm hr) hr

end Sizes

/-- The maps that a program can have: made, inserted into, with values stored through the returned pointers. -/
inductive Built (h : GuHasher K) : GuMap K V → Prop where
  | make {key_size value_size : Nat} {default_value : Option V} {zero_value : V} {m : GuMap K V} :
      gu_make_map h key_size value_size default_value zero_value = .ok m → Built h m
  | insert {m : GuMap K V} {k : K} {r : GuMap K V × Nat} : Built h m → m.gu_map_insert h k = .ok r → Built h r.1
  | write {m : GuMap K V} (values : List V) : Built h m → Built h { m with values }

theorem Built.sized (hm : m.Built h) : m.Sized := by
  have htwin : ∀ (m : GuMap K V) (n : Nat), m.resizedEntries = .ok n → 0 < n → TwinPrime n := fun _ _ hn hpos => resizedEntries_twin hn hpos
  induction hm with
  | make hr => exact make_size (P := fun n => TwinPrime n) htwin hr
  | insert _ hr ih => exact insert_at_size (P := fun n => TwinPrime n) htwin 3 ih hr
  | write _ _ ih => exact ih

/-- The distance between the slots that a lookup looks at. -/
def step (h : GuHasher K) (m : GuMap K V) (k : K) : Nat := h.hash k % (m.n_entries - 2) + 1

theorem Sized.step_ne_zero (hm : m.Sized) : m.step h k % m.n_entries ≠ 0 := by
  have h5 : (5 : Int) ≤ m.n_entries := TwinPrime.five_le hm
  have hlt := Nat.mod_lt (h.hash k) (by omega : 0 < m.n_entries - 2)
  unfold step
  rw [Nat.mod_eq_of_lt (by omega)]
  omega

end GuMap

/-! ## All searches -/

/-- The program's own test finds the twin primes above `2 ^ 30` that end the upward searches. -/
theorem twin_above : TwinPrime 1073741833 := by
  have hp : gu_is_wheel_prime 1073741833 = .ok true := by decide +kernel
  have hlow : gu_is_wheel_prime 1073741831 = .ok true := by decide +kernel
  exact ⟨of_decide_eq_true (is_wheel_prime_spec hp).symm, of_decide_eq_true (is_wheel_prime_spec hlow).symm⟩

/-- Up to `2 ^ 30`, the searches return what they look for, and no operation in them fails. A lookup in a
map never steps by a multiple of the table's size. -/
theorem prime_searches :
    (∀ i : Int, i ≤ 2 ^ 30 →
      gu_is_prime i = .ok (decide (PrimeInt i)) ∧
      gu_is_twin_prime i = .ok (decide (TwinPrime i)) ∧
      (∃ p, gu_prime_inf i = .ok p ∧ GreatestOr0 PrimeInt i p) ∧
      (∃ p, gu_prime_sup i = .ok p ∧ IsLeast {q | PrimeInt q ∧ i ≤ q} p) ∧
      (∃ p, gu_twin_prime_inf i = .ok p ∧ GreatestOr0 TwinPrime i p) ∧
      ∃ p, gu_twin_prime_sup i = .ok p ∧ IsLeast {q | TwinPrime q ∧ i ≤ q} p) ∧
    ∀ (K V : Type) (h : GuHasher K) (m : GuMap K V) (k : K), m.Built h →
      TwinPrime m.n_entries ∧ m.step h k % m.n_entries ≠ 0 := by
  refine ⟨fun i hi => ?_, fun K V h m k hm => ⟨hm.sized, hm.sized.step_ne_zero⟩⟩
  have hmax : Searchable i := by
    apply searchable_of_lt
    unfold squareLimit
    omega
  have htwin := twin_above
  have habove : Searchable 1073741833 := searchable_of_lt (by decide)
  refine ⟨is_prime_eq hmax, is_twin_prime_eq hmax, ?_, ?_, ?_, ?_⟩
  · obtain ⟨p, hp⟩ := prime_inf_returns hmax
    exact ⟨p, hp, prime_inf_spec hp⟩
  · exact prime_sup_spec htwin.1 (by omega) habove
  · obtain ⟨p, hp⟩ := twin_prime_inf_loop_returns (n := intSteps) hmax (by decide) (by unfold intSteps; omega)
    exact ⟨p, hp, twin_prime_inf_loop_spec hp⟩
  · exact twin_prime_sup_spec htwin (by omega) habove

/-- The keys of the maps that are made for words. -/
def wordHasher : GuHasher Nat where
  hash w := w
  eq w w' := w == w'
  zero := 0
  isZero w := w == 0
  eq_refl := by simp
  eq_symm h := by
    rw [beq_iff_eq] at *
    exact h.symm
  eq_trans := by simp
  hash_eq := by simp
  isZero_iff := by simp

theorem prime_searches_small : (∃ p, gu_prime_inf 100 = .ok p ∧ GreatestOr0 PrimeInt 100 p) ∧
    ∃ m : GuMap Nat Unit, m.Built wordHasher ∧ m.step wordHasher 23 % m.n_entries ≠ 0 := by
  refine ⟨(prime_searches.1 100 (by decide)).2.2.1, ?_⟩
  have hmake : (GuMap.gu_make_map (V := Unit) wordHasher 8 0 none ()).isOk = true := by decide +kernel
  generalize hr : GuMap.gu_make_map (V := Unit) wordHasher 8 0 none () = r at hmake
  cases r with
  | ok m => exact ⟨m, .make hr, (prime_searches.2 Nat Unit wordHasher m 23 (.make hr)).2⟩
  | error e => exact absurd hmake Bool.false_ne_true

end Libpgf
