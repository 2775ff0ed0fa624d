import Libpgf.Lib.Exec
/-!
# Primes for table sizes (`gu/prime.c`)

The numbers are `int`s: an operation whose result does not fit has no defined
meaning, and stops the run.
-/

namespace Libpgf

/-- A `size_t` passed as an `int`. -/
def intOf (n : Nat) : Int := Int.bmod n (2 ^ 32)

/-- Steps that a loop over `int`s can make before it overflows. -/
def intSteps : Nat := 2 ^ 31

/-- `gu_prime_wheel_mask`: the residues modulo 30 that a prime above 5 can have. -/
def gu_prime_wheel_mask : Nat :=
  1 <<< 1 ||| 1 <<< 7 ||| 1 <<< 11 ||| 1 <<< 13 ||| 1 <<< 17 ||| 1 <<< 19 ||| 1 <<< 23 ||| 1 <<< 29

def gu_prime_wheel (i : Int) : Exec Bool := do
  Exec.require (0 ≤ i ∧ i < 30)
  return gu_prime_wheel_mask.testBit i.toNat

def gu_small_prime_mask : Nat :=
  1 <<< 2 ||| 1 <<< 3 ||| 1 <<< 5 ||| 1 <<< 7 ||| 1 <<< 11 ||| 1 <<< 13 ||| 1 <<< 17 ||| 1 <<< 19 |||
    1 <<< 23 ||| 1 <<< 29 ||| 1 <<< 31

/-- The inner `for` loop of `gu_is_wheel_prime` over the offsets `i`: whether it finds a divisor `d + i`. -/
def gu_wheel_row (u d : Int) : List Int → Exec Bool
  | [] => .ok false
  | i :: is => do
    if ← gu_prime_wheel i then
      let q ← Exec.int (d + i)
      if u % q = 0 then return true
    gu_wheel_row u d is

/-- The odd numbers `1, 3, ..., 29`. -/
def gu_wheel_offsets : List Int := [1, 3, 5, 7, 9, 11, 13, 15, 17, 19, 21, 23, 25, 27, 29]

/-- The outer `while` loop of `gu_is_wheel_prime`, from `d`. -/
def gu_wheel_rows (u : Int) : Nat → Int → Exec Bool
  | 0, _ => Exec.hang
  | n + 1, d => do
    let square ← Exec.int (d * d)
    if square ≤ u then
      if ← gu_wheel_row u d gu_wheel_offsets then return false
      let d ← Exec.int (d + 30)
      gu_wheel_rows u n d
    else return true

/-- The first row starts at 7: the code jumps into the middle of the loops. -/
def gu_is_wheel_prime (u : Int) : Exec Bool := do
  Exec.require (u > 30 ∧ u % 2 ≠ 0 ∧ u % 3 ≠ 0 ∧ u % 5 ≠ 0)
  if ← gu_wheel_row u 0 (gu_wheel_offsets.drop 3) then return false
  gu_wheel_rows u intSteps 30

/-- The bit of an `int` mask that the search loops below 32 look at. -/
def gu_small_prime (i : Int) : Bool := gu_small_prime_mask.testBit i.toNat

/-- The loop of `gu_prime_inf` below 32. -/
def gu_small_prime_inf : Nat → Int → Exec Int
  | 0, _ => Exec.hang
  | n + 1, i => if gu_small_prime i then .ok i else gu_small_prime_inf n (i - 1)

/-- Whether the loops of `gu_prime_inf` and `gu_prime_sup` stop at `d`, which is `r` modulo 30. -/
def gu_prime_at (d r : Int) : Exec Bool := do
  if ← gu_prime_wheel r then gu_is_wheel_prime d else return false

def gu_prime_inf_loop : Nat → Int → Int → Exec Int
  | 0, _, _ => Exec.hang
  | n + 1, d, r => do
    if ← gu_prime_at d r then return d
    let d ← Exec.int (d - 2)
    gu_prime_inf_loop n d (if r - 2 < 0 then r - 2 + 30 else r - 2)

/-- `i | 1` of a positive number. -/
def setOdd (i : Int) : Int := (i.toNat ||| 1 : Nat)

def gu_prime_inf (i : Int) : Exec Int :=
  if i < 2 then .ok 0
  else if i < 32 then gu_small_prime_inf 32 i
  else
    let d := setOdd (i - 1)
    gu_prime_inf_loop intSteps d (d % 30)

def gu_small_prime_sup : Nat → Int → Exec Int
  | 0, _ => Exec.hang
  | n + 1, i => if gu_small_prime i then .ok i else gu_small_prime_sup n (i + 1)

def gu_prime_sup_loop : Nat → Int → Int → Exec Int
  | 0, _, _ => Exec.hang
  | n + 1, d, r => do
    if ← gu_prime_at d r then return d
    let d ← Exec.int (d + 2)
    gu_prime_sup_loop n d (if r + 2 > 30 then r + 2 - 30 else r + 2)

def gu_prime_sup (i : Int) : Exec Int :=
  if i ≤ 2 then .ok 2
  else if i < 32 then gu_small_prime_sup 32 i
  else
    let d := setOdd i
    gu_prime_sup_loop intSteps d (d % 30)

def gu_is_prime (i : Int) : Exec Bool := do
  if i < 2 then return false
  else if i < 30 then return gu_small_prime i
  else if !(← gu_prime_wheel (i % 30)) then return false
  else gu_is_wheel_prime i

def gu_is_twin_prime (i : Int) : Exec Bool := do
  if ← gu_is_prime i then
    let j ← Exec.int (i - 2)
    gu_is_prime j
  else return false

def gu_twin_prime_inf_loop : Nat → Int → Exec Int
  | 0, _ => Exec.hang
  | n + 1, i => do
    let i ← gu_prime_inf i
    if i = 0 then return 0
    let j ← Exec.int (i - 2)
    if ← gu_is_prime j then return i
    let i ← Exec.int (i - 4)
    gu_twin_prime_inf_loop n i

def gu_twin_prime_inf (i : Int) : Exec Int := gu_twin_prime_inf_loop intSteps i

def gu_twin_prime_sup_loop : Nat → Int → Exec Int
  | 0, _ => Exec.hang
  | n + 1, i => do
    let i ← gu_prime_sup i
    let j ← Exec.int (i + 2)
    if ← gu_is_prime j then return j
    let i ← Exec.int (i + 4)
    gu_twin_prime_sup_loop n i

def gu_twin_prime_sup (i : Int) : Exec Int :=
  if i ≤ 5 then .ok 5
  else do
    let i ← Exec.int (i - 2)
    gu_twin_prime_sup_loop intSteps i

end Libpgf
