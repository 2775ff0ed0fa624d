import Libpgf.Gu.MapLaws
import Libpgf.Lib.Depth
/-!
# The depth of operations on tables

The searches for primes and slots are loops, and `gu_map_insert` and
`gu_map_resize` call each other to a fixed depth.
-/

namespace Libpgf

open Exec

theorem int_deep (x : Int) : Deep (Exec.int x) := by
  unfold Exec.int
  split
  · exact deep_ok _
  · exact deep_abort

/-! ## Primes -/

theorem prime_wheel_deep (i : Int) : Deep (gu_prime_wheel i) := .bind (deep_require _) fun _ _ => deep_ok _

theorem wheel_row_deep (u d : Int) (is : List Int) : Deep (gu_wheel_row u d is) := by
  induction is with
  | nil => exact deep_ok _
  | cons i is ih =>
    refine .bind (prime_wheel_deep i) fun b _ => ?_
    cases b with
    | false => exact ih
    | true =>
      refine .bind (int_deep _) fun q _ => ?_
      split
      · exact deep_ok _
      · exact ih

theorem wheel_rows_deep (u : Int) (n : Nat) (d : Int) : Deep (gu_wheel_rows u n d) := by
  induction n generalizing d with
  | zero => exact deep_hang
  | succ n ih =>
    refine .bind (int_deep _) fun square _ => ?_
    split
    · refine .bind (wheel_row_deep _ _ _) fun b _ => ?_
      cases b with
      | false => exact .bind (int_deep _) fun d _ => ih d
      | true => exact deep_ok _
    · exact deep_ok _

theorem is_wheel_prime_deep (u : Int) : Deep (gu_is_wheel_prime u) := by
  refine .bind (deep_require _) fun _ _ => .bind (wheel_row_deep _ _ _) fun b _ => ?_
  cases b with
  | false => exact wheel_rows_deep _ _ _
  | true => exact deep_ok _

theorem is_prime_deep (i : Int) : Deep (gu_is_prime i) := by
  unfold gu_is_prime
  split
  · exact deep_ok _
  split
  · exact deep_ok _
  refine .bind (prime_wheel_deep _) fun b _ => ?_
  cases b with
  | false => exact deep_ok _
  | true => exact is_wheel_prime_deep i

theorem prime_at_deep (d r : Int) : Deep (gu_prime_at d r) := by
  refine .bind (prime_wheel_deep r) fun b _ => ?_
  cases b with
  | false => exact deep_ok _
  | true => exact is_wheel_prime_deep d

theorem prime_inf_deep (i : Int) : Deep (gu_prime_inf i) := by
  have hsmall : ∀ (n : Nat) (i : Int), Deep (gu_small_prime_inf n i) := by
    intro n
    induction n with
    | zero => exact fun _ => deep_hang
    | succ n ih =>
      intro i
      unfold gu_small_prime_inf
      split
      · exact deep_ok _
      · exact ih _
  have hloop : ∀ (n : Nat) (d r : Int), Deep (gu_prime_inf_loop n d r) := by
    intro n
    induction n with
    | zero => exact fun _ _ => deep_hang
    | succ n ih =>
      intro d r
      refine .bind (prime_at_deep d r) fun b _ => ?_
      cases b with
      | false => exact .bind (int_deep _) fun d _ => ih _ _
      | true => exact deep_ok _
  unfold gu_prime_inf
  split
  · exact deep_ok _
  split
  · exact hsmall _ _
  · exact hloop _ _ _

theorem prime_sup_deep (i : Int) : Deep (gu_prime_sup i) := by
  have hsmall : ∀ (n : Nat) (i : Int), Deep (gu_small_prime_sup n i) := by
    intro n
    induction n with
    | zero => exact fun _ => deep_hang
    | succ n ih =>
      intro i
      unfold gu_small_prime_sup
      split
      · exact deep_ok _
      · exact ih _
  have hloop : ∀ (n : Nat) (d r : Int), Deep (gu_prime_sup_loop n d r) := by
    intro n
    induction n with
    | zero => exact fun _ _ => deep_hang
    | succ n ih =>
      intro d r
      refine .bind (prime_at_deep d r) fun b _ => ?_
      cases b with
      | false => exact .bind (int_deep _) fun d _ => ih _ _
      | true => exact deep_ok _
  unfold gu_prime_sup
  split
  · exact deep_ok _
  split
  · exact hsmall _ _
  · exact hloop _ _ _

theorem twin_prime_inf_deep (i : Int) : Deep (gu_twin_prime_inf i) := by
  have hloop : ∀ (n : Nat) (i : Int), Deep (gu_twin_prime_inf_loop n i) := by
    intro n
    induction n with
    | zero => exact fun _ => deep_hang
    | succ n ih =>
      intro i
      refine .bind (prime_inf_deep i) fun i _ => ?_
      split
      · exact deep_ok _
      refine .bind (int_deep _) fun j _ => .bind (is_prime_deep j) fun b _ => ?_
      cases b with
      | false => exact .bind (int_deep _) fun i _ => ih i
      | true => exact deep_ok _
  exact hloop _ _

theorem twin_prime_sup_deep (i : Int) : Deep (gu_twin_prime_sup i) := by
  have hloop : ∀ (n : Nat) (i : Int), Deep (gu_twin_prime_sup_loop n i) := by
    intro n
    induction n with
    | zero => exact fun _ => deep_hang
    | succ n ih =>
      intro i
      refine .bind (prime_sup_deep i) fun i _ => .bind (int_deep _) fun j _ => .bind (is_prime_deep j) fun b _ => ?_
      cases b with
      | false => exact .bind (int_deep _) fun i _ => ih i
      | true => exact deep_ok _
  unfold gu_twin_prime_sup
  split
  · exact deep_ok _
  · exact .bind (int_deep _) fun i _ => hloop _ i

/-! ## Tables -/

theorem mem_buf_size_deep (min_size : Nat) : Deep (gu_mem_buf_size min_size) := by
  have hloop : ∀ (min n a b c : Nat), Deep (gu_mem_padovan_loop min n a b c) := by
    intro min n
    induction n with
    | zero => exact fun _ _ _ => deep_hang
    | succ n ih =>
      intro a b c
      unfold gu_mem_padovan_loop
      split
      · split
        · exact deep_ok _
        · exact ih _ _ _
      · exact deep_ok _
  refine .bind ?_ fun _ _ => deep_ok _
  unfold gu_mem_padovan
  split
  · exact deep_ok _
  · exact hloop _ _ _ _ _

namespace GuMap
variable {K V : Type} {h : GuHasher K}

theorem lookup_deep (m : GuMap K V) (k : K) : Deep (m.gu_map_lookup h k) := by
  have hprobe : ∀ (n idx : Nat) (offset : Nat), Deep (m.gu_map_probe h k offset n idx) := by
    intro n
    induction n with
    | zero => exact fun _ _ => deep_hang
    | succ n ih =>
      intro idx offset
      unfold gu_map_probe
      split
      · exact deep_ok _
      split
      · exact deep_ok _
      · exact ih _ _
  exact hprobe _ _ _

theorem store_deep (m : GuMap K V) (k : K) (idx : Nat) : Deep (m.store h k idx) := by
  unfold store
  simp only
  split
  · exact .bind (deep_require _) fun _ _ => deep_ok _
  · exact deep_ok _

theorem resizedEntries_deep (m : GuMap K V) : Deep m.resizedEntries := by
  have hroom : ∀ n, Deep (m.roomFor n) := by
    intro n
    refine .bind (mem_buf_size_deep _) fun keys_sz _ => ?_
    split
    · exact deep_ok _
    · exact .bind (mem_buf_size_deep _) fun _ _ => deep_ok _
  exact .bind (twin_prime_sup_deep _) fun n _ => .bind (hroom _) fun n _ => .bind (twin_prime_inf_deep _) fun _ _ => deep_ok _

theorem resize_deep {insert : GuMap K V → K → Exec (GuMap K V × Nat)} (hins : ∀ m k, Deep (insert m k)) (m : GuMap K V) :
    Deep (m.gu_map_resize h insert) := by
  refine .bind (resizedEntries_deep m) fun n _ => .bind (deep_require _) fun _ _ => forEach_deep (fun i m' => ?_) _ _
  unfold reinsert
  split
  · exact deep_ok _
  · exact .bind (hins _ _) fun _ _ => deep_ok _

theorem insert_at_deep (depth : Nat) (m : GuMap K V) (k : K) : Deep (m.gu_map_insert_at h depth k) := by
  induction depth generalizing m k with
  | zero => exact deep_hang
  | succ depth ih =>
    refine .bind (lookup_deep m k) fun r _ => ?_
    obtain ⟨found, idx⟩ := r
    simp only
    split
    · exact deep_ok _
    split
    · refine .bind (resize_deep ih m) fun m' _ => .bind (lookup_deep m' k) fun r' _ => ?_
      exact .bind (deep_require _) fun _ _ => .bind (store_deep _ _ _) fun _ _ => deep_ok _
    · exact .bind (store_deep _ _ _) fun _ _ => deep_ok _

end GuMap

namespace GuSet
variable {K : Type} {h : GuHasher K}

theorem ofMap_deep {r : Exec (GuMap K Unit)} (hd : Deep r) (hr : ∀ m, r = .ok m → m.Wf h) : Deep (ofMap r hr) := by
  cases r with
  | ok m => exact deep_ok _
  | error e =>
    intro h
    exact hd (congrArg Except.error (Except.error.inj h))

theorem new_set_deep : Deep (gu_new_set h) := ofMap_deep (GuMap.resize_deep (GuMap.insert_at_deep 3) _) _

theorem has_deep (s : GuSet h) (k : K) : Deep (s.gu_set_has k) := (GuMap.lookup_deep s.map k).map _

theorem insert_deep (s : GuSet h) (k : K) : Deep (s.gu_set_insert k) := ofMap_deep ((GuMap.insert_at_deep 3 s.map k).map _) _

end GuSet

end Libpgf
