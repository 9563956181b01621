-- SUMMARY: How many decimal digits a number has, and what that says about its size.
import Mathlib.Data.Nat.Digits.Lemmas
import Mathlib.Tactic.Linarith
import Mathlib.Tactic.Ring

/-!
# Decimal digits

The number of decimal digits of a natural number, by its bounds: it is the least exponent whose power of
ten is larger.
-/

namespace Decimal

def numDigits (n : Nat) : Nat := (Nat.digits 10 n).length

theorem numDigits_zero : numDigits 0 = 0 := rfl

theorem numDigits_le_iff {n k : Nat} : numDigits n ≤ k ↔ n < 10 ^ k :=
  Nat.digits_length_le_iff (by decide) n

theorem lt_numDigits_iff {n k : Nat} : k < numDigits n ↔ 10 ^ k ≤ n :=
  Nat.lt_digits_length_iff (by decide) n

theorem numDigits_pos {n : Nat} (h : 0 < n) : 0 < numDigits n :=
  lt_numDigits_iff.2 (by rwa [pow_zero])

theorem lt_pow_numDigits (n : Nat) : n < 10 ^ numDigits n := numDigits_le_iff.1 (Nat.le_refl _)

theorem pow_numDigits_le {n : Nat} (h : 0 < n) : 10 ^ (numDigits n - 1) ≤ n := by
  have hpos := numDigits_pos h
  apply lt_numDigits_iff.1
  omega

theorem numDigits_eq_iff {n k : Nat} : numDigits n = k + 1 ↔ 10 ^ k ≤ n ∧ n < 10 ^ (k + 1) := by
  rw [← lt_numDigits_iff, ← numDigits_le_iff]
  omega

theorem numDigits_eq_zero {n : Nat} : numDigits n = 0 ↔ n = 0 := by
  constructor
  · intro h
    have hlt := lt_pow_numDigits n
    rw [h, pow_zero] at hlt
    omega
  · rintro rfl
    rfl

/-- Digits below a number with `k` places free. -/
theorem numDigits_add {x r k : Nat} (hx : x < 10 ^ k) (hr : 0 < r) :
    numDigits (x + 10 ^ k * r) = k + numDigits r := by
  have hpos := numDigits_pos hr
  have hle := pow_numDigits_le hr
  have hlt := lt_pow_numDigits r
  have hsum : k + numDigits r = (k + (numDigits r - 1)) + 1 := by omega
  rw [hsum, numDigits_eq_iff]
  constructor
  · calc 10 ^ (k + (numDigits r - 1)) = 10 ^ k * 10 ^ (numDigits r - 1) := pow_add _ _ _
      _ ≤ 10 ^ k * r := Nat.mul_le_mul_left _ hle
      _ ≤ x + 10 ^ k * r := Nat.le_add_left _ _
  · calc x + 10 ^ k * r < 10 ^ k + 10 ^ k * r := by omega
      _ = 10 ^ k * (r + 1) := by ring
      _ ≤ 10 ^ k * 10 ^ numDigits r := Nat.mul_le_mul_left _ hlt
      _ = 10 ^ (k + (numDigits r - 1) + 1) := by rw [← pow_add, hsum]

theorem numDigits_mul_pow {r : Nat} (hr : 0 < r) (k : Nat) : numDigits (r * 10 ^ k) = numDigits r + k := by
  have h := numDigits_add (Nat.pow_pos (by decide : 0 < 10) : 0 < 10 ^ k) hr
  rw [Nat.zero_add] at h
  rw [Nat.mul_comm, h, Nat.add_comm]

theorem numDigits_ten_pow (k : Nat) : numDigits (10 ^ k) = k + 1 := by
  have h := numDigits_mul_pow (by decide : 0 < 1) k
  rw [Nat.one_mul] at h
  rw [h]
  exact Nat.add_comm 1 k

theorem numDigits_mono {m n : Nat} (h : m ≤ n) : numDigits m ≤ numDigits n :=
  numDigits_le_iff.2 (Nat.lt_of_le_of_lt h (lt_pow_numDigits n))

theorem toDigits_length {n : Nat} (h : 0 < n) : (Nat.toDigits 10 n).length = numDigits n := by
  have hpos := numDigits_pos h
  apply Nat.le_antisymm
  · rw [Nat.length_toDigits_le_iff (by decide) hpos]
    exact lt_pow_numDigits n
  · rw [numDigits_le_iff, ← Nat.length_toDigits_le_iff (by decide) Nat.length_toDigits_pos]

/-! ## Digits as text -/

/-- The digits of a number filled up with zeros in front. -/
def padTo (k x : Nat) : List Char :=
  List.replicate (k - (Nat.toDigits 10 x).length) '0' ++ Nat.toDigits 10 x

theorem padTo_succ {k x : Nat} (hk : 0 < k) :
    padTo k (x / 10) ++ Nat.toDigits 10 (x % 10) = padTo (k + 1) x := by
  have hd : x % 10 < 10 := Nat.mod_lt _ (by decide)
  have hone : (Nat.toDigits 10 (x % 10)).length = 1 := by
    rw [Nat.toDigits_of_lt_base hd]
    rfl
  unfold padTo
  rcases Nat.eq_zero_or_pos (x / 10) with hzero | hpos
  · have hx : x % 10 = x := by omega
    rw [hx] at hone ⊢
    rw [hzero, hone, Nat.toDigits_zero, List.length_singleton, Nat.add_sub_cancel]
    obtain ⟨j, rfl⟩ := Nat.exists_eq_succ_of_ne_zero (by omega : k ≠ 0)
    rw [Nat.succ_sub_one, List.replicate_succ']
  · have happ := Nat.toDigits_append_toDigits (by decide : 1 < 10) hpos hd
    rw [Nat.div_add_mod] at happ
    rw [← happ, List.length_append, hone, Nat.add_sub_add_right, List.append_assoc]

/-- The low places of a number stand filled up behind the digits above them. -/
theorem toDigits_add_pow {x r k : Nat} (hk : 0 < k) (hx : x < 10 ^ k) (hr : 0 < r) :
    Nat.toDigits 10 (x + 10 ^ k * r) = Nat.toDigits 10 r ++ padTo k x := by
  induction k generalizing x with
  | zero => cases hk
  | succ k ih =>
      have hd : x % 10 < 10 := Nat.mod_lt _ (by decide)
      have hdiv := Nat.div_add_mod x 10
      rw [pow_succ] at hx
      rcases Nat.eq_zero_or_pos k with rfl | hk
      · have hlt : x < 10 := by omega
        have happ := Nat.toDigits_append_toDigits (by decide : 1 < 10) hr hlt
        have hpad : padTo 1 x = Nat.toDigits 10 x := by
          rw [padTo, Nat.toDigits_of_lt_base hlt]
          rfl
        rw [hpad, happ, Nat.zero_add, pow_one, Nat.add_comm]
      · have hx' : x / 10 < 10 ^ k := by omega
        have hrest := ih hk hx'
        have hpos : 0 < x / 10 + 10 ^ k * r := by
          have hmul := Nat.mul_pos (Nat.pow_pos (by decide : 0 < 10) : 0 < 10 ^ k) hr
          omega
        have happ := Nat.toDigits_append_toDigits (by decide : 1 < 10) hpos hd
        have hsum : 10 * (x / 10 + 10 ^ k * r) + x % 10 = x + 10 ^ (k + 1) * r := by
          rw [pow_succ]
          linarith
        rw [hsum] at happ
        rw [← happ, hrest, List.append_assoc, padTo_succ hk]

end Decimal
