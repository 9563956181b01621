-- SUMMARY: Integers scaled by powers of ten, as rationals: order, arithmetic and size by digits.
import Mathlib.Algebra.Order.Field.Power
import Mathlib.Algebra.Order.Field.Rat
import Mathlib.Data.Rat.Floor
import Mathlib.Tactic.FieldSimp
import Mathlib.Tactic.Linarith
import Mathlib.Tactic.Positivity
import Rustgres.Lib.Decimal

/-!
# Scaled Integers

An integer and a scale stand for a rational, the integer divided by ten to the scale. Order and sums are
those of the integers once the scales are the same; the number of digits bounds the size.
-/

namespace Scaled

open Decimal

/-- The integer divided by ten to the scale, which may be negative. -/
def scaled (u s : Int) : ℚ := u * 10 ^ (-s)

theorem ten_zpow_pos (s : Int) : (0 : ℚ) < 10 ^ s := by positivity

theorem scaled_zero (s : Int) : scaled 0 s = 0 := by
  rw [scaled, Int.cast_zero, zero_mul]

theorem scaled_mul_pow (u s : Int) (k : Nat) : scaled (u * 10 ^ k) (s + k) = scaled u s := by
  unfold scaled
  have hten : (10 : ℚ) ≠ 0 := by norm_num
  rw [neg_add, zpow_add₀ hten, zpow_neg _ (k : Int), zpow_natCast]
  push_cast
  field_simp

theorem scaled_pad {u s t : Int} (h : s ≤ t) : scaled (u * 10 ^ (t - s).toNat) t = scaled u s := by
  have hk : t = s + ((t - s).toNat : Int) := by omega
  have hmul := scaled_mul_pow u s (t - s).toNat
  rwa [← hk] at hmul

theorem compare_strictMono {α β : Type*} [LinearOrder α] [LinearOrder β] {f : α → β} (hf : StrictMono f)
    (x y : α) : compare (f x) (f y) = compare x y := by
  rcases lt_trichotomy x y with h | rfl | h
  · rw [compare_lt_iff_lt.2 h, compare_lt_iff_lt.2 (hf h)]
  · rw [compare_eq_iff_eq.2 rfl, compare_eq_iff_eq.2 rfl]
  · rw [compare_gt_iff_gt.2 h, compare_gt_iff_gt.2 (hf h)]

theorem compare_congr {α β : Type*} [LinearOrder α] [LinearOrder β] {x y : α} {u v : β}
    (hlt : x < y ↔ u < v) (hgt : y < x ↔ v < u) : compare x y = compare u v := by
  rcases lt_trichotomy x y with h | rfl | h
  · rw [compare_lt_iff_lt.2 h, compare_lt_iff_lt.2 (hlt.1 h)]
  · have heq : u = v := le_antisymm (not_lt.1 fun hcon => lt_irrefl x (hgt.2 hcon))
      (not_lt.1 fun hcon => lt_irrefl x (hlt.2 hcon))
    rw [compare_eq_iff_eq.2 rfl, compare_eq_iff_eq.2 heq]
  · rw [compare_gt_iff_gt.2 h, compare_gt_iff_gt.2 (hgt.1 h)]

theorem compare_natCast (m n : Nat) : compare (m : Int) (n : Int) = compare m n :=
  compare_strictMono (fun _ _ h => Int.ofNat_lt.2 h) m n

theorem compare_neg_neg (x y : ℚ) : compare (-x) (-y) = (compare x y).swap := by
  rcases lt_trichotomy x y with h | rfl | h
  · rw [compare_lt_iff_lt.2 h, compare_gt_iff_gt.2 (neg_lt_neg h)]
    rfl
  · rw [compare_eq_iff_eq.2 rfl, compare_eq_iff_eq.2 rfl]
    rfl
  · rw [compare_gt_iff_gt.2 h, compare_lt_iff_lt.2 (neg_lt_neg h)]
    rfl

theorem compare_scaled (u v s : Int) : compare (scaled u s) (scaled v s) = compare u v := by
  apply compare_strictMono (f := fun w => scaled w s)
  intro _ _ h
  exact mul_lt_mul_of_pos_right (Int.cast_lt.2 h) (ten_zpow_pos _)

theorem scaled_inj {u v s : Int} : scaled u s = scaled v s ↔ u = v := by
  rw [← compare_eq_iff_eq, compare_scaled, compare_eq_iff_eq]

theorem scaled_lt {u v s : Int} : scaled u s < scaled v s ↔ u < v := by
  rw [← compare_lt_iff_lt, compare_scaled, compare_lt_iff_lt]

theorem scaled_le {u v s : Int} : scaled u s ≤ scaled v s ↔ u ≤ v := by
  rw [← not_lt, scaled_lt, not_lt]

theorem scaled_pos {u s : Int} : 0 < scaled u s ↔ 0 < u := by
  rw [← scaled_zero s, scaled_lt]

theorem scaled_neg_iff {u s : Int} : scaled u s < 0 ↔ u < 0 := by
  rw [← scaled_zero s, scaled_lt]

theorem scaled_eq_zero {u s : Int} : scaled u s = 0 ↔ u = 0 := by
  rw [← scaled_zero s, scaled_inj]

theorem scaled_neg (u s : Int) : scaled (-u) s = -scaled u s := by
  rw [scaled, scaled, Int.cast_neg, neg_mul]

theorem scaled_nonneg {u s : Int} : 0 ≤ scaled u s ↔ 0 ≤ u := by
  rw [← scaled_zero s, scaled_le]

theorem scaled_add (u v s : Int) : scaled (u + v) s = scaled u s + scaled v s := by
  rw [scaled, scaled, scaled, Int.cast_add, add_mul]

theorem scaled_sub (u v s : Int) : scaled (u - v) s = scaled u s - scaled v s := by
  rw [scaled, scaled, scaled, Int.cast_sub, sub_mul]

theorem scaled_mul (u v s t : Int) : scaled (u * v) (s + t) = scaled u s * scaled v t := by
  have hten : (10 : ℚ) ≠ 0 := by norm_num
  unfold scaled
  rw [neg_add, zpow_add₀ hten]
  push_cast
  ring

theorem abs_scaled (u s : Int) : |scaled u s| = scaled (u.natAbs : Int) s := by
  unfold scaled
  rw [abs_mul, abs_of_pos (ten_zpow_pos (-s)), Int.natCast_natAbs, Int.cast_abs]

theorem scaled_scale_zero (u : Int) : scaled u 0 = u := by
  rw [scaled, neg_zero, zpow_zero, mul_one]

theorem scaled_shift (u s t : Int) : scaled u s * 10 ^ t = scaled u (s - t) := by
  have hten : (10 : ℚ) ≠ 0 := by norm_num
  rw [scaled, scaled, mul_assoc, ← zpow_add₀ hten, show -s + t = -(s - t) by omega]

/-! ## Size by digits -/

theorem pow_eq_scaled (e : Int) : (10 : ℚ) ^ e = scaled 1 (-e) := by
  rw [scaled, Int.cast_one, one_mul, neg_neg]

theorem natCast_pow_eq (k : Nat) : ((10 ^ k : Nat) : ℚ) = (10 : ℚ) ^ (k : Int) := by
  rw [zpow_natCast]
  push_cast
  rfl

theorem scaled_lt_pow {m : Nat} {s e : Int} (h : (numDigits m : Int) - s ≤ e) : scaled m s < 10 ^ e := by
  have hlt : (m : ℚ) < 10 ^ (numDigits m : Int) := by
    rw [← natCast_pow_eq]
    exact_mod_cast lt_pow_numDigits m
  calc scaled m s = (m : ℚ) * 10 ^ (-s) := by rw [scaled, Int.cast_natCast]
    _ < 10 ^ (numDigits m : Int) * 10 ^ (-s) := mul_lt_mul_of_pos_right hlt (ten_zpow_pos _)
    _ = 10 ^ ((numDigits m : Int) + -s) := (zpow_add₀ (by norm_num) _ _).symm
    _ ≤ 10 ^ e := zpow_le_zpow_right₀ (by norm_num) (by omega)

theorem pow_le_scaled {m : Nat} (hm : 0 < m) {s e : Int} (h : e < (numDigits m : Int) - s) :
    10 ^ e ≤ scaled m s := by
  have hle : (10 : ℚ) ^ ((numDigits m - 1 : Nat) : Int) ≤ m := by
    rw [← natCast_pow_eq]
    exact_mod_cast pow_numDigits_le hm
  have hpos := numDigits_pos hm
  calc (10 : ℚ) ^ e ≤ 10 ^ (((numDigits m - 1 : Nat) : Int) + -s) := zpow_le_zpow_right₀ (by norm_num) (by omega)
    _ = 10 ^ ((numDigits m - 1 : Nat) : Int) * 10 ^ (-s) := zpow_add₀ (by norm_num) _ _
    _ ≤ (m : ℚ) * 10 ^ (-s) := mul_le_mul_of_nonneg_right hle (ten_zpow_pos _).le
    _ = scaled m s := by rw [scaled, Int.cast_natCast]

/-- Fewer digits before the point, smaller number. -/
theorem scaled_lt_of_digits {m n : Nat} {s t : Int} (hn : 0 < n)
    (h : (numDigits m : Int) - s < (numDigits n : Int) - t) : scaled m s < scaled n t :=
  lt_of_lt_of_le (scaled_lt_pow (Int.le_refl _)) (pow_le_scaled hn h)

theorem scaled_lt_pow_iff {m : Nat} (hm : 0 < m) {s e : Int} :
    scaled m s < 10 ^ e ↔ (numDigits m : Int) - s ≤ e := by
  constructor
  · intro h
    by_contra hcon
    exact absurd (pow_le_scaled hm (by omega : e < (numDigits m : Int) - s)) (not_le.2 h)
  · exact scaled_lt_pow

end Scaled
