-- SUMMARY: Rounding half away from zero: the nearest integer, and the integer arithmetic that finds it.
import Mathlib.Data.Rat.Floor
import Rustgres.Lib.Scaled

/-!
# Rounding Half Away From Zero

The nearest integer, the one farther from zero of two. For a quotient of naturals it is one division of
twice the dividend, and the ways programs find it (adding half the divisor, doubling the remainder, one more
digit) all come to that.
-/

namespace Rounding

open Scaled

/-- Every other integer is farther from the number, or as far and not farther from zero. -/
def NearestAway (q : ℚ) (z : Int) : Prop :=
  ∀ w : Int, |q - z| < |q - w| ∨ |q - z| = |q - w| ∧ |w| ≤ |z|

theorem NearestAway.neg {q : ℚ} {z : Int} (h : NearestAway q z) : NearestAway (-q) (-z) := by
  intro w
  have hw := h (-w)
  have hz : |-q - ((-z : Int) : ℚ)| = |q - z| := by
    rw [Int.cast_neg, ← abs_neg]
    congr 1
    ring
  have hww : |-q - (w : ℚ)| = |q - ((-w : Int) : ℚ)| := by
    rw [Int.cast_neg, ← abs_neg]
    congr 1
    ring
  rw [hz, hww, abs_neg]
  rwa [abs_neg] at hw

/-- There is one such integer. -/
theorem NearestAway.unique {q : ℚ} {z w : Int} (hz : NearestAway q z) (hw : NearestAway q w) : z = w := by
  have habs : |q - z| = |q - w| ∧ |z| = |w| := by
    rcases hz w with h | h
    · rcases hw z with h' | h'
      · exact absurd h (not_lt.2 h'.le)
      · exact absurd h'.1 h.ne'
    · rcases hw z with h' | h'
      · exact absurd h.1 h'.ne'
      · exact ⟨h.1, le_antisymm h'.2 h.2⟩
  rcases abs_eq_abs.1 habs.2 with h | h
  · exact h
  · rcases abs_eq_abs.1 habs.1 with h' | h'
    · have hcast : (z : ℚ) = w := by linarith
      exact_mod_cast hcast
    · -- the two are opposite and as far, so the number is zero
      have hq : q = 0 := by
        rw [h, Int.cast_neg] at h'
        linarith
      have hzero := hz 0
      rw [hq, Int.cast_zero, sub_zero, abs_zero] at hzero
      rcases hzero with hzero | hzero
      · exact absurd hzero (not_lt.2 (abs_nonneg _))
      · have hz0 : (z : ℚ) = 0 := by
          have habs0 := hzero.1
          rwa [zero_sub, abs_neg, abs_eq_zero] at habs0
        have hz0' : z = 0 := by exact_mod_cast hz0
        omega

/-- A quotient of naturals rounded half up. -/
def halfUp (m d : Nat) : Nat := (2 * m + d) / (2 * d)

theorem nearest_halfUp (m : Nat) {d : Nat} (hd : 0 < d) : NearestAway ((m : ℚ) / d) (halfUp m d) := by
  have hd2 : 0 < 2 * d := by omega
  have hlow : 2 * d * halfUp m d ≤ 2 * m + d := Nat.mul_div_le _ _
  have hhigh : 2 * m + d < 2 * d * (halfUp m d + 1) := Nat.lt_mul_div_succ _ hd2
  generalize halfUp m d = z at hlow hhigh ⊢
  have hdq : (0 : ℚ) < d := by exact_mod_cast hd
  have hlowq : (z : ℚ) ≤ (m : ℚ) / d + 1 / 2 := by
    have hcast : (2 * d * z : ℚ) ≤ 2 * m + d := by exact_mod_cast hlow
    have hdiv : (m : ℚ) / d * d = m := div_mul_cancel₀ _ hdq.ne'
    nlinarith
  have hhighq : (m : ℚ) / d + 1 / 2 < z + 1 := by
    have hcast : (2 * m + d : ℚ) < 2 * d * (z + 1) := by exact_mod_cast hhigh
    have hdiv : (m : ℚ) / d * d = m := div_mul_cancel₀ _ hdq.ne'
    nlinarith
  have hnonneg : (0 : ℚ) ≤ (m : ℚ) / d := by positivity
  generalize (m : ℚ) / d = q at hlowq hhighq hnonneg ⊢
  intro w
  rw [Int.cast_natCast]
  rcases lt_trichotomy w z with hw | rfl | hw
  · have hwq : (w : ℚ) ≤ z - 1 := by
      have hle : w ≤ (z : Int) - 1 := by omega
      exact_mod_cast hle
    rw [abs_of_nonneg (by linarith : (0 : ℚ) ≤ q - w)]
    rcases le_total 0 (q - z) with hsgn | hsgn
    · rw [abs_of_nonneg hsgn]
      exact Or.inl (by linarith)
    · rw [abs_of_nonpos hsgn]
      rcases lt_or_eq_of_le (by linarith : -(q - z) ≤ q - w) with hlt | heq
      · exact Or.inl hlt
      · refine Or.inr ⟨heq, ?_⟩
        have hwz : (w : ℚ) = z - 1 := by linarith
        have hwz' : w = (z : Int) - 1 := by exact_mod_cast hwz
        have hz1 : (0 : ℚ) < z := by linarith
        have hz1' : 0 < z := by exact_mod_cast hz1
        rw [abs_of_nonneg (by omega : 0 ≤ w), abs_of_nonneg (by omega : 0 ≤ (z : Int))]
        omega
  · exact Or.inr ⟨by rw [Int.cast_natCast], le_refl _⟩
  · have hwq : (z : ℚ) + 1 ≤ w := by
      have hle : (z : Int) + 1 ≤ w := by omega
      exact_mod_cast hle
    rw [abs_of_nonpos (by linarith : q - w ≤ 0)]
    rcases le_total 0 (q - z) with hsgn | hsgn
    · rw [abs_of_nonneg hsgn]
      exact Or.inl (by linarith)
    · rw [abs_of_nonpos hsgn]
      exact Or.inl (by linarith)

/-! ## Ways to find it -/

/-- The remainder doubled decides. -/
theorem halfUp_of_rem (m : Nat) {d : Nat} (hd : 0 < d) :
    halfUp m d = m / d + if d ≤ 2 * (m % d) then 1 else 0 := by
  have hmod := Nat.mod_lt m hd
  have hdiv := Nat.div_add_mod m d
  unfold halfUp
  generalize m / d = q at hdiv ⊢
  generalize m % d = r at hmod hdiv ⊢
  rw [← hdiv]
  split
  · apply Nat.div_eq_of_lt_le
    · linarith
    · linarith
  · apply Nat.div_eq_of_lt_le
    · linarith
    · linarith

/-- Half the divisor added first, for an even divisor. -/
theorem halfUp_of_add (m : Nat) {d : Nat} (heven : d % 2 = 0) : (m + d / 2) / d = halfUp m d := by
  have hd : d = 2 * (d / 2) := by omega
  unfold halfUp
  rw [← Nat.mul_div_mul_left (m + d / 2) d (by decide : 0 < 2)]
  congr 1
  omega

/-- One more digit decides. -/
theorem halfUp_of_guard (m : Nat) {d : Nat} (hd : 0 < d) :
    m * 10 / d / 10 + (if 5 ≤ m * 10 / d % 10 then 1 else 0) = halfUp m d := by
  have hlow : d * (m * 10 / d) ≤ m * 10 := Nat.mul_div_le _ _
  have hhigh : m * 10 < d * (m * 10 / d + 1) := Nat.lt_mul_div_succ _ hd
  have hsplit := Nat.div_add_mod (m * 10 / d) 10
  have hg := Nat.mod_lt (m * 10 / d) (by decide : 0 < 10)
  generalize m * 10 / d = t at hlow hhigh hsplit hg ⊢
  generalize t / 10 = q at hsplit ⊢
  generalize t % 10 = g at hsplit hg ⊢
  subst hsplit
  unfold halfUp
  symm
  split
  · rename_i h5
    have h5' := Nat.mul_le_mul_left d h5
    have hg' := Nat.mul_le_mul_left d (Nat.le_of_lt_succ hg)
    apply Nat.div_eq_of_lt_le
    · linarith
    · linarith
  · rename_i h5
    have hg' := Nat.mul_le_mul_left d (show g + 1 ≤ 5 by omega)
    apply Nat.div_eq_of_lt_le
    · have hge := Nat.zero_le (d * g)
      linarith
    · linarith

theorem halfUp_eq_zero {m d : Nat} (h : 2 * m < d) : halfUp m d = 0 :=
  Nat.div_eq_of_lt (by omega)

theorem halfUp_mul_right (m : Nat) {d k : Nat} (hk : 0 < k) : halfUp (m * k) (d * k) = halfUp m d := by
  unfold halfUp
  rw [← Nat.mul_div_mul_right (2 * m + d) (2 * d) hk]
  congr 1
  · ring
  · ring

theorem halfUp_one (m : Nat) : halfUp m 1 = m := by
  unfold halfUp
  omega

/-- The result is not larger than what the dividend can carry to. -/
theorem halfUp_le (m : Nat) {d : Nat} (hd : 0 < d) : halfUp m d ≤ m / d + 1 := by
  rw [halfUp_of_rem m hd]
  split
  · exact Nat.le_refl _
  · exact Nat.le_succ _

theorem nearest_int (z : Int) : NearestAway z z := by
  intro w
  rw [sub_self, abs_zero]
  by_cases h : z = w
  · exact Or.inr ⟨by rw [h, sub_self, abs_zero], by rw [h]⟩
  · refine Or.inl (abs_pos.2 ?_)
    rw [sub_ne_zero]
    exact_mod_cast h

/-- Places dropped from a magnitude. -/
theorem nearest_scaled (m k : Nat) : NearestAway (scaled m k) (halfUp m (10 ^ k)) := by
  have hnear := nearest_halfUp m (Nat.pow_pos (by decide : 0 < 10) : 0 < 10 ^ k)
  have heq : scaled m k = (m : ℚ) / ((10 ^ k : Nat) : ℚ) := by
    rw [scaled, zpow_neg, zpow_natCast, div_eq_mul_inv]
    push_cast
    rfl
  rwa [heq]

end Rounding
