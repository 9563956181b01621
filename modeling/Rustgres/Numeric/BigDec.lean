-- SUMMARY: Exact signed decimals: comparison, sums, products, and division with rounding.
import Rustgres.Numeric.Basic

/-!
# Exact Decimals

A sign, a big magnitude and a scale. Numerics go through these when a machine integer is too small.
-/

namespace Num

open Decimal Scaled

structure BigDec where
  neg : Bool
  mag : BigUint
  scale : Int

namespace BigDec

def zero : BigDec := ⟨false, BigUint.zero, 0⟩

def isZero (d : BigDec) : Bool := d.mag.isZero

def normalize (d : BigDec) : BigDec := if d.mag.isZero then { d with neg := false } else d

def coef (d : BigDec) : Int := Numeric.signed d.neg d.mag.toNat

def value (d : BigDec) : ℚ := scaled d.coef d.scale

/-- Zero has no sign. -/
def Plain (d : BigDec) : Prop := d.mag.toNat = 0 → d.neg = false

@[simp] theorem coef_normalize (d : BigDec) : d.normalize.coef = d.coef := by
  unfold normalize
  split
  · rename_i h
    unfold coef
    dsimp only
    rw [BigUint.isZero_iff.1 h, Numeric.signed_zero, Numeric.signed_zero]
  · rfl

@[simp] theorem scale_normalize (d : BigDec) : d.normalize.scale = d.scale := by
  unfold normalize
  split
  · rfl
  · rfl

@[simp] theorem mag_normalize (d : BigDec) : d.normalize.mag = d.mag := by
  unfold normalize
  split
  · rfl
  · rfl

theorem plain_normalize (d : BigDec) : d.normalize.Plain := by
  unfold normalize Plain
  split
  · exact fun _ => rfl
  · rename_i h
    exact fun hz => absurd (BigUint.isZero_iff.2 hz) h

theorem value_normalize (d : BigDec) : d.normalize.value = d.value := by
  rw [value, coef_normalize, scale_normalize, value]

/-- The exact decimal of a finite numeric. -/
def fromNumeric (n : Numeric) : Option BigDec :=
  if n.special ≠ .finite then none
  else some (normalize ⟨n.unscaled < 0, n.mag, n.scale⟩)

theorem fromNumeric_spec {n : Numeric} (hwf : n.Wf) (h : n.special = .finite) :
    ∃ d, fromNumeric n = some d ∧ d.coef = n.coef ∧ d.scale = n.scale ∧ d.Plain := by
  unfold fromNumeric
  rw [if_neg (by simpa using h)]
  refine ⟨_, rfl, ?_, scale_normalize _, plain_normalize _⟩
  rw [coef_normalize, hwf.coef_signed, coef, Numeric.signed]
  dsimp only
  by_cases hneg : n.unscaled < 0
  · rw [if_pos hneg, if_pos (by simpa using hneg)]
  · rw [if_neg hneg, if_neg (by simpa using hneg)]

theorem Plain.coef_neg {d : BigDec} (h : d.Plain) : d.coef < 0 ↔ d.neg = true := by
  unfold coef Numeric.signed
  unfold Plain at h
  cases hn : d.neg with
  | true =>
      have hpos : d.mag.toNat ≠ 0 := fun hz => by
        rw [h hz] at hn
        cases hn
      simp only [if_true, iff_true]
      omega
  | false =>
      simp only [Bool.false_eq_true, if_false, iff_false]
      omega

theorem natAbs_coef (d : BigDec) : d.coef.natAbs = d.mag.toNat := Numeric.natAbs_signed _ _

def scalePad (a b : Int) : Nat := (a - b).natAbs

/-! ## Comparison -/

def cmpMag (d e : BigDec) : Ordering :=
  if d.scale = e.scale then d.mag.cmp e.mag
  else if d.scale > e.scale then d.mag.cmp (e.mag.mulPow10Assign (scalePad d.scale e.scale))
  else (d.mag.mulPow10Assign (scalePad e.scale d.scale)).cmp e.mag

def cmp (d e : BigDec) : Ordering :=
  if d.isZero ∧ e.isZero then .eq
  else if d.neg ≠ e.neg then (if d.neg then .lt else .gt)
  else if d.neg then (d.cmpMag e).swap
  else d.cmpMag e

/-- A magnitude at a larger scale. -/
theorem scaled_padded (m : BigUint) {s t : Int} (h : s ≤ t) :
    scaled (m.mulPow10Assign (scalePad t s)).toNat t = scaled m.toNat s := by
  have hpad := scaled_pad (u := m.toNat) h
  rw [BigUint.toNat_mulPow10Assign, scalePad, show (t - s).natAbs = (t - s).toNat by omega]
  push_cast
  exact hpad

theorem cmpMag_eq (d e : BigDec) :
    d.cmpMag e = compare (scaled d.mag.toNat d.scale) (scaled e.mag.toNat e.scale) := by
  unfold cmpMag
  split
  · rename_i h
    rw [BigUint.cmp_eq, h, compare_scaled, compare_natCast]
  · split
    · rename_i h
      rw [BigUint.cmp_eq, ← scaled_padded e.mag h.le, compare_scaled, compare_natCast]
    · rename_i hne hle
      rw [BigUint.cmp_eq, ← scaled_padded d.mag (by omega : d.scale ≤ e.scale), compare_scaled,
        compare_natCast]

theorem value_of_neg {d : BigDec} (h : d.neg = true) : d.value = -scaled d.mag.toNat d.scale := by
  rw [value, coef, Numeric.signed, h, if_pos rfl, scaled_neg]

theorem value_of_pos {d : BigDec} (h : d.neg = false) : d.value = scaled d.mag.toNat d.scale := by
  rw [value, coef, Numeric.signed, h, if_neg Bool.false_ne_true]

theorem Plain.value_neg {d : BigDec} (h : d.Plain) (hneg : d.neg = true) : d.value < 0 :=
  scaled_neg_iff.2 (h.coef_neg.2 hneg)

theorem Plain.value_nonneg {d : BigDec} (h : d.Plain) (hpos : d.neg = false) : 0 ≤ d.value := by
  have hneg := h.coef_neg
  rw [hpos] at hneg
  apply scaled_nonneg.2
  by_contra hcon
  exact Bool.false_ne_true (hneg.1 (by omega))

theorem cmp_eq {d e : BigDec} (hd : d.Plain) (he : e.Plain) : d.cmp e = compare d.value e.value := by
  unfold cmp isZero
  split
  · rename_i h
    rw [value, value, coef, coef, BigUint.isZero_iff.1 h.1, BigUint.isZero_iff.1 h.2, Numeric.signed_zero,
      Numeric.signed_zero, scaled_zero, scaled_zero]
    rfl
  · cases hdn : d.neg with
    | true =>
        cases hen : e.neg with
        | true =>
            rw [if_neg (by simp), if_pos rfl, cmpMag_eq, value_of_neg hdn, value_of_neg hen, compare_neg_neg]
        | false =>
            rw [if_pos (by simp), if_pos rfl]
            exact (compare_lt_iff_lt.2 (lt_of_lt_of_le (hd.value_neg hdn) (he.value_nonneg hen))).symm
    | false =>
        cases hen : e.neg with
        | true =>
            rw [if_pos (by simp), if_neg (by simp)]
            exact (compare_gt_iff_gt.2 (lt_of_lt_of_le (he.value_neg hen) (hd.value_nonneg hdn))).symm
        | false =>
            rw [if_neg (by simp), if_neg (by simp), cmpMag_eq, value_of_pos hdn, value_of_pos hen]

/-! ## Sums and products -/

/-- The magnitudes at the larger of the two scales. -/
def aligned (d e : BigDec) : BigUint × BigUint × Int :=
  if d.scale ≥ e.scale then (d.mag, e.mag.mulPow10Assign (scalePad d.scale e.scale), d.scale)
  else (d.mag.mulPow10Assign (scalePad e.scale d.scale), e.mag, e.scale)

def sub (d e : BigDec) : BigDec :=
  let a := (aligned d e).1
  let b := (aligned d e).2.1
  let scale := (aligned d e).2.2
  if d.neg = e.neg then
    match a.cmp b with
    | .eq => zero
    | .gt => normalize ⟨d.neg, a.subAssign b, scale⟩
    | .lt => normalize ⟨!d.neg, b.subAssign a, scale⟩
  else normalize ⟨d.neg, a.addAssign b, scale⟩

def negate (d : BigDec) : BigDec := if d.mag.isZero then d else { d with neg := !d.neg }

def add (d e : BigDec) : BigDec := d.sub e.negate

theorem aligned_spec (d e : BigDec) :
    (aligned d e).2.2 = max d.scale e.scale ∧
      scaled (aligned d e).1.toNat (aligned d e).2.2 = scaled d.mag.toNat d.scale ∧
      scaled (aligned d e).2.1.toNat (aligned d e).2.2 = scaled e.mag.toNat e.scale := by
  unfold aligned
  split
  · rename_i h
    exact ⟨(max_eq_left h).symm, rfl, scaled_padded e.mag h⟩
  · rename_i h
    have hle : d.scale ≤ e.scale := by omega
    exact ⟨(max_eq_right hle).symm, scaled_padded d.mag hle, rfl⟩

theorem scaled_signed (neg : Bool) (m : Nat) (s : Int) :
    scaled (Numeric.signed neg m) s = if neg then -scaled m s else scaled m s := by
  unfold Numeric.signed
  cases neg with
  | true => exact scaled_neg _ _
  | false => rfl

theorem value_eq (d : BigDec) : d.value = if d.neg then -scaled d.mag.toNat d.scale else scaled d.mag.toNat d.scale :=
  scaled_signed _ _ _

theorem sub_spec (d e : BigDec) : (d.sub e).value = d.value - e.value ∧
    ((d.sub e).scale = max d.scale e.scale ∨ (d.sub e) = zero) := by
  obtain ⟨hscale, ha, hb⟩ := aligned_spec d e
  rw [value_eq d, value_eq e, ← ha, ← hb]
  unfold sub
  dsimp only
  generalize (aligned d e).1 = a at ha
  generalize (aligned d e).2.1 = b at hb
  generalize (aligned d e).2.2 = s at hscale
  by_cases hneg : d.neg = e.neg
  · rw [if_pos hneg, BigUint.cmp_eq, ← hneg]
    cases hcmp : compare a.toNat b.toNat with
    | eq =>
        rw [Nat.compare_eq_eq] at hcmp
        refine ⟨?_, Or.inr rfl⟩
        rw [hcmp, sub_self]
        exact scaled_zero 0
    | gt =>
        rw [Nat.compare_eq_gt] at hcmp
        dsimp only
        rw [value_normalize, value_eq]
        refine ⟨?_, Or.inl (by rw [scale_normalize]; exact hscale)⟩
        dsimp only
        rw [BigUint.toNat_subAssign hcmp.le, Nat.cast_sub hcmp.le, scaled_sub]
        cases d.neg with
        | true =>
            rw [if_pos rfl, if_pos rfl, if_pos rfl]
            ring
        | false => rfl
    | lt =>
        rw [Nat.compare_eq_lt] at hcmp
        dsimp only
        rw [value_normalize, value_eq]
        refine ⟨?_, Or.inl (by rw [scale_normalize]; exact hscale)⟩
        dsimp only
        rw [BigUint.toNat_subAssign hcmp.le, Nat.cast_sub hcmp.le, scaled_sub]
        cases d.neg with
        | true =>
            simp only [Bool.not_true, Bool.false_eq_true, if_false, if_true]
            ring
        | false =>
            simp only [Bool.not_false, Bool.false_eq_true, if_false, if_true]
            ring
  · rw [if_neg hneg, value_normalize, value_eq]
    refine ⟨?_, Or.inl (by rw [scale_normalize]; exact hscale)⟩
    dsimp only
    rw [BigUint.toNat_addAssign, Nat.cast_add, scaled_add]
    cases hd : d.neg with
    | true =>
        cases he : e.neg with
        | true =>
            rw [hd, he] at hneg
            exact absurd rfl hneg
        | false =>
            simp only [Bool.false_eq_true, if_false, if_true]
            ring
    | false =>
        cases he : e.neg with
        | true =>
            simp only [Bool.false_eq_true, if_false, if_true]
            ring
        | false =>
            rw [hd, he] at hneg
            exact absurd rfl hneg

theorem value_negate (d : BigDec) : d.negate.value = -d.value := by
  unfold negate
  split
  · rename_i h
    rw [value, coef, BigUint.isZero_iff.1 h, Numeric.signed_zero, scaled_zero, neg_zero]
  · rw [value_eq, value_eq]
    cases d.neg with
    | true =>
        simp only [Bool.not_true, Bool.false_eq_true, if_false, if_true]
        ring
    | false =>
        simp only [Bool.not_false, Bool.false_eq_true, if_false, if_true]

theorem scale_negate (d : BigDec) : d.negate.scale = d.scale := by
  unfold negate
  split
  · rfl
  · rfl

theorem add_spec (d e : BigDec) : (d.add e).value = d.value + e.value ∧
    ((d.add e).scale = max d.scale e.scale ∨ (d.add e) = zero) := by
  obtain ⟨hval, hscale⟩ := sub_spec d e.negate
  rw [value_negate, sub_neg_eq_add] at hval
  rw [scale_negate] at hscale
  exact ⟨hval, hscale⟩

/-- The sum of two scales, clamped to the machine range. -/
def clampScale (z : Int) : Int := max (-2 ^ 31) (min z (2 ^ 31 - 1))

def mulExact (d e : BigDec) : BigDec :=
  normalize ⟨d.neg != e.neg, d.mag.mul e.mag, clampScale (d.scale + e.scale)⟩

theorem coef_mulExact (d e : BigDec) : (d.mulExact e).coef = d.coef * e.coef := by
  unfold mulExact
  rw [coef_normalize]
  unfold coef Numeric.signed
  dsimp only
  rw [BigUint.toNat_mul]
  cases d.neg with
  | true =>
      cases e.neg with
      | true =>
          simp only [bne_self_eq_false, Bool.false_eq_true, if_false, if_true]
          push_cast
          ring
      | false =>
          simp only [Bool.true_bne, Bool.not_false, Bool.false_eq_true, if_false, if_true]
          push_cast
          ring
  | false =>
      cases e.neg with
      | true =>
          simp only [Bool.false_bne, Bool.false_eq_true, if_false, if_true]
          push_cast
          ring
      | false =>
          simp only [bne_self_eq_false, Bool.false_eq_true, if_false]
          push_cast
          ring

theorem scale_mulExact (d e : BigDec) : (d.mulExact e).scale = clampScale (d.scale + e.scale) :=
  scale_normalize _

end BigDec

end Num
