-- SUMMARY: Rounding of numerics to a scale, and to a column's precision and scale.
import Rustgres.Lib.Rounding
import Rustgres.Numeric.BigDec

/-!
# Rounding

A numeric rounded to a scale is the nearest multiple of that power of ten, ties away from zero. On the
inline path half of the power is added to the mantissa first, which a machine integer may not hold.
-/

namespace Num

open Decimal Scaled Rounding

namespace BigDec

def roundToScale (d : BigDec) (rscale : Int) : BigDec :=
  if rscale ≥ d.scale then
    normalize ⟨d.neg, d.mag.mulPow10Assign (asU32 (rscale - d.scale)), rscale⟩
  else if d.scale - rscale > 1000000 then zero
  else
    let pow10 := (BigUint.fromU64 1).mulPow10Assign (d.scale - rscale).toNat
    let q := (d.mag.divRem pow10).1
    let r := (d.mag.divRem pow10).2
    normalize ⟨d.neg, if (r.addAssign r).cmp pow10 ≠ .lt then q.addSmallAssign 1 else q, rscale⟩

theorem coef_roundToScale_widen {d : BigDec} {rscale : Int} (h : d.scale ≤ rscale)
    (hlt : rscale - d.scale < 2 ^ 32) :
    (d.roundToScale rscale).value = d.value ∧ (d.roundToScale rscale).scale = rscale := by
  rw [roundToScale, if_pos h, value, coef_normalize, scale_normalize]
  refine ⟨?_, rfl⟩
  unfold coef
  dsimp only
  rw [BigUint.toNat_mulPow10Assign, asU32_of_lt (by omega) hlt, Numeric.signed_mul]
  push_cast
  exact scaled_pad h

theorem coef_roundToScale {d : BigDec} {rscale : Int} (h : rscale < d.scale) (hdrop : d.scale - rscale ≤ 1000000) :
    (d.roundToScale rscale).coef = Numeric.signed d.neg (halfUp d.mag.toNat (10 ^ (d.scale - rscale).toNat)) ∧
      (d.roundToScale rscale).scale = rscale := by
  have hpow : 0 < 10 ^ (d.scale - rscale).toNat := Nat.pow_pos (by decide)
  have hten : ((BigUint.fromU64 1).mulPow10Assign (d.scale - rscale).toNat).toNat
      = 10 ^ (d.scale - rscale).toNat := by
    rw [BigUint.toNat_mulPow10Assign, BigUint.toNat_fromU64, Nat.one_mul]
  unfold roundToScale
  rw [if_neg (by omega), if_neg (by omega)]
  dsimp only
  rw [coef_normalize, scale_normalize]
  refine ⟨?_, rfl⟩
  unfold coef
  dsimp only
  generalize (BigUint.fromU64 1).mulPow10Assign (d.scale - rscale).toNat = pow10 at hten ⊢
  rw [← hten] at hpow ⊢
  congr 1
  have htwice : ((d.mag.divRem pow10).2.addAssign (d.mag.divRem pow10).2).cmp pow10 ≠ .lt
      ↔ pow10.toNat ≤ 2 * (d.mag.toNat % pow10.toNat) := by
    rw [BigUint.cmp_eq, BigUint.toNat_addAssign, BigUint.toNat_rem _ hpow, ne_eq, Nat.compare_eq_lt]
    omega
  rw [halfUp_of_rem _ hpow]
  by_cases hle : pow10.toNat ≤ 2 * (d.mag.toNat % pow10.toNat)
  · rw [if_pos (htwice.2 hle), if_pos hle, BigUint.toNat_addSmallAssign, BigUint.toNat_quot _ hpow]
  · rw [if_neg (fun h => hle (htwice.1 h)), if_neg hle, BigUint.toNat_quot _ hpow, Nat.add_zero]

end BigDec

namespace Numeric

def fromBigdec (d : BigDec) (dscale : Int) : Option Numeric :=
  fromBig (d.neg && !d.mag.isZero) d.mag d.scale dscale

theorem signed_and_not_isZero (d : BigDec) : signed (d.neg && !d.mag.isZero) d.mag.toNat = d.coef := by
  unfold BigDec.coef
  cases hz : d.mag.isZero with
  | true => rw [BigUint.isZero_iff.1 hz, signed_zero, signed_zero]
  | false => rw [Bool.not_false, Bool.and_true]

theorem fromBigdec_some {d : BigDec} {dscale : Int} {n : Numeric} (hs : InI32 d.scale)
    (hd : d.scale ≤ dscale.toNat) (h : fromBigdec d dscale = some n) : n.Builds d.value dscale.toNat := by
  have hb := fromBig_some hs hd h
  rwa [signed_and_not_isZero] at hb

theorem fromBigdec_eq_none {d : BigDec} {dscale : Int} :
    fromBigdec d dscale = none
      ↔ d.coef ≠ 0 ∧ maxIntDigits < (numDigits d.coef.natAbs : Int) - d.scale := by
  have habs := d.natAbs_coef
  rw [fromBigdec, fromBig_eq_none, habs]
  constructor
  · rintro ⟨hpos, h⟩
    exact ⟨by omega, h⟩
  · rintro ⟨hne, h⟩
    exact ⟨by omega, h⟩

/-- Digits of the mantissa in either form. -/
def magDigits (n : Numeric) : Nat :=
  match n.big with
  | some m => m.decimalDigits
  | none => numDigits n.unscaled.natAbs

/-- Digits before the point; none for zero. -/
def intDigits (n : Numeric) : Int := if n.unscaled = 0 then 0 else n.magDigits - n.scale

theorem magDigits_eq {n : Numeric} (h : n.Wf) : n.magDigits = numDigits n.coef.natAbs := by
  rw [← h.toNat_mag, mag, magDigits]
  cases n.big with
  | none =>
      dsimp only
      rw [BigUint.toNat_fromU128]
  | some m => exact m.decimalDigits_eq

theorem intDigits_eq {n : Numeric} (h : n.Wf) : n.intDigits = (numDigits n.coef.natAbs : Int) - n.scale := by
  unfold intDigits
  split
  · rename_i hz
    rw [h.coef_eq_zero.2 hz, h.zero_scale hz]
    rfl
  · rw [magDigits_eq h]

/-- The rounded mantissa on the inline path. -/
def roundInline (unscaled div : Int) : Option Int :=
  (checkedI128 (unscaled + if unscaled ≥ 0 then div / 2 else -(div / 2))).map fun x => x.tdiv div

def roundTo (n : Numeric) (scale : Int) : Option Numeric :=
  if n.special ≠ .finite then some n
  else if n.big.isSome then
    (BigDec.fromNumeric n).bind fun d =>
      (fromBigdec (d.roundToScale scale) (max scale 0)).bind fun r =>
        if (r.withDscale (max scale 0)).intDigits > maxIntDigits then none
        else some (r.withDscale (max scale 0))
  else if scale ≥ n.scale then some { n with dscale := (max scale 0).toNat }
  else
    match checkedPow10 (asU32 (n.scale - scale)) with
    | none => some (zero.withDscale scale)
    | some div =>
      (roundInline n.unscaled div).bind fun u =>
        if (new u scale).intDigits > maxIntDigits then none else some ((new u scale).withDscale scale)

/-! ## The nearest multiple -/

/-- The mantissa of the numeric rounded to a scale. -/
def rounded (n : Numeric) (s : Int) : Int :=
  if n.scale ≤ s then n.coef * 10 ^ (s - n.scale).toNat
  else signed (n.coef < 0) (halfUp n.coef.natAbs (10 ^ (n.scale - s).toNat))

theorem signed_self (z : Int) : signed (z < 0) z.natAbs = z := by
  unfold signed
  by_cases h : z < 0
  · rw [if_pos (by simpa using h)]
    omega
  · rw [if_neg (by simpa using h)]
    omega

theorem nearest_rounded (n : Numeric) (s : Int) : NearestAway (n.value * 10 ^ s) (n.rounded s) := by
  rw [value, scaled_shift]
  unfold rounded
  split
  · rename_i h
    have hval : scaled n.coef (n.scale - s) = ((n.coef * 10 ^ (s - n.scale).toNat : Int) : ℚ) := by
      rw [← scaled_scale_zero, ← scaled_pad (by omega : n.scale - s ≤ 0)]
      congr 3
      omega
    rw [hval]
    exact nearest_int _
  · rename_i h
    have hk : n.scale - s = ((n.scale - s).toNat : Int) := by omega
    have hnear := nearest_scaled n.coef.natAbs (n.scale - s).toNat
    have hsplit : n.coef = signed (n.coef < 0) n.coef.natAbs := (signed_self n.coef).symm
    generalize n.coef.natAbs = m at hnear hsplit ⊢
    generalize hneg : decide (n.coef < 0) = neg at hsplit ⊢
    rw [hsplit]
    generalize (n.scale - s).toNat = k at hk hnear ⊢
    rw [hk]
    cases neg with
    | false => exact hnear
    | true =>
        have hflip := hnear.neg
        rwa [← scaled_neg] at hflip

/-- Half of the dropped power of ten does not fit on top of an inline mantissa. -/
def Carries (n : Numeric) (s : Int) : Prop :=
  n.special = .finite ∧ n.big = none ∧ s < n.scale ∧ n.scale - s ≤ 38 ∧
    2 ^ 127 ≤ n.unscaled.natAbs + 10 ^ (n.scale - s).toNat / 2 ∧
    ¬(n.unscaled < 0 ∧ n.unscaled.natAbs + 10 ^ (n.scale - s).toNat / 2 = 2 ^ 127)

theorem checkedPow10_eq {k : Nat} : checkedPow10 k = if k ≤ 38 then some (10 ^ k) else none := by
  unfold checkedPow10 checkedI128
  have hiff : InI128 (10 ^ k) ↔ k ≤ 38 := by
    unfold InI128
    constructor
    · rintro ⟨-, h⟩
      by_contra hcon
      have hle : (10 : Int) ^ 39 ≤ 10 ^ k := pow_le_pow_right₀ (by decide) (by omega)
      have hbig : (2 : Int) ^ 127 < 10 ^ 39 := by decide
      omega
    · intro h
      have hle : (10 : Int) ^ k ≤ 10 ^ 38 := pow_le_pow_right₀ (by decide) h
      have hpos : (0 : Int) < 10 ^ k := by positivity
      have hbig : (10 : Int) ^ 38 < 2 ^ 127 := by decide
      omega
  simp only [hiff]

theorem pow_even {k : Nat} (h : 0 < k) : 10 ^ k % 2 = 0 := by
  obtain ⟨j, rfl⟩ := Nat.exists_eq_succ_of_ne_zero (by omega : k ≠ 0)
  rw [pow_succ]
  omega

/-- The inline path rounds where the half fits. -/
theorem roundInline_eq {u : Int} (hu : InI128 u) {k : Nat} (hk : 0 < k) (hpow : (10 : Int) ^ k < 2 ^ 127) :
    roundInline u (10 ^ k)
      = if 2 ^ 127 ≤ u.natAbs + 10 ^ k / 2 ∧ ¬(u < 0 ∧ u.natAbs + 10 ^ k / 2 = 2 ^ 127) then none
        else some (signed (u < 0) (halfUp u.natAbs (10 ^ k))) := by
  have hpos : (0 : Int) < 10 ^ k := by positivity
  have hcast : ((10 ^ k : Nat) : Int) = 10 ^ k := by push_cast; rfl
  have hhalf : ((10 ^ k / 2 : Nat) : Int) = 10 ^ k / 2 := by push_cast; rfl
  have hup := halfUp_of_add u.natAbs (pow_even hk)
  unfold roundInline checkedI128
  have hsum : InI128 (u + if u ≥ 0 then 10 ^ k / 2 else -(10 ^ k / 2))
      ↔ ¬(2 ^ 127 ≤ u.natAbs + 10 ^ k / 2 ∧ ¬(u < 0 ∧ u.natAbs + 10 ^ k / 2 = 2 ^ 127)) := by
    unfold InI128 at *
    generalize 10 ^ k / 2 = half at hhalf ⊢
    rw [← hhalf]
    split
    · omega
    · omega
  by_cases hfits : InI128 (u + if u ≥ 0 then 10 ^ k / 2 else -(10 ^ k / 2))
  · rw [if_pos hfits, if_neg (hsum.1 hfits), Option.map_some]
    congr 1
    unfold signed
    by_cases hneg : u < 0
    · rw [if_neg (by omega), if_pos (by simpa using hneg), ← hup]
      have hx : u + -(10 ^ k / 2) = -((u.natAbs + 10 ^ k / 2 : Nat) : Int) := by
        rw [Nat.cast_add, hhalf]
        omega
      rw [hx, Int.neg_tdiv, ← hcast, Int.ofNat_tdiv]
    · rw [if_pos (by omega), if_neg (by simpa using hneg), ← hup]
      have hx : u + 10 ^ k / 2 = ((u.natAbs + 10 ^ k / 2 : Nat) : Int) := by
        rw [Nat.cast_add, hhalf]
        omega
      rw [hx, ← hcast, Int.ofNat_tdiv]
  · rw [if_neg hfits, if_pos (by by_contra hcon; exact hfits (hsum.2 hcon)), Option.map_none]

/-- A result of rounding: the given integer at the scale, shown to it. -/
def RoundsTo (r : Numeric) (z s : Int) : Prop := r.Builds (scaled z s) s.toNat

theorem natAbs_rounded {n : Numeric} {s : Int} (h : s < n.scale) :
    (n.rounded s).natAbs = halfUp n.coef.natAbs (10 ^ (n.scale - s).toNat) := by
  rw [rounded, if_neg (by omega), natAbs_signed]

theorem value_rounded_widen {n : Numeric} {s : Int} (h : n.scale ≤ s) : scaled (n.rounded s) s = n.value := by
  rw [rounded, if_pos h]
  exact scaled_pad h

theorem large_of_digits {z s : Int} (hz : z ≠ 0) (h : maxIntDigits < (numDigits z.natAbs : Int) - s) :
    (10 : ℚ) ^ maxIntDigits ≤ |scaled z s| := by
  rw [abs_scaled]
  exact pow_le_scaled (by omega) h

/-- A numeric denoting an integer at a scale has its digits before the point. -/
theorem digits_of_value {n : Numeric} {z s : Int} (h : n.value = scaled z s) (hz : z ≠ 0) :
    (numDigits n.coef.natAbs : Int) - n.scale = (numDigits z.natAbs : Int) - s := by
  have hne : n.coef ≠ 0 := by
    intro hc
    rw [value, hc, scaled_zero] at h
    exact hz (scaled_eq_zero.1 h.symm)
  have habs : scaled (n.coef.natAbs : Int) n.scale = scaled (z.natAbs : Int) s := by
    rw [← abs_scaled, ← abs_scaled]
    exact congrArg _ h
  rcases Int.lt_trichotomy ((numDigits n.coef.natAbs : Int) - n.scale) ((numDigits z.natAbs : Int) - s)
    with hd | hd | hd
  · exact absurd habs (scaled_lt_of_digits (by omega) hd).ne
  · exact hd
  · exact absurd habs (scaled_lt_of_digits (by omega) hd).ne'

/-- Past the limit of the format a numeric is not shown; the check is on the value. -/
theorem check_digits {r : Numeric} {z s : Int} (hr : r.RoundsTo z s) :
    (if r.intDigits > maxIntDigits then none else some r) = none ∧ (10 : ℚ) ^ maxIntDigits ≤ |scaled z s| ∨
      (if r.intDigits > maxIntDigits then none else some r) = some r := by
  by_cases hgt : r.intDigits > maxIntDigits
  · rw [if_pos hgt]
    refine Or.inl ⟨rfl, ?_⟩
    have hdig := intDigits_eq hr.wf
    have hz : z ≠ 0 := by
      rintro rfl
      have hv := hr.value_eq
      rw [scaled_zero] at hv
      have hc : r.coef = 0 := scaled_eq_zero.1 hv
      have hs := hr.wf.zero_scale (hr.wf.coef_eq_zero.1 hc)
      rw [hc, hs] at hdig
      rw [hdig] at hgt
      exact absurd hgt (by decide)
    apply large_of_digits hz
    rw [← digits_of_value hr.value_eq hz, ← hdig]
    exact hgt
  · rw [if_neg hgt]
    exact Or.inr rfl

/-- A scale so far above that nothing is left of the numeric. -/
theorem rounded_eq_zero {n : Numeric} {s : Int} (h : s < n.scale)
    (hdig : (numDigits n.coef.natAbs : Int) + 1 ≤ n.scale - s) : n.rounded s = 0 := by
  have hzero : halfUp n.coef.natAbs (10 ^ (n.scale - s).toNat) = 0 := by
    apply halfUp_eq_zero
    have hlt := lt_pow_numDigits n.coef.natAbs
    calc 2 * n.coef.natAbs < 10 * 10 ^ numDigits n.coef.natAbs := by omega
      _ = 10 ^ (numDigits n.coef.natAbs + 1) := by rw [pow_succ, Nat.mul_comm]
      _ ≤ 10 ^ (n.scale - s).toNat := Nat.pow_le_pow_right (by decide) (by omega)
  have habs := natAbs_rounded (n := n) h
  rw [hzero] at habs
  omega

/-- The exact decimal of a numeric rounds to its nearest multiple. -/
theorem value_roundToScale {n : Numeric} (hwf : n.Wf) (hbig : n.big.isSome) (hcap : n.scale ≤ 500000) {s : Int}
    (hs : InI32 s) {d : BigDec} (hdc : d.coef = n.coef) (hds : d.scale = n.scale) (hplain : d.Plain) :
    (d.roundToScale s).value = scaled (n.rounded s) s ∧
      ((d.roundToScale s).scale = s ∨ d.roundToScale s = BigDec.zero) := by
  have hsr := hwf.scale_range
  by_cases hle : n.scale ≤ s
  · obtain ⟨hval, hscale⟩ := BigDec.coef_roundToScale_widen (d := d) (by omega : d.scale ≤ s)
      (by unfold InI32 at hs hsr; omega)
    rw [value_rounded_widen hle, hval, BigDec.value, hdc, hds]
    exact ⟨rfl, Or.inl hscale⟩
  · by_cases hdrop : d.scale - s ≤ 1000000
    · obtain ⟨hcoef, hscale⟩ := BigDec.coef_roundToScale (d := d) (by omega : s < d.scale) hdrop
      have hneg : decide (n.coef < 0) = d.neg := by
        have hiff := hplain.coef_neg
        rw [hdc] at hiff
        cases hn : d.neg with
        | true => exact decide_eq_true (hiff.2 hn)
        | false =>
            apply decide_eq_false
            intro hlt
            rw [hiff.1 hlt] at hn
            cases hn
      rw [BigDec.value, hcoef, hscale, rounded, if_neg hle, hneg, ← hds, ← hdc, d.natAbs_coef]
      exact ⟨rfl, Or.inl rfl⟩
    · rw [BigDec.roundToScale, if_neg (by omega), if_pos (by omega)]
      refine ⟨?_, Or.inr rfl⟩
      obtain ⟨m, hm⟩ := Option.isSome_iff_exists.1 hbig
      have hdig := hwf.big_digits m hm
      have hmag := hwf.toNat_mag
      rw [mag, hm] at hmag
      dsimp only at hmag
      rw [hmag] at hdig
      rw [rounded_eq_zero (by omega) (by unfold maxIntDigits at hdig; omega), scaled_zero]
      exact scaled_zero 0

theorem natAbs_ne_zero_of_scaled {z s : Int} {d : BigDec} (hval : d.value = scaled z s) (hne : d.coef ≠ 0) :
    z ≠ 0 := by
  rintro rfl
  rw [scaled_zero] at hval
  exact hne (scaled_eq_zero.1 hval)

/-- A decimal refused by the format is large. -/
theorem large_of_fromBigdec {d : BigDec} {dscale z s : Int} (h : fromBigdec d dscale = none)
    (hval : d.value = scaled z s) : (10 : ℚ) ^ maxIntDigits ≤ |scaled z s| := by
  obtain ⟨hne, hdig⟩ := fromBigdec_eq_none.1 h
  rw [← hval]
  exact large_of_digits hne hdig

/-- The big path rounds, up to the limit of the format. -/
theorem roundTo_big {n : Numeric} (hwf : n.Wf) (hfin : n.special = .finite) (hbig : n.big.isSome)
    (hcap : n.scale ≤ 500000) {s : Int} (hs : InI32 s) :
    (∃ r, n.roundTo s = some r ∧ r.RoundsTo (n.rounded s) s) ∨
      n.roundTo s = none ∧ (10 : ℚ) ^ maxIntDigits ≤ |scaled (n.rounded s) s| := by
  obtain ⟨d, hd, hdc, hds, hplain⟩ := BigDec.fromNumeric_spec hwf hfin
  obtain ⟨hval, hscale⟩ := value_roundToScale hwf hbig hcap hs hdc hds hplain
  have hdscale : (max s 0).toNat = s.toNat := by omega
  have hrange : InI32 (d.roundToScale s).scale ∧ (d.roundToScale s).scale ≤ (max s 0).toNat := by
    rcases hscale with h | h
    · rw [h]
      exact ⟨hs, by omega⟩
    · rw [h]
      exact ⟨by decide, Int.natCast_nonneg _⟩
  unfold roundTo
  rw [if_neg (by simp [hfin]), if_pos hbig, hd, Option.bind_some]
  cases hb : fromBigdec (d.roundToScale s) (max s 0) with
  | none => exact Or.inr ⟨rfl, large_of_fromBigdec hb hval⟩
  | some r =>
      have hbuilds := fromBigdec_some hrange.1 hrange.2 hb
      rw [hval, hdscale] at hbuilds
      have hshown : r.withDscale (max s 0) = r := by
        unfold withDscale
        rw [hdscale, ← hbuilds.dscale_eq]
      rw [Option.bind_some, hshown]
      rcases check_digits hbuilds with h | h
      · exact Or.inr h
      · exact Or.inl ⟨r, h, hbuilds⟩

theorem Wf.withShown {n : Numeric} (h : n.Wf) {d : Nat} (hd : n.scale ≤ d) : ({ n with dscale := d } : Numeric).Wf := {
  unscaled_range := h.unscaled_range
  scale_range := h.scale_range
  special_zero := h.special_zero
  big_sign := h.big_sign
  big_large := h.big_large
  big_digits := h.big_digits
  zero_scale := h.zero_scale
  stripped := h.stripped
  shown := hd }

theorem withDscale_new (u s : Int) : (new u s).withDscale s = new u s := by
  unfold withDscale
  rw [← dscale_new u s]

theorem new_roundsTo {z s : Int} (hz : InI128 z) (hs : InI32 s) : (new z s).RoundsTo z s :=
  ⟨special_new z s, value_new z s, dscale_new z s, wf_new hz hs⟩

/-- The rounded mantissa of an inline numeric fits. -/
theorem inI128_rounded {n : Numeric} (hwf : n.Wf) (hbig : n.big = none) {s : Int} (h : s < n.scale) :
    InI128 (n.rounded s) := by
  have hur := hwf.unscaled_range
  have habs := natAbs_rounded (n := n) h
  have hpos : 0 < 10 ^ (n.scale - s).toNat := Nat.pow_pos (by decide)
  have hten : 10 ≤ 10 ^ (n.scale - s).toNat := Nat.le_self_pow (by omega) 10
  have hle := halfUp_le n.coef.natAbs hpos
  have hdiv : n.coef.natAbs / 10 ^ (n.scale - s).toNat ≤ n.coef.natAbs / 10 :=
    Nat.div_le_div_left hten (by decide)
  rw [coef_inline hbig] at habs hle hdiv
  unfold InI128 at *
  omega

/-- The inline path rounds where the half fits on top of the mantissa, up to the limit of the format. -/
theorem roundTo_inline {n : Numeric} (hwf : n.Wf) (hfin : n.special = .finite) (hbig : n.big = none)
    {s : Int} (hs : InI32 s) (hcarry : ¬n.Carries s) :
    (∃ r, n.roundTo s = some r ∧ r.RoundsTo (n.rounded s) s) ∨
      n.roundTo s = none ∧ (10 : ℚ) ^ maxIntDigits ≤ |scaled (n.rounded s) s| := by
  have hsr := hwf.scale_range
  have hur := hwf.unscaled_range
  unfold roundTo
  rw [if_neg (by simp [hfin]), if_neg (by simp [hbig])]
  by_cases hle : n.scale ≤ s
  · rw [if_pos hle]
    refine Or.inl ⟨_, rfl, hfin, ?_, ?_, hwf.withShown (by omega)⟩
    · exact (value_rounded_widen hle).symm
    · dsimp only
      omega
  · have hdrop : asU32 (n.scale - s) = (n.scale - s).toNat :=
      asU32_of_lt (by omega) (by unfold InI32 at hs hsr; omega)
    rw [if_neg hle, hdrop, checkedPow10_eq]
    by_cases hk : (n.scale - s).toNat ≤ 38
    · have hpow : (10 : Int) ^ (n.scale - s).toNat < 2 ^ 127 := by
        have hle' : (10 : Int) ^ (n.scale - s).toNat ≤ 10 ^ 38 := pow_le_pow_right₀ (by decide) hk
        have hb : (10 : Int) ^ 38 < 2 ^ 127 := by decide
        omega
      rw [if_pos hk]
      dsimp only
      rw [roundInline_eq hur (by omega) hpow, if_neg]
      · rw [Option.bind_some]
        have hz : signed (n.unscaled < 0) (halfUp n.unscaled.natAbs (10 ^ (n.scale - s).toNat)) = n.rounded s := by
          rw [rounded, if_neg hle, coef_inline hbig]
        have hrounds := new_roundsTo (inI128_rounded hwf hbig (by omega : s < n.scale)) hs
        rw [hz, withDscale_new]
        rcases check_digits hrounds with h | h
        · exact Or.inr h
        · exact Or.inl ⟨_, h, hrounds⟩
      · intro hcon
        exact hcarry ⟨hfin, hbig, by omega, by omega, hcon⟩
    · rw [if_neg hk]
      have hzero : n.rounded s = 0 := by
        have hlarge : 10 ^ 39 ≤ 10 ^ (n.scale - s).toNat := Nat.pow_le_pow_right (by decide) (by omega)
        have hbound : (2 : Nat) ^ 128 < 10 ^ 39 := by decide
        have habs := natAbs_rounded (n := n) (by omega : s < n.scale)
        rw [coef_inline hbig, halfUp_eq_zero] at habs
        · omega
        · unfold InI128 at hur
          omega
      refine Or.inl ⟨_, rfl, rfl, ?_, rfl, wf_zero.withDscale (Int.natCast_nonneg _)⟩
      rw [hzero, scaled_zero, value_withDscale]
      exact scaled_zero 0

/-- Rounding is to the nearest multiple, unless the half does not fit or the result passes the format. -/
theorem roundTo_spec {n : Numeric} (hwf : n.Wf) (hfin : n.special = .finite) (hcap : n.scale ≤ 500000)
    {s : Int} (hs : InI32 s) (hcarry : ¬n.Carries s) :
    (∃ r, n.roundTo s = some r ∧ r.RoundsTo (n.rounded s) s) ∨
      n.roundTo s = none ∧ (10 : ℚ) ^ maxIntDigits ≤ |scaled (n.rounded s) s| := by
  cases hbig : n.big with
  | none => exact roundTo_inline hwf hfin hbig hs hcarry
  | some m => exact roundTo_big hwf hfin (by rw [hbig]; rfl) hcap hs

theorem roundTo_carries {n : Numeric} (hwf : n.Wf) {s : Int} (h : n.Carries s) :
    n.roundTo s = none := by
  obtain ⟨hfin, hbig, hlt, hdrop, hcarry⟩ := h
  have hpow : (10 : Int) ^ (n.scale - s).toNat < 2 ^ 127 := by
    have hle' : (10 : Int) ^ (n.scale - s).toNat ≤ 10 ^ 38 := pow_le_pow_right₀ (by decide) (by omega)
    have hb : (10 : Int) ^ 38 < 2 ^ 127 := by decide
    omega
  have hu32 : asU32 (n.scale - s) = (n.scale - s).toNat :=
    asU32_of_lt (by omega) (by omega)
  unfold roundTo
  rw [if_neg (by simp [hfin]), if_neg (by simp [hbig]), if_neg (by omega), hu32, checkedPow10_eq,
    if_pos (by omega)]
  dsimp only
  rw [roundInline_eq hwf.unscaled_range (by omega) hpow, if_pos hcarry]
  rfl

/-! ## Precision and scale of a column -/

inductive TypmodError where
  | infinite
  | overflow
deriving DecidableEq

/-- Shift a negative scale up to zero while the machine integer holds the mantissa. -/
def shiftInline : Int → Nat → Int × Nat
  | u, 0 => (u, 0)
  | u, k + 1 =>
    match checkedI128 (u * 10) with
    | some m => shiftInline m k
    | none => (u, k + 1)

def shiftBig : BigUint → Nat → BigUint
  | m, 0 => m
  | m, k + 1 => shiftBig (m.mulPow10Assign 1) k

/-- The display of a rounded numeric: no negative scale where it can be avoided. -/
def unshifted (r : Numeric) : Numeric :=
  match r.big with
  | some m =>
    if r.scale < 0 then { r with big := some (shiftBig m (-r.scale).toNat), scale := 0 } else r
  | none =>
    if r.scale < 0 then
      { r with unscaled := (shiftInline r.unscaled (-r.scale).toNat).1
               scale := -((shiftInline r.unscaled (-r.scale).toNat).2 : Int) }
    else r

/-- The rounded value has too many digits for the precision. -/
def overflows (r : Numeric) (precision : Nat) (scale : Int) : Bool :=
  let limitPow := (precision : Int) - scale + r.scale
  if r.unscaled = 0 then false
  else if limitPow ≤ 0 then true
  else (r.magDigits : Int) > limitPow

def applyTypmod (n : Numeric) (precision : Nat) (scale : Int) : Except TypmodError Numeric :=
  if n.special = .nan then .ok n
  else if n.special ≠ .finite then .error .infinite
  else
    match n.roundTo scale with
    | none => .error .overflow
    | some r => if r.overflows precision scale then .error .overflow else .ok r.unshifted

theorem overflows_iff {r : Numeric} (hwf : r.Wf) {precision : Nat} {scale : Int} :
    r.overflows precision scale = true ↔ (10 : ℚ) ^ ((precision : Int) - scale) ≤ |r.value| := by
  have hzero := hwf.coef_eq_zero
  unfold overflows
  dsimp only
  split
  · rename_i hz
    rw [value, hzero.2 hz, scaled_zero, abs_zero]
    simp only [Bool.false_eq_true, false_iff, not_le]
    exact ten_zpow_pos _
  · rename_i hne
    have hpos : 0 < r.coef.natAbs := by omega
    have hdpos := numDigits_pos hpos
    have hlarge : (10 : ℚ) ^ ((precision : Int) - scale) ≤ scaled r.coef.natAbs r.scale
        ↔ ¬(numDigits r.coef.natAbs : Int) - r.scale ≤ precision - scale := by
      rw [← scaled_lt_pow_iff hpos, not_lt]
    rw [magDigits_eq hwf, value, abs_scaled, hlarge]
    split
    · simp only [true_iff]
      omega
    · rw [decide_eq_true_iff]
      omega

theorem toNat_shiftBig (m : BigUint) (k : Nat) : (shiftBig m k).toNat = m.toNat * 10 ^ k := by
  induction k generalizing m with
  | zero => simp [shiftBig]
  | succ k ih =>
      rw [shiftBig, ih, BigUint.toNat_mulPow10Assign, pow_succ]
      ring

theorem shiftInline_spec {u : Int} (hu : InI128 u) (k : Nat) :
    InI128 (shiftInline u k).1 ∧ (shiftInline u k).2 ≤ k ∧
      (shiftInline u k).1 = u * 10 ^ (k - (shiftInline u k).2) := by
  induction k generalizing u with
  | zero => exact ⟨hu, Nat.le_refl 0, by simp [shiftInline]⟩
  | succ k ih =>
      unfold shiftInline
      cases hc : checkedI128 (u * 10) with
      | none => exact ⟨hu, Nat.le_refl _, by simp⟩
      | some m =>
          obtain ⟨hm, rfl⟩ := checkedI128_eq_some.1 hc
          obtain ⟨hr, hle, heq⟩ := ih hm
          dsimp only
          refine ⟨hr, by omega, ?_⟩
          rw [heq, show k + 1 - (shiftInline (u * 10) k).2 = k - (shiftInline (u * 10) k).2 + 1 by omega, pow_succ]
          ring

theorem unshifted_inline {r : Numeric} {z s : Int} (h : r.RoundsTo z s) (hbig : r.big = none)
    (hneg : r.scale < 0) :
    RoundsTo { r with unscaled := (shiftInline r.unscaled (-r.scale).toNat).1
                      scale := -((shiftInline r.unscaled (-r.scale).toNat).2 : Int) } z s := by
  obtain ⟨hrange, hle, heq⟩ := shiftInline_spec h.wf.unscaled_range (-r.scale).toNat
  have hsr := h.wf.scale_range
  have hpow : (10 : Int) ^ ((-r.scale).toNat - (shiftInline r.unscaled (-r.scale).toNat).2) ≠ 0 := by positivity
  generalize shiftInline r.unscaled (-r.scale).toNat = out at hrange hle heq hpow
  refine ⟨h.finite, ?_, h.dscale_eq, ?_⟩
  · rw [← h.value_eq, value, value, coef_inline hbig, coef_inline (by exact hbig)]
    dsimp only
    rw [heq, ← scaled_pad (by omega : r.scale ≤ -(out.2 : Int))]
    congr 3
    omega
  · exact {
      unscaled_range := hrange
      scale_range := by unfold InI32 at *; dsimp only; omega
      special_zero := fun hs => absurd h.finite hs
      big_sign := fun m hm => absurd (hbig.symm.trans hm) (Option.some_ne_none m).symm
      big_large := fun m hm => absurd (hbig.symm.trans hm) (Option.some_ne_none m).symm
      big_digits := fun m hm => absurd (hbig.symm.trans hm) (Option.some_ne_none m).symm
      zero_scale := by
        intro hz
        dsimp only at hz
        rw [hz] at heq
        have hu := (mul_eq_zero.1 heq.symm).resolve_right hpow
        have hscale := h.wf.zero_scale hu
        omega
      stripped := by
        intro hpos
        dsimp only at hpos
        omega
      shown := by
        dsimp only
        omega }

theorem unshifted_big {r : Numeric} {z s : Int} (h : r.RoundsTo z s) {m : BigUint} (hbig : r.big = some m)
    (hneg : r.scale < 0) :
    RoundsTo { r with big := some (shiftBig m (-r.scale).toNat), scale := 0 } z s := by
  have hval := toNat_shiftBig m (-r.scale).toNat
  have hpow : 0 < 10 ^ (-r.scale).toNat := Nat.pow_pos (by decide)
  refine ⟨h.finite, ?_, h.dscale_eq, ?_⟩
  · rw [← h.value_eq, value, value, coef_big hbig, coef_big rfl]
    dsimp only
    rw [hval, ← scaled_pad (by omega : r.scale ≤ 0)]
    congr 1
    push_cast
    rw [mul_assoc]
    congr 3
    omega
  · exact {
      unscaled_range := h.wf.unscaled_range
      scale_range := (by decide : InI32 0)
      special_zero := fun hs => absurd h.finite hs
      big_sign := fun _ _ => h.wf.big_sign m hbig
      big_large := by
        intro k hk
        cases hk
        rw [hval]
        exact Nat.lt_of_lt_of_le (h.wf.big_large m hbig) (Nat.le_mul_of_pos_right _ hpow)
      big_digits := by
        intro k hk
        cases hk
        have hdig := h.wf.big_digits m hbig
        rw [hval, numDigits_mul_pow (h.wf.toNat_pos hbig)]
        dsimp only
        omega
      zero_scale := fun _ => rfl
      stripped := fun hpos => absurd hpos (Int.lt_irrefl 0)
      shown := Int.natCast_nonneg _ }

theorem unshifted_roundsTo {r : Numeric} {z s : Int} (h : r.RoundsTo z s) : r.unshifted.RoundsTo z s := by
  unfold unshifted
  cases hbig : r.big with
  | none =>
      dsimp only
      split
      · rename_i hneg
        have hout := unshifted_inline h hbig hneg
        rwa [hbig] at hout
      · exact h
  | some m =>
      dsimp only
      split
      · rename_i hneg
        exact unshifted_big h hbig hneg
      · exact h

/-- A column takes what rounds to less than its bound, and stores the rounded value. -/
theorem applyTypmod_spec {n : Numeric} (hwf : n.Wf) (hfin : n.special = .finite) (hcap : n.scale ≤ 500000)
    {p : Nat} {s : Int} (hs : InI32 s) (hp : (p : Int) - s ≤ maxIntDigits) (hcarry : ¬n.Carries s) :
    if |scaled (n.rounded s) s| < 10 ^ ((p : Int) - s) then
      ∃ r, n.applyTypmod p s = .ok r ∧ r.RoundsTo (n.rounded s) s
    else n.applyTypmod p s = .error .overflow := by
  have hstep : n.applyTypmod p s
      = match n.roundTo s with
        | none => .error .overflow
        | some r => if r.overflows p s then .error .overflow else .ok r.unshifted := by
    rw [applyTypmod, if_neg (by simp [hfin]), if_neg (by simp [hfin])]
  rw [hstep]
  rcases roundTo_spec hwf hfin hcap hs hcarry with ⟨r, hr, hrounds⟩ | ⟨hnone, hlarge⟩
  · rw [hr]
    dsimp only
    have hov := @overflows_iff r hrounds.wf p s
    rw [hrounds.value_eq] at hov
    by_cases hlt : |scaled (n.rounded s) s| < 10 ^ ((p : Int) - s)
    · rw [if_pos hlt]
      refine ⟨_, if_neg fun h => ?_, unshifted_roundsTo hrounds⟩
      exact absurd hlt (not_lt.2 (hov.1 h))
    · rw [if_neg hlt]
      exact if_pos (hov.2 (not_lt.1 hlt))
  · have hle : (10 : ℚ) ^ ((p : Int) - s) ≤ 10 ^ maxIntDigits := zpow_le_zpow_right₀ (by norm_num) hp
    rw [hnone, if_neg (not_lt.2 (hle.trans hlarge))]

/-- Rounding to a scale gives the nearest multiple, ties away from zero, or nothing where that passes the
format; a column of a precision and scale takes the numerics that round to less than its bound. -/
theorem rounding (n : Numeric) (hn : n.Valid) (hfin : n.special = .finite) (s : Int) (hs : InI32 s)
    (hcarry : ¬n.Carries s) :
    ∃ z : Int, NearestAway (n.value * 10 ^ s) z ∧
      ((∃ r, n.roundTo s = some r ∧ r.RoundsTo z s) ∨
        n.roundTo s = none ∧ (10 : ℚ) ^ maxIntDigits ≤ |scaled z s|) ∧
      ∀ p : Nat, (p : Int) - s ≤ maxIntDigits →
        if |scaled z s| < 10 ^ ((p : Int) - s) then ∃ r, n.applyTypmod p s = .ok r ∧ r.RoundsTo z s
        else n.applyTypmod p s = .error .overflow := by
  have hcap : n.scale ≤ 500000 := by
    have hle := hn.scale_le
    unfold maxScale at hle
    omega
  exact ⟨n.rounded s, nearest_rounded n s, roundTo_spec hn.wf hfin hcap hs hcarry,
    fun p hp => applyTypmod_spec hn.wf hfin hcap hs hp hcarry⟩

theorem rounding_half : ∃ z : Int, NearestAway ((new 125 2).value * 10 ^ (1 : Int)) z ∧
    ((∃ r, (new 125 2).roundTo 1 = some r ∧ r.RoundsTo z 1) ∨
      (new 125 2).roundTo 1 = none ∧ (10 : ℚ) ^ maxIntDigits ≤ |scaled z 1|) ∧
    ∀ p : Nat, (p : Int) - 1 ≤ maxIntDigits →
      if |scaled z 1| < 10 ^ ((p : Int) - 1) then
        ∃ r, (new 125 2).applyTypmod p 1 = .ok r ∧ r.RoundsTo z 1
      else (new 125 2).applyTypmod p 1 = .error .overflow :=
  rounding _ ⟨wf_new (by decide) (by decide), by decide⟩ (by decide) 1 (by decide)
    (by rintro ⟨-, -, -, -, h, -⟩; exact absurd h (by decide))

/-- A carry past the format is refused, and a column that rounds before the point shows no digits after
it. -/
theorem rounding_at_limits :
    (new 55 (-131070)).roundTo (-131072) = none ∧
      (new 123 0).applyTypmod 3 (-1) = .ok ⟨120, 0, 0, .finite, none⟩ := by
  exact ⟨by decide, by decide⟩

end Numeric

end Num
