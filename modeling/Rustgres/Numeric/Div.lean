-- SUMMARY: Division of numerics with correct rounding, and remainders.
import Rustgres.Numeric.Arith
import Rustgres.Numeric.Text

/-!
# Division

A quotient is computed to one digit past its scale, which then rounds it; a divisor that is a power of ten
only shifts. The remainder is that of truncated division.
-/

namespace Num

open Decimal Scaled Rounding

namespace BigDec

/-- Division by ten to the `k` at a scale: a shift, and the digits shifted out round or are dropped. -/
def divPow10 (d : BigDec) (k : Nat) (rscale : Int) (round : Bool) : BigDec :=
  let shift := rscale - d.scale - k
  let q :=
    if shift ≥ 0 then d.mag.mulPow10Assign shift.toNat
    else
      let out := (-shift).toNat
      let parts := d.mag.divRemPow10 out
      if round ∧ ¬parts.2.isZero ∧ parts.2.cmp ((BigUint.fromU64 5).mulPow10Assign (out - 1)) ≠ .lt then
        parts.1.addSmallAssign 1
      else parts.1
  normalize ⟨d.neg && !q.isZero, q, rscale⟩

def toU32 (m : BigUint) : Option Nat :=
  match m.limbs with
  | [] => some 0
  | [l] => some l
  | _ => none

def rem (d e : BigDec) : BigDec :=
  let s := max d.scale e.scale
  let a := d.mag.mulPow10Assign (asU32 (s - d.scale))
  let b := e.mag.mulPow10Assign (asU32 (s - e.scale))
  let r :=
    match toU32 b with
    | some k => BigUint.fromU64 (a.divRemSmall k).2
    | none => (a.divRem b).2
  normalize ⟨d.neg, r, s⟩

end BigDec

namespace Numeric

/-! ## The scale of a quotient -/

/-- The position of the leading group of four digits, and the group. -/
def weightFirstdigit (n : Numeric) : Int × Nat :=
  if n.isZero then (0, 0)
  else
    let intD := wrap32 (n.textDigits.length - n.scale)
    let k := (Int.emod (wrap32 (intD - 1)) 4 + 1).toNat
    let g := n.textDigits.take k
    (Int.ediv (wrap32 (intD - 1)) 4, Nat.ofDigitChars 10 (g ++ List.replicate (k - g.length) '0') 0)

def selectDivScale (a b : Numeric) : Int :=
  let fst := a.weightFirstdigit
  let snd := b.weightFirstdigit
  let qweight := if fst.2 ≤ snd.2 then wrap32 (wrap32 (fst.1 - snd.1) - 1) else wrap32 (fst.1 - snd.1)
  let rscale := wrap32 (16 - wrap32 (qweight * 4))
  min (max (max rscale (max a.dscale b.dscale : Nat)) 0) 1000

theorem selectDivScale_range (a b : Numeric) : 0 ≤ selectDivScale a b ∧ selectDivScale a b ≤ 1000 := by
  unfold selectDivScale
  dsimp only
  omega

/-! ## Quotients -/

def divImpl (a b : Numeric) (rscale : Int) (round : Bool) : Option Numeric :=
  let neg := decide (a.unscaled < 0) != decide (b.unscaled < 0)
  let rscale := if round then selectDivScale a b else rscale
  match b.mag.asPow10 with
  | some k =>
    fromBigdec (BigDec.divPow10 ⟨neg, a.mag, wrap32 (a.scale - b.scale)⟩ k rscale round) rscale
  | none =>
    let shift := wrap32 (b.scale - a.scale + rscale + 1)
    let num := if shift ≥ 0 then a.mag.mulPow10Assign (asU32 shift) else a.mag
    let den := if shift ≥ 0 then b.mag else b.mag.mulPow10Assign (asU32 (-shift))
    let t := ((num.divRem den).1.divRem (BigUint.fromU64 10))
    fromBigdec ⟨neg, if round ∧ t.2.toNat ≥ 5 then t.1.addSmallAssign 1 else t.1, rscale⟩ rscale

def checkedDiv (a b : Numeric) : Option Numeric :=
  match a.special, b.special with
  | .nan, _ => some nan
  | _, .nan => some nan
  | .finite, .finite =>
    if b.unscaled = 0 then none
    else if a.isZero then some zero
    else divImpl a b 0 true
  | s, .finite =>
    if b.unscaled = 0 then none
    else if (s = .negInf) ≠ (b.unscaled < 0) then some negInfinity
    else some infinity
  | .finite, _ => some zero
  | _, _ => some nan

def checkedRem (a b : Numeric) : Option Numeric :=
  match a.special, b.special with
  | .nan, _ => some nan
  | _, .nan => some nan
  | .finite, .finite =>
    if b.unscaled = 0 then none
    else
      let dscale := max a.dscale b.dscale
      if a.big.isSome ∨ b.big.isSome then viaBigDec BigDec.rem a b dscale
      else
        match aligned a b with
        | none => viaBigDec BigDec.rem a b dscale
        | some (x, y, scale) =>
          if y = 0 ∨ x = -2 ^ 127 ∧ y = -1 then none
          else some ((new (x.tmod y) scale).withDscale dscale)
  | _, .finite => if b.unscaled = 0 then none else some nan
  | .finite, _ => some a
  | _, _ => some nan

/-! ## What a quotient is -/

/-- The power of ten between the mantissas of a quotient at a scale. -/
def quotShift (a b : Numeric) (s : Int) : Int := s - a.scale + b.scale

/-- The magnitude of a quotient rounded at a scale. -/
def quotMag (a b : Numeric) (s : Int) : Nat :=
  halfUp (a.coef.natAbs * 10 ^ (quotShift a b s).toNat) (b.coef.natAbs * 10 ^ (-quotShift a b s).toNat)

def quotNeg (a b : Numeric) : Bool := decide (a.coef < 0) != decide (b.coef < 0)

theorem pow_split_sign (p : Int) : (10 : ℚ) ^ p = (10 ^ p.toNat : Nat) / (10 ^ (-p).toNat : Nat) := by
  have hten : (10 : ℚ) ≠ 0 := by norm_num
  rw [natCast_pow_eq, natCast_pow_eq, ← zpow_sub₀ hten]
  congr 1
  omega

theorem cast_signed (neg : Bool) (m : Nat) : ((signed neg m : Int) : ℚ) = if neg then -(m : ℚ) else m := by
  unfold signed
  cases neg with
  | true => simp
  | false => simp

theorem quot_value (a b : Numeric) (s : Int) :
    a.value / b.value * 10 ^ s
      = if quotNeg a b then
          -(((a.coef.natAbs * 10 ^ (quotShift a b s).toNat : Nat) : ℚ)
            / (b.coef.natAbs * 10 ^ (-quotShift a b s).toNat : Nat))
        else ((a.coef.natAbs * 10 ^ (quotShift a b s).toNat : Nat) : ℚ)
            / (b.coef.natAbs * 10 ^ (-quotShift a b s).toNat : Nat) := by
  have hten : (10 : ℚ) ≠ 0 := by norm_num
  have hratio : a.value / b.value * 10 ^ s = (a.coef : ℚ) / b.coef * 10 ^ quotShift a b s := by
    have hpow : (10 : ℚ) ^ quotShift a b s = 10 ^ (-a.scale) / 10 ^ (-b.scale) * 10 ^ s := by
      rw [← zpow_sub₀ hten, ← zpow_add₀ hten, quotShift]
      congr 1
      ring
    rw [hpow, value, value, scaled, scaled]
    by_cases hb : (b.coef : ℚ) = 0
    · rw [hb]
      simp
    · field_simp
  have hquot : ((a.coef.natAbs * 10 ^ (quotShift a b s).toNat : Nat) : ℚ)
      / (b.coef.natAbs * 10 ^ (-quotShift a b s).toNat : Nat)
      = (a.coef.natAbs : ℚ) / b.coef.natAbs * 10 ^ quotShift a b s := by
    rw [pow_split_sign]
    push_cast
    rw [mul_div_mul_comm]
  rw [hratio, hquot]
  have ha := signed_self a.coef
  have hb := signed_self b.coef
  unfold quotNeg
  generalize decide (a.coef < 0) = na at ha ⊢
  generalize decide (b.coef < 0) = nb at hb ⊢
  rw [← ha, ← hb, natAbs_signed, natAbs_signed, cast_signed, cast_signed]
  cases na with
  | true =>
      cases nb with
      | true =>
          simp only [if_true, bne_self_eq_false, Bool.false_eq_true, if_false]
          rw [neg_div_neg_eq]
      | false =>
          simp only [if_true, Bool.true_bne, Bool.not_false, Bool.false_eq_true, if_false]
          rw [neg_div, neg_mul]
  | false =>
      cases nb with
      | true =>
          simp only [if_true, Bool.false_bne, Bool.false_eq_true, if_false]
          rw [div_neg, neg_mul]
      | false => simp only [bne_self_eq_false, Bool.false_eq_true, if_false]

theorem nearest_quot (a : Numeric) {b : Numeric} (hb : b.coef ≠ 0) (s : Int) :
    NearestAway (a.value / b.value * 10 ^ s) (signed (quotNeg a b) (quotMag a b s)) := by
  have hpos : 0 < b.coef.natAbs * 10 ^ (-quotShift a b s).toNat :=
    Nat.mul_pos (by omega) (Nat.pow_pos (by decide))
  have hnear := nearest_halfUp (a.coef.natAbs * 10 ^ (quotShift a b s).toNat) hpos
  rw [quot_value]
  unfold quotMag
  cases quotNeg a b with
  | true => exact hnear.neg
  | false => exact hnear

/-! ## The two paths -/

/-- The scales are near enough for machine arithmetic on them. -/
def ScalesClose (a b : Numeric) : Prop :=
  InI32 (a.scale - b.scale) ∧ InI32 (b.scale - a.scale + selectDivScale a b + 1)

instance (a b : Numeric) : Decidable (ScalesClose a b) := inferInstanceAs (Decidable (_ ∧ _))

theorem divPow10_coef {d : BigDec} {k : Nat} {rscale : Int} :
    (d.divPow10 k rscale true).coef
        = signed d.neg (halfUp (d.mag.toNat * 10 ^ (rscale - d.scale - k).toNat) (10 ^ (-(rscale - d.scale - k)).toNat)) ∧
      (d.divPow10 k rscale true).scale = rscale := by
  unfold BigDec.divPow10
  dsimp only
  rw [BigDec.coef_normalize, BigDec.scale_normalize]
  refine ⟨?_, rfl⟩
  generalize rscale - d.scale - k = shift
  have hq : (if shift ≥ 0 then d.mag.mulPow10Assign shift.toNat
      else
        if true = true ∧ ¬(d.mag.divRemPow10 (-shift).toNat).2.isZero = true ∧
            (d.mag.divRemPow10 (-shift).toNat).2.cmp ((BigUint.fromU64 5).mulPow10Assign ((-shift).toNat - 1)) ≠ .lt
        then (d.mag.divRemPow10 (-shift).toNat).1.addSmallAssign 1
        else (d.mag.divRemPow10 (-shift).toNat).1).toNat
      = halfUp (d.mag.toNat * 10 ^ shift.toNat) (10 ^ (-shift).toNat) := by
    by_cases hs : shift ≥ 0
    · rw [if_pos hs, BigUint.toNat_mulPow10Assign, show (-shift).toNat = 0 by omega, pow_zero, halfUp_one]
    · obtain ⟨j, hj⟩ := Nat.exists_eq_succ_of_ne_zero (show (-shift).toNat ≠ 0 by omega)
      rw [if_neg hs, show shift.toNat = 0 by omega, pow_zero, Nat.mul_one, hj]
      obtain ⟨hquot, hrem⟩ := d.mag.divRemPow10_spec (j + 1)
      have hpow : 0 < 10 ^ (j + 1) := Nat.pow_pos (by decide)
      have hup : (true = true ∧ ¬(d.mag.divRemPow10 (j + 1)).2.isZero = true ∧
          (d.mag.divRemPow10 (j + 1)).2.cmp ((BigUint.fromU64 5).mulPow10Assign (j + 1 - 1)) ≠ .lt)
          ↔ 10 ^ (j + 1) ≤ 2 * (d.mag.toNat % 10 ^ (j + 1)) := by
        rw [BigUint.isZero_iff, BigUint.cmp_eq, BigUint.toNat_mulPow10Assign, BigUint.toNat_fromU64, hrem,
          Nat.add_sub_cancel, ne_eq, Nat.compare_eq_lt]
        have hten : 10 ^ (j + 1) = 2 * (5 * 10 ^ j) := by rw [pow_succ]; ring
        have hjpos : 0 < 10 ^ j := Nat.pow_pos (by decide)
        rw [hten]
        generalize d.mag.toNat % (2 * (5 * 10 ^ j)) = r
        constructor
        · rintro ⟨-, -, h⟩
          omega
        · intro h
          exact ⟨rfl, by omega, by omega⟩
      rw [halfUp_of_rem _ hpow]
      by_cases hle : 10 ^ (j + 1) ≤ 2 * (d.mag.toNat % 10 ^ (j + 1))
      · rw [if_pos (hup.2 hle), if_pos hle, BigUint.toNat_addSmallAssign, hquot]
      · rw [if_neg (fun h => hle (hup.1 h)), if_neg hle, hquot]
        rfl
  rw [← hq]
  unfold BigDec.coef
  dsimp only
  generalize (if shift ≥ 0 then d.mag.mulPow10Assign shift.toNat
      else
        if true = true ∧ ¬(d.mag.divRemPow10 (-shift).toNat).2.isZero = true ∧
            (d.mag.divRemPow10 (-shift).toNat).2.cmp ((BigUint.fromU64 5).mulPow10Assign ((-shift).toNat - 1)) ≠ .lt
        then (d.mag.divRemPow10 (-shift).toNat).1.addSmallAssign 1
        else (d.mag.divRemPow10 (-shift).toNat).1) = q
  cases hz : q.isZero with
  | true => rw [BigUint.isZero_iff.1 hz, signed_zero, signed_zero]
  | false => rw [Bool.not_false, Bool.and_true]

/-- The guard digit rounds the quotient of the scaled mantissas. -/
theorem guard_quot {m n num den : Nat} {p : Int} (hn : 0 < n)
    (hnum : num = m * 10 ^ (p + 1).toNat) (hden : den = n * 10 ^ (-(p + 1)).toNat) :
    num / den / 10 + (if 5 ≤ num / den % 10 then 1 else 0) = halfUp (m * 10 ^ p.toNat) (n * 10 ^ (-p).toNat) := by
  have hpos : 0 < n * 10 ^ (-p).toNat := Nat.mul_pos hn (Nat.pow_pos (by decide))
  rw [← halfUp_of_guard _ hpos]
  have hratio : num / den = m * 10 ^ p.toNat * 10 / (n * 10 ^ (-p).toNat) := by
    rw [hnum, hden]
    rcases Int.lt_or_le p 0 with hneg | hnonneg
    · rw [show (p + 1).toNat = 0 by omega, show p.toNat = 0 by omega,
        show (-p).toNat = (-(p + 1)).toNat + 1 by omega, pow_succ, ← Nat.mul_assoc]
      rw [pow_zero, Nat.mul_one, Nat.mul_div_mul_right _ _ (by decide : 0 < 10)]
    · rw [show (p + 1).toNat = p.toNat + 1 by omega, show (-(p + 1)).toNat = 0 by omega,
        show (-p).toNat = 0 by omega, pow_succ, Nat.mul_assoc]
  rw [hratio]

theorem Wf.decide_neg {n : Numeric} (h : n.Wf) : decide (n.unscaled < 0) = decide (n.coef < 0) :=
  decide_eq_decide.2 h.coef_neg.symm

theorem divImpl_eq {a b : Numeric} (ha : a.Wf) (hb : b.Wf) (hne : b.coef ≠ 0) (hclose : ScalesClose a b) :
    ∃ d : BigDec, divImpl a b 0 true = fromBigdec d (selectDivScale a b) ∧
      d.coef = signed (quotNeg a b) (quotMag a b (selectDivScale a b)) ∧ d.scale = selectDivScale a b := by
  obtain ⟨hlo, hhi⟩ := selectDivScale_range a b
  have hsign : (decide (a.unscaled < 0) != decide (b.unscaled < 0)) = quotNeg a b := by
    rw [ha.decide_neg, hb.decide_neg, quotNeg]
  have hma := ha.toNat_mag
  have hmb := hb.toNat_mag
  obtain ⟨hscales, hshifts⟩ := hclose
  unfold divImpl
  dsimp only
  rw [if_pos rfl, hsign]
  generalize selectDivScale a b = s at hlo hhi hshifts ⊢
  cases hpow : b.mag.asPow10 with
  | some k =>
      dsimp only
      refine ⟨_, rfl, ?_, (divPow10_coef).2⟩
      have hten := BigUint.asPow10_eq_some hpow
      rw [(divPow10_coef).1, wrap32_of_range hscales]
      dsimp only
      rw [hma]
      congr 1
      unfold quotMag
      rw [← hmb, hten]
      -- the divisor's power of ten goes to the other side
      have hshift : s - (a.scale - b.scale) - k = quotShift a b s - k := by
        unfold quotShift
        ring
      rw [hshift]
      generalize quotShift a b s = p
      generalize a.coef.natAbs = m
      rcases Int.lt_or_le p 0 with hneg | hnonneg
      · rw [show (p - k).toNat = 0 by omega, show p.toNat = 0 by omega, ← pow_add]
        congr 2
        omega
      · rw [show (-p).toNat = 0 by omega, pow_zero, Nat.mul_one]
        rcases Int.lt_or_le (p - k) 0 with hn | hp
        · rw [show (p - k).toNat = 0 by omega, pow_zero, Nat.mul_one,
            ← halfUp_mul_right m (Nat.pow_pos (by decide : 0 < 10) : 0 < 10 ^ p.toNat), ← pow_add]
          congr 2
          omega
        · rw [show (-(p - (k : Int))).toNat = 0 by omega, pow_zero,
            ← halfUp_mul_right _ (Nat.pow_pos (by decide : 0 < 10) : 0 < 10 ^ k), Nat.one_mul, Nat.mul_assoc,
            ← pow_add]
          congr 3
          omega
  | none =>
      dsimp only
      refine ⟨_, rfl, ?_, rfl⟩
      have hshift : wrap32 (b.scale - a.scale + s + 1) = quotShift a b s + 1 := by
        rw [wrap32_of_range hshifts]
        unfold quotShift
        ring
      have hrange : InI32 (quotShift a b s + 1) := by
        unfold quotShift InI32 at *
        omega
      rw [hshift]
      unfold quotMag
      generalize quotShift a b s = p at hrange ⊢
      have hnum : (if p + 1 ≥ 0 then a.mag.mulPow10Assign (asU32 (p + 1)) else a.mag).toNat
          = a.coef.natAbs * 10 ^ (p + 1).toNat := by
        split
        · rw [BigUint.toNat_mulPow10Assign, hma, asU32_of_lt (by omega) (by unfold InI32 at hrange; omega)]
        · rw [show (p + 1).toNat = 0 by omega, pow_zero, Nat.mul_one, hma]
      have hden : (if p + 1 ≥ 0 then b.mag else b.mag.mulPow10Assign (asU32 (-(p + 1)))).toNat
          = b.coef.natAbs * 10 ^ (-(p + 1)).toNat := by
        split
        · rw [show (-(p + 1)).toNat = 0 by omega, pow_zero, Nat.mul_one, hmb]
        · rw [BigUint.toNat_mulPow10Assign, hmb, asU32_of_lt (by omega) (by unfold InI32 at hrange; omega)]
      generalize (if p + 1 ≥ 0 then a.mag.mulPow10Assign (asU32 (p + 1)) else a.mag) = num at hnum ⊢
      generalize (if p + 1 ≥ 0 then b.mag else b.mag.mulPow10Assign (asU32 (-(p + 1)))) = den at hden ⊢
      have hdpos : 0 < den.toNat := by
        rw [hden]
        exact Nat.mul_pos (by omega) (Nat.pow_pos (by decide))
      have hten : (BigUint.fromU64 10).toNat = 10 := BigUint.toNat_fromU64 10
      have hguard := guard_quot (by omega : 0 < b.coef.natAbs) hnum hden
      have hq := (num.divRem den).1.toNat_quot (by rw [hten]; decide : 0 < (BigUint.fromU64 10).toNat)
      have hr := (num.divRem den).1.toNat_rem (by rw [hten]; decide : 0 < (BigUint.fromU64 10).toNat)
      rw [hten, num.toNat_quot hdpos] at hq hr
      have hround : (if true = true ∧ ((num.divRem den).1.divRem (BigUint.fromU64 10)).2.toNat ≥ 5 then
          ((num.divRem den).1.divRem (BigUint.fromU64 10)).1.addSmallAssign 1
          else ((num.divRem den).1.divRem (BigUint.fromU64 10)).1).toNat
          = num.toNat / den.toNat / 10 + if 5 ≤ num.toNat / den.toNat % 10 then 1 else 0 := by
        by_cases hge : 5 ≤ num.toNat / den.toNat % 10
        · rw [if_pos ⟨rfl, by rw [hr]; exact hge⟩, if_pos hge, BigUint.toNat_addSmallAssign, hq]
        · rw [if_neg (fun h => hge (by rw [← hr]; exact h.2)), if_neg hge, hq, Nat.add_zero]
      rw [← hguard, ← hround]
      rfl

/-- A quotient is the nearest multiple at its scale, or it is too long for the format. -/
theorem divImpl_spec {a b : Numeric} (ha : a.Wf) (hb : b.Wf) (hne : b.coef ≠ 0) (hclose : ScalesClose a b) :
    ∃ z : Int, NearestAway (a.value / b.value * 10 ^ selectDivScale a b) z ∧
      ((∃ r, divImpl a b 0 true = some r ∧ r.RoundsTo z (selectDivScale a b)) ∨
        divImpl a b 0 true = none ∧ TooLong (scaled z (selectDivScale a b))) := by
  obtain ⟨d, hd, hcoef, hscale⟩ := divImpl_eq ha hb hne hclose
  obtain ⟨hlo, hhi⟩ := selectDivScale_range a b
  refine ⟨_, nearest_quot a hne (selectDivScale a b), ?_⟩
  have hval : d.value = scaled (signed (quotNeg a b) (quotMag a b (selectDivScale a b))) (selectDivScale a b) := by
    rw [BigDec.value, hcoef, hscale]
  rw [hd]
  cases hr : fromBigdec d (selectDivScale a b) with
  | none => exact Or.inr ⟨rfl, large_of_fromBigdec hr hval⟩
  | some r =>
      have hbuilds := fromBigdec_some (by unfold InI32; omega) (by omega) hr
      rw [hval] at hbuilds
      exact Or.inl ⟨r, rfl, hbuilds⟩

/-! ## Remainders -/

/-- A rational's integer part toward zero. -/
def truncated (q : ℚ) : Int := if q < 0 then ⌈q⌉ else ⌊q⌋

theorem truncated_neg (q : ℚ) : truncated (-q) = -truncated q := by
  unfold truncated
  rcases lt_trichotomy q 0 with h | h | h
  · rw [if_neg (by linarith), if_pos h, Int.floor_neg]
  · rw [h]
    decide
  · rw [if_pos (by linarith), if_neg (by linarith), Int.ceil_neg]

theorem truncated_natCast (m n : Nat) : truncated ((m : ℚ) / n) = (m / n : Nat) := by
  unfold truncated
  have hnonneg : ¬(m : ℚ) / n < 0 := not_lt.2 (by positivity)
  rw [if_neg hnonneg, Rat.floor_natCast_div_natCast]
  rfl

theorem truncated_div (x y : Int) : truncated ((x : ℚ) / y) = x.tdiv y := by
  rcases Int.natAbs_eq x with hx | hx <;> rcases Int.natAbs_eq y with hy | hy <;> rw [hx, hy]
  · exact truncated_natCast _ _
  · rw [Int.tdiv_neg, Int.cast_neg, div_neg, truncated_neg]
    congr 1
    exact truncated_natCast _ _
  · rw [Int.neg_tdiv, Int.cast_neg, neg_div, truncated_neg]
    congr 1
    exact truncated_natCast _ _
  · rw [Int.neg_tdiv, Int.tdiv_neg, neg_neg, Int.cast_neg, Int.cast_neg, neg_div_neg_eq]
    exact truncated_natCast _ _

/-- The remainder of aligned mantissas. -/
theorem scaled_tmod {x y : Int} (s : Int) :
    scaled (x.tmod y) s = scaled x s - scaled y s * truncated (scaled x s / scaled y s) := by
  have hratio : scaled x s / scaled y s = (x : ℚ) / y := by
    unfold scaled
    exact mul_div_mul_right _ _ (ten_zpow_pos (-s)).ne'
  rw [hratio, truncated_div, Int.tmod_def, scaled_sub]
  congr 1
  unfold scaled
  push_cast
  ring

/-- A remainder below the divisor, with the sign of the dividend. -/
structure RemainderOf (r a b : ℚ) : Prop where
  eq : r = a - b * truncated (a / b)
  small : |r| < |b|
  nonneg : 0 ≤ a → 0 ≤ r
  nonpos : a ≤ 0 → r ≤ 0

theorem remainderOf_tmod {x y : Int} (hy : y ≠ 0) (s : Int) :
    RemainderOf (scaled (x.tmod y) s) (scaled x s) (scaled y s) := by
  have habs : (x.tmod y).natAbs < y.natAbs := by
    rw [Int.natAbs_tmod]
    exact Nat.mod_lt _ (by omega)
  have hflip : (-x).tmod y = -x.tmod y := Int.neg_tmod x y
  refine ⟨scaled_tmod s, ?_, fun h => ?_, fun h => ?_⟩
  · rw [abs_scaled, abs_scaled, scaled_lt]
    exact_mod_cast habs
  · rw [scaled_nonneg] at h ⊢
    exact Int.tmod_nonneg y h
  · rw [← not_lt, scaled_pos, Int.not_lt] at h ⊢
    have hneg := Int.tmod_nonneg y (Int.neg_nonneg_of_nonpos h)
    omega

/-- The mantissas of both at the larger scale. -/
theorem value_aligned (n : Numeric) {s : Int} (h : n.scale ≤ s) :
    scaled (n.coef * 10 ^ (s - n.scale).toNat) s = n.value := scaled_pad h

theorem signed_mod (neg neg' : Bool) (m n : Nat) : signed neg (m % n) = (signed neg m).tmod (signed neg' n) := by
  unfold signed
  cases neg with
  | true =>
      cases neg' with
      | true => rw [if_pos rfl, if_pos rfl, if_pos rfl, Int.neg_tmod, Int.tmod_neg, Int.natCast_mod]; rfl
      | false => rw [if_pos rfl, if_pos rfl, if_neg (by decide), Int.neg_tmod, Int.natCast_mod]; rfl
  | false =>
      cases neg' with
      | true => rw [if_neg (by decide), if_neg (by decide), if_pos rfl, Int.tmod_neg, Int.natCast_mod]; rfl
      | false => rw [if_neg (by decide), if_neg (by decide), if_neg (by decide), Int.natCast_mod]; rfl

end Numeric

namespace BigDec

theorem toU32_eq_some {m : BigUint} {k : Nat} (h : toU32 m = some k) : m.toNat = k := by
  unfold toU32 at h
  unfold BigUint.toNat
  split at h
  · rename_i hl
    cases h
    rw [hl]
    rfl
  · rename_i l hl
    cases h
    rw [hl]
    exact Nat.ofDigits_singleton
  · cases h

theorem rem_spec (d e : BigDec) (hd : InI32 d.scale) (he : InI32 e.scale) (hne : e.coef ≠ 0) :
    (d.rem e).scale = max d.scale e.scale ∧
      (d.rem e).coef = (d.coef * 10 ^ (max d.scale e.scale - d.scale).toNat).tmod
        (e.coef * 10 ^ (max d.scale e.scale - e.scale).toNat) := by
  have hepos : 0 < e.mag.toNat := by
    rw [← natAbs_coef]
    omega
  have hpad := Numeric.asU32_pad he hd
  rw [max_comm] at hpad
  unfold rem
  dsimp only
  rw [scale_normalize, coef_normalize, Numeric.asU32_pad hd he, hpad]
  refine ⟨rfl, ?_⟩
  have hden : 0 < (e.mag.mulPow10Assign (max d.scale e.scale - e.scale).toNat).toNat := by
    rw [BigUint.toNat_mulPow10Assign]
    exact Nat.mul_pos hepos (Nat.pow_pos (by decide))
  have hrem : (match toU32 (e.mag.mulPow10Assign (max d.scale e.scale - e.scale).toNat) with
      | some k => BigUint.fromU64 ((d.mag.mulPow10Assign (max d.scale e.scale - d.scale).toNat).divRemSmall k).2
      | none => ((d.mag.mulPow10Assign (max d.scale e.scale - d.scale).toNat).divRem
          (e.mag.mulPow10Assign (max d.scale e.scale - e.scale).toNat)).2).toNat
      = d.mag.toNat * 10 ^ (max d.scale e.scale - d.scale).toNat
        % (e.mag.toNat * 10 ^ (max d.scale e.scale - e.scale).toNat) := by
    cases hsmall : toU32 (e.mag.mulPow10Assign (max d.scale e.scale - e.scale).toNat) with
    | some k =>
        have hk := toU32_eq_some hsmall
        rw [hk] at hden
        rw [BigUint.toNat_mulPow10Assign] at hk
        dsimp only
        rw [BigUint.toNat_fromU64, BigUint.snd_divRemSmall _ hden, BigUint.toNat_mulPow10Assign, hk]
    | none =>
        dsimp only
        rw [BigUint.toNat_rem _ hden, BigUint.toNat_mulPow10Assign, BigUint.toNat_mulPow10Assign]
  rw [coef]
  dsimp only
  rw [hrem, Numeric.signed_mod d.neg e.neg, Numeric.signed_mul, Numeric.signed_mul]
  push_cast
  rfl

end BigDec

namespace Numeric

/-- A divided inline mantissa that the machine division overflows on. -/
def RemOverflows (a b : Numeric) : Prop :=
  a.Lowest ∧ b.big = none ∧ b.unscaled = -1 ∧ b.scale = a.scale

theorem viaBigDec_rem {a b : Numeric} (ha : a.Wf) (hb : b.Wf) (hfa : a.special = .finite)
    (hfb : b.special = .finite) (hne : b.coef ≠ 0) :
    ∃ q : ℚ, RemainderOf q a.value b.value ∧
      Exact (viaBigDec BigDec.rem a b (max a.dscale b.dscale : Nat)) q (max a.dscale b.dscale) := by
  obtain ⟨x, hx, hxc, hxs, -⟩ := BigDec.fromNumeric_spec ha hfa
  obtain ⟨y, hy, hyc, hys, -⟩ := BigDec.fromNumeric_spec hb hfb
  have hra := ha.scale_range
  have hrb := hb.scale_range
  obtain ⟨hscale, hcoef⟩ := BigDec.rem_spec x y (by rwa [hxs]) (by rwa [hys]) (by rwa [hyc])
  rw [hxs, hys] at hscale
  rw [hxc, hyc, hxs, hys] at hcoef
  have hyne : b.coef * 10 ^ (max a.scale b.scale - b.scale).toNat ≠ 0 :=
    mul_ne_zero hne (pow_ne_zero _ (by decide))
  have hrem := remainderOf_tmod (x := a.coef * 10 ^ (max a.scale b.scale - a.scale).toNat) hyne (max a.scale b.scale)
  rw [value_aligned a (le_max_left _ _), value_aligned b (le_max_right _ _), ← hcoef, ← hscale] at hrem
  refine ⟨_, hrem, ?_⟩
  have has := ha.shown
  have hbs := hb.shown
  unfold viaBigDec
  rw [hx, hy, Option.bind_some, Option.bind_some]
  cases hr : fromBigdec (x.rem y) (max a.dscale b.dscale : Nat) with
  | none => exact Or.inr ⟨rfl, large_of_none hr⟩
  | some r =>
      have hbuilds := fromBigdec_some (by rw [hscale]; unfold InI32 at *; omega) (by rw [hscale]; omega) hr
      rw [Int.toNat_natCast] at hbuilds
      exact Or.inl ⟨r, rfl, hbuilds⟩

/-- The aligned mantissas the machine division overflows on are aligned already. -/
theorem remOverflows_of_aligned {a b : Numeric} (ha : a.Wf) (hb : b.Wf) (hna : a.big = none) (hnb : b.big = none)
    {s : Int} (h : aligned a b = some (-2 ^ 127, -1, s)) : RemOverflows a b := by
  obtain ⟨hs, -, -, hx, hy⟩ := aligned_some ha hb h
  rw [← scaled_pad (show a.scale ≤ s by omega), scaled_inj] at hx
  rw [← scaled_pad (show b.scale ≤ s by omega), scaled_inj] at hy
  have hzero : ∀ {u z : Int} {k : Nat}, z = u * 10 ^ k → ¬(10 : Int) ∣ z → k = 0 := by
    intro u z k hz hnd
    by_contra hk
    obtain ⟨j, rfl⟩ := Nat.exists_eq_succ_of_ne_zero hk
    exact hnd ⟨u * 10 ^ j, by rw [hz, pow_succ]; ring⟩
  have hka := hzero hx (by decide)
  have hkb := hzero hy (by decide)
  rw [hka, pow_zero, mul_one] at hx
  rw [hkb, pow_zero, mul_one] at hy
  exact ⟨⟨hna, hx.symm⟩, hnb, hy.symm, by omega⟩

theorem checkedRem_spec {a b : Numeric} (ha : a.Wf) (hb : b.Wf) (hfa : a.special = .finite)
    (hfb : b.special = .finite) (hne : b.coef ≠ 0) (hover : ¬RemOverflows a b) :
    ∃ q : ℚ, RemainderOf q a.value b.value ∧ Exact (checkedRem a b) q (max a.dscale b.dscale) := by
  have hvia := viaBigDec_rem ha hb hfa hfb hne
  have hnez : b.unscaled ≠ 0 := fun h => hne (hb.coef_eq_zero.2 h)
  unfold checkedRem
  rw [hfa, hfb]
  dsimp only
  rw [if_neg hnez]
  by_cases hbig : a.big.isSome ∨ b.big.isSome
  · rw [if_pos hbig]
    exact hvia
  · rw [if_neg hbig]
    have hna : a.big = none := Option.not_isSome_iff_eq_none.1 fun h => hbig (Or.inl h)
    have hnb : b.big = none := Option.not_isSome_iff_eq_none.1 fun h => hbig (Or.inr h)
    cases hal : aligned a b with
    | none => exact hvia
    | some t =>
        obtain ⟨x, y, s⟩ := t
        obtain ⟨hs, hxr, hyr, hx, hy⟩ := aligned_some ha hb hal
        have hav : scaled x s = a.value := by rw [hx, value, coef_inline hna]
        have hbv : scaled y s = b.value := by rw [hy, value, coef_inline hnb]
        have hyne : y ≠ 0 := by
          intro hzero
          rw [hzero, scaled_zero, eq_comm, value, scaled_eq_zero] at hbv
          exact hne hbv
        dsimp only
        rw [if_neg (by
          rintro (h | ⟨rfl, rfl⟩)
          · exact hyne h
          · exact hover (remOverflows_of_aligned ha hb hna hnb hal))]
        have hrem := remainderOf_tmod (x := x) hyne s
        rw [hav, hbv] at hrem
        refine ⟨_, hrem, Or.inl ⟨_, rfl, ?_⟩⟩
        have hrange : InI128 (x.tmod y) := by
          have hlt := Int.natAbs_tmod x y
          have hle := Nat.mod_le x.natAbs y.natAbs
          have hmod := Nat.mod_lt x.natAbs (show 0 < y.natAbs by omega)
          unfold InI128 at *
          omega
        have har := ha.scale_range
        have hbr := hb.scale_range
        have has := ha.shown
        have hbs := hb.shown
        have hwf := wf_new hrange (show InI32 s by unfold InI32 at *; omega)
        have hshown := hwf.shown
        rw [dscale_new] at hshown
        refine ⟨special_new _ _, ?_, ?_, hwf.withDscale (by omega)⟩
        · rw [value_withDscale, value_new]
        · rw [dscale_withDscale, Int.toNat_natCast]

theorem checkedDiv_finite {a b : Numeric} (hfa : a.special = .finite) (hfb : b.special = .finite)
    (hb : b.unscaled ≠ 0) (ha : a.isZero = false) : checkedDiv a b = divImpl a b 0 true := by
  rw [checkedDiv, hfa, hfb]
  dsimp only
  rw [if_neg hb, ha]
  rfl

/-- A quotient is the ratio rounded at its scale, or too long for the format; a remainder is that of truncated
division. -/
theorem division (a b : Numeric) (ha : a.Wf) (hb : b.Wf) (hfa : a.special = .finite) (hfb : b.special = .finite)
    (hne : b.value ≠ 0) :
    (ScalesClose a b → ∃ z : Int, NearestAway (a.value / b.value * 10 ^ selectDivScale a b) z ∧
      ((∃ r, checkedDiv a b = some r ∧ r.special = .finite ∧ r.value = scaled z (selectDivScale a b) ∧
          (a.value ≠ 0 → r.dscale = (selectDivScale a b).toNat)) ∨
        checkedDiv a b = none ∧ TooLong (scaled z (selectDivScale a b)))) ∧
      (¬RemOverflows a b → ∃ q : ℚ, RemainderOf q a.value b.value ∧
        Exact (checkedRem a b) q (max a.dscale b.dscale)) := by
  have hcoef : b.coef ≠ 0 := fun h => hne (scaled_eq_zero.2 h)
  have hunscaled : b.unscaled ≠ 0 := fun h => hcoef (hb.coef_eq_zero.2 h)
  refine ⟨fun hclose => ?_, checkedRem_spec ha hb hfa hfb hcoef⟩
  cases hzero : a.isZero with
  | true =>
    have hval : a.value = 0 := by
      have hz : a.unscaled = 0 := by
        unfold isZero at hzero
        simp only [decide_eq_true_eq] at hzero
        exact hzero.2
      exact scaled_eq_zero.2 (ha.coef_eq_zero.2 hz)
    have hout : checkedDiv a b = some zero := by
      rw [checkedDiv, hfa, hfb]
      dsimp only
      rw [if_neg hunscaled, if_pos hzero]
    rw [hval, zero_div, zero_mul]
    refine ⟨0, nearest_int 0, Or.inl ⟨zero, hout, rfl, ?_, fun h => absurd rfl h⟩⟩
    rw [scaled_zero]
    exact scaled_zero 0
  | false =>
    rw [checkedDiv_finite hfa hfb hunscaled hzero]
    obtain ⟨z, hz, hout⟩ := divImpl_spec ha hb hcoef hclose
    refine ⟨z, hz, ?_⟩
    rcases hout with ⟨r, hr, hto⟩ | hnone
    · exact Or.inl ⟨r, hr, hto.finite, hto.value_eq, fun _ => hto.dscale_eq⟩
    · exact Or.inr hnone

theorem division_thirds :
    (ScalesClose (new 1 0) (new 3 0) → ∃ z : Int,
      NearestAway ((new 1 0).value / (new 3 0).value * 10 ^ selectDivScale (new 1 0) (new 3 0)) z ∧
      ((∃ r, checkedDiv (new 1 0) (new 3 0) = some r ∧ r.special = .finite ∧
          r.value = scaled z (selectDivScale (new 1 0) (new 3 0)) ∧
          ((new 1 0).value ≠ 0 → r.dscale = (selectDivScale (new 1 0) (new 3 0)).toNat)) ∨
        checkedDiv (new 1 0) (new 3 0) = none ∧
          TooLong (scaled z (selectDivScale (new 1 0) (new 3 0))))) ∧
      (¬RemOverflows (new 1 0) (new 3 0) → ∃ q : ℚ, RemainderOf q (new 1 0).value (new 3 0).value ∧
        Exact (checkedRem (new 1 0) (new 3 0)) q (max (new 1 0).dscale (new 3 0).dscale)) :=
  division _ _ (wf_new (by decide) (by decide)) (wf_new (by decide) (by decide)) (by decide) (by decide)
    (fun h => absurd (scaled_eq_zero.1 ((value_new 3 0).symm.trans h)) (by decide))

theorem signed_pow_digits (neg : Bool) (k : Nat) :
    signed neg (10 ^ k) ≠ 0 ∧ numDigits (signed neg (10 ^ k)).natAbs = k + 1 := by
  have hpos : 0 < 10 ^ k := Nat.pow_pos (by decide)
  have habs := natAbs_signed neg (10 ^ k)
  refine ⟨by omega, ?_⟩
  rw [habs]
  exact numDigits_ten_pow k

/-- A quotient of two short numerics is refused for its length. -/
theorem quotient_too_long : checkedDiv (new 1 (-131071)) (new 1 1) = none := by
  have ha : (new 1 (-131071)).Wf := wf_new (by decide) (by decide)
  have hb : (new 1 1).Wf := wf_new (by decide) (by decide)
  have hscale : selectDivScale (new 1 (-131071)) (new 1 1) = 1 := by decide
  obtain ⟨d, hd, hcoef, hs⟩ := divImpl_eq ha hb (by decide) (by decide)
  have hshift : quotShift (new 1 (-131071)) (new 1 1) 1 = (131073 : Nat) := by decide
  have hone : (new 1 1).coef.natAbs * 10 ^ (-((131073 : Nat) : Int)).toNat = 1 := by decide
  have hunit : (new 1 (-131071)).coef.natAbs = 1 := by decide
  have hlong : maxIntDigits < ((131073 : Nat) : Int) + 1 - 1 := by decide
  have hnone : divImpl (new 1 (-131071)) (new 1 1) 0 true = none := by
    rw [hd, fromBigdec_eq_none, hcoef, hs, hscale]
    unfold quotMag
    rw [hshift]
    generalize (131073 : Nat) = k at hone hlong ⊢
    rw [hone, hunit, halfUp_one, Nat.one_mul, Int.toNat_natCast]
    obtain ⟨hne, hdigits⟩ := signed_pow_digits (quotNeg (new 1 (-131071)) (new 1 1)) k
    refine ⟨hne, ?_⟩
    rw [hdigits]
    exact_mod_cast hlong
  rw [checkedDiv_finite rfl rfl (by decide) (by decide), hnone]

end Numeric

end Num
