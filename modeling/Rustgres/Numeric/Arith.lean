-- SUMMARY: Sums, differences and products of numerics, inline where the machine integers hold them.
import Rustgres.Numeric.Order
import Rustgres.Numeric.Round

/-!
# Arithmetic

Each operation tries machine integers first and falls back to exact decimals. Products of many display
digits are rounded to the most the format shows.
-/

namespace Num

open Decimal Scaled Rounding

/-- Negation of a machine integer, the smallest to the largest. -/
def saturatingNeg (u : Int) : Int := if u = -2 ^ 127 then 2 ^ 127 - 1 else -u

namespace Numeric

def neg (n : Numeric) : Numeric :=
  match n.special with
  | .nan => nan
  | .posInf => negInfinity
  | .negInf => infinity
  | .finite =>
    let r := (new (saturatingNeg n.unscaled) n.scale).withDscale n.dscale
    if n.big.isSome then { r with big := n.big } else r

/-- The exact decimals of both operands through an operation, as a numeric. -/
def viaBigDec (op : BigDec → BigDec → BigDec) (a b : Numeric) (dscale : Int) : Option Numeric :=
  (BigDec.fromNumeric a).bind fun x => (BigDec.fromNumeric b).bind fun y => fromBigdec (op x y) dscale

def addFinite (a b : Numeric) : Option Numeric :=
  let dscale := max a.dscale b.dscale
  if a.big.isSome ∨ b.big.isSome then viaBigDec BigDec.add a b dscale
  else
    match aligned a b with
    | none => viaBigDec BigDec.add a b dscale
    | some (x, y, scale) =>
      match checkedI128 (x + y) with
      | some s => some ((new s scale).withDscale dscale)
      | none => viaBigDec BigDec.add a b dscale

def checkedAdd (a b : Numeric) : Option Numeric :=
  match a.special, b.special with
  | .nan, _ => some nan
  | _, .nan => some nan
  | .finite, .finite => addFinite a b
  | .posInf, .negInf => some nan
  | .negInf, .posInf => some nan
  | .posInf, _ => some infinity
  | _, .posInf => some infinity
  | _, _ => some negInfinity

def checkedSub (a b : Numeric) : Option Numeric := checkedAdd a b.neg

/-- The most digits the format shows behind the point of a product. -/
def maxMulDscale : Nat := 16383

def mulFinite (a b : Numeric) : Option Numeric :=
  let dscale := min (a.dscale + b.dscale) (2 ^ 31 - 1)
  if a.big.isSome ∨ b.big.isSome then
    (viaBigDec BigDec.mulExact a b dscale).bind fun p =>
      if dscale > maxMulDscale then p.roundTo maxMulDscale else some p
  else if ¬InI32 (a.scale + b.scale) then none
  else
    (match checkedI128 (a.unscaled * b.unscaled) with
      | some p => some ((new p (a.scale + b.scale)).withDscale dscale)
      | none => viaBigDec BigDec.mulExact a b dscale).bind fun result =>
      if dscale > maxMulDscale then
        (result.roundTo maxMulDscale).map fun r : Numeric => r.withDscale (min dscale maxMulDscale : Nat)
      else some result

/-- The sign of the value; none for `NaN`. -/
def signum (n : Numeric) : Int :=
  match n.special with
  | .nan => 0
  | .posInf => 1
  | .negInf => -1
  | .finite => n.unscaled.sign

def checkedMul (a b : Numeric) : Option Numeric :=
  match a.special, b.special with
  | .nan, _ => some nan
  | _, .nan => some nan
  | .finite, .finite => mulFinite a b
  | _, _ =>
    if a.isZero ∨ b.isZero then some nan
    else if (a.signum < 0) ≠ (b.signum < 0) then some negInfinity
    else some infinity

/-! ## Sums -/

/-- A numeric refused by the format: the exact result has too many digits. -/
def TooLong (q : ℚ) : Prop := (10 : ℚ) ^ maxIntDigits ≤ |q|

theorem large_of_none {d : BigDec} {dscale : Int} (h : fromBigdec d dscale = none) : TooLong d.value :=
  large_of_fromBigdec h rfl

theorem viaBigDec_add {a b : Numeric} (ha : a.Wf) (hb : b.Wf) (hfa : a.special = .finite)
    (hfb : b.special = .finite) :
    (∃ r, viaBigDec BigDec.add a b (max a.dscale b.dscale : Nat) = some r ∧
        r.Builds (a.value + b.value) (max a.dscale b.dscale)) ∨
      viaBigDec BigDec.add a b (max a.dscale b.dscale : Nat) = none ∧ TooLong (a.value + b.value) := by
  obtain ⟨x, hx, hxc, hxs, -⟩ := BigDec.fromNumeric_spec ha hfa
  obtain ⟨y, hy, hyc, hys, -⟩ := BigDec.fromNumeric_spec hb hfb
  obtain ⟨hval, hscale⟩ := BigDec.add_spec x y
  have hsum : (x.add y).value = a.value + b.value := by
    rw [hval, BigDec.value, BigDec.value, hxc, hxs, hyc, hys]
    rfl
  have har := ha.scale_range
  have hbr := hb.scale_range
  have has := ha.shown
  have hbs := hb.shown
  have hrange : InI32 (x.add y).scale ∧ (x.add y).scale ≤ ((max a.dscale b.dscale : Nat) : Int).toNat := by
    rcases hscale with h | h
    · rw [h, hxs, hys]
      unfold InI32 at *
      omega
    · rw [h]
      exact ⟨by decide, Int.natCast_nonneg _⟩
  unfold viaBigDec
  rw [hx, hy, Option.bind_some, Option.bind_some]
  cases hr : fromBigdec (x.add y) (max a.dscale b.dscale : Nat) with
  | none =>
      have hlarge := large_of_none hr
      rw [hsum] at hlarge
      exact Or.inr ⟨rfl, hlarge⟩
  | some r =>
      have hbuilds := fromBigdec_some hrange.1 hrange.2 hr
      rw [hsum, Int.toNat_natCast] at hbuilds
      exact Or.inl ⟨r, rfl, hbuilds⟩

theorem addFinite_spec {a b : Numeric} (ha : a.Wf) (hb : b.Wf) (hfa : a.special = .finite)
    (hfb : b.special = .finite) :
    (∃ r, addFinite a b = some r ∧ r.Builds (a.value + b.value) (max a.dscale b.dscale)) ∨
      addFinite a b = none ∧ TooLong (a.value + b.value) := by
  have hvia := viaBigDec_add ha hb hfa hfb
  unfold addFinite
  dsimp only
  split
  · exact hvia
  · rename_i hbig
    have hna : a.big = none := Option.not_isSome_iff_eq_none.1 fun h => hbig (Or.inl h)
    have hnb : b.big = none := Option.not_isSome_iff_eq_none.1 fun h => hbig (Or.inr h)
    cases hal : aligned a b with
    | none => exact hvia
    | some t =>
        obtain ⟨x, y, scale⟩ := t
        obtain ⟨hmax, -, -, hx, hy⟩ := aligned_some ha hb hal
        dsimp only
        cases hs : checkedI128 (x + y) with
        | none => exact hvia
        | some s =>
            obtain ⟨hsr, rfl⟩ := checkedI128_eq_some.1 hs
            have har := ha.scale_range
            have hbr := hb.scale_range
            have has := ha.shown
            have hbs := hb.shown
            have hscale : InI32 scale := by
              unfold InI32 at *
              omega
            have hwf := wf_new hsr hscale
            have hshown := hwf.shown
            rw [dscale_new] at hshown
            refine Or.inl ⟨_, rfl, special_new _ _, ?_, ?_, hwf.withDscale ?_⟩
            · rw [value_withDscale, value_new, scaled_add, hx, hy, value, value, coef_inline hna, coef_inline hnb]
            · rw [dscale_withDscale, Int.toNat_natCast]
            · omega

/-! ## Differences -/

/-- An inline mantissa whose negation no machine integer holds. -/
def Lowest (n : Numeric) : Prop := n.big = none ∧ n.unscaled = -2 ^ 127

theorem new_of_stripped {u s : Int} (hu : u ≠ 0) (hstrip : 0 < s → ¬10 ∣ u) :
    new u s = ⟨u, s, s.toNat, .finite, none⟩ := by
  unfold new
  rw [if_neg hu]
  split
  · rfl
  · rename_i hpos
    obtain ⟨k, hk⟩ := Nat.exists_eq_succ_of_ne_zero (show s.toNat ≠ 0 by omega)
    have hmod : ¬u % 10 = 0 := fun h => hstrip (by omega) (Int.dvd_of_emod_eq_zero h)
    rw [hk, stripZeros, if_neg hmod, ← hk]
    congr 1
    omega

theorem neg_big {n : Numeric} (hwf : n.Wf) (hfin : n.special = .finite) {m : BigUint} (hbig : n.big = some m) :
    n.neg.Builds (-n.value) n.dscale := by
  have hsign := hwf.big_sign m hbig
  have hlarge := hwf.big_large m hbig
  have hshown := hwf.shown
  have hneg : saturatingNeg n.unscaled = -n.unscaled := by
    unfold saturatingNeg
    rw [if_neg (by omega)]
  have hnew : new (-n.unscaled) n.scale = ⟨-n.unscaled, n.scale, n.scale.toNat, .finite, none⟩ := by
    apply new_of_stripped
    · omega
    · intro _ hdvd
      omega
  have hshape : n.neg = ⟨-n.unscaled, n.scale, n.dscale, .finite, some m⟩ := by
    unfold neg
    rw [hfin]
    dsimp only
    rw [hneg, hnew, if_pos (by rw [hbig]; rfl), hbig]
    rfl
  rw [hshape]
  have hcoef : (⟨-n.unscaled, n.scale, n.dscale, .finite, some m⟩ : Numeric).coef = -n.coef := by
    rw [coef_big hbig, coef_big rfl, neg_mul]
  refine ⟨rfl, ?_, rfl, ?_⟩
  · rw [value, hcoef, scaled_neg]
    rfl
  · exact {
      unscaled_range := by
        unfold InI128
        dsimp only
        omega
      scale_range := hwf.scale_range
      special_zero := fun h => absurd rfl h
      big_sign := by
        intro _ _
        dsimp only
        omega
      big_large := by
        intro k hk
        cases hk
        exact hlarge
      big_digits := by
        intro k hk
        cases hk
        exact hwf.big_digits m hbig
      zero_scale := by
        intro h
        dsimp only at h
        omega
      stripped := by
        rw [hcoef, Int.dvd_neg]
        exact hwf.stripped
      shown := hshown }

theorem neg_inline {n : Numeric} (hwf : n.Wf) (hfin : n.special = .finite) (hbig : n.big = none)
    (hlow : n.unscaled ≠ -2 ^ 127) : n.neg.Builds (-n.value) n.dscale := by
  have hrange := hwf.unscaled_range
  have hshown := hwf.shown
  have hneg : saturatingNeg n.unscaled = -n.unscaled := if_neg hlow
  have hnew : (new (-n.unscaled) n.scale).Wf := wf_new (by unfold InI128 at *; omega) hwf.scale_range
  have hnewShown := hnew.shown
  rw [dscale_new] at hnewShown
  have hshape : n.neg = (new (-n.unscaled) n.scale).withDscale n.dscale := by
    unfold neg
    rw [hfin]
    dsimp only
    rw [hneg, if_neg (by rw [hbig]; decide)]
  rw [hshape]
  refine ⟨special_new _ _, ?_, ?_, hnew.withDscale (by omega)⟩
  · rw [value_withDscale, value_new, scaled_neg, value, coef_inline hbig]
  · rw [dscale_withDscale, Int.toNat_natCast]

theorem neg_spec {n : Numeric} (hwf : n.Wf) (hfin : n.special = .finite) (hlow : ¬n.Lowest) :
    n.neg.Builds (-n.value) n.dscale := by
  cases hbig : n.big with
  | none => exact neg_inline hwf hfin hbig fun h => hlow ⟨hbig, h⟩
  | some m => exact neg_big hwf hfin hbig

/-! ## Products -/

theorem viaBigDec_mul {a b : Numeric} (ha : a.Wf) (hb : b.Wf) (hfa : a.special = .finite)
    (hfb : b.special = .finite) (hcap : a.scale + b.scale < 2 ^ 31) {d : Nat}
    (hd : a.scale + b.scale ≤ d) :
    (∃ r, viaBigDec BigDec.mulExact a b d = some r ∧ r.Builds (a.value * b.value) d) ∨
      viaBigDec BigDec.mulExact a b d = none ∧ TooLong (a.value * b.value) := by
  obtain ⟨x, hx, hxc, hxs, -⟩ := BigDec.fromNumeric_spec ha hfa
  obtain ⟨y, hy, hyc, hys, -⟩ := BigDec.fromNumeric_spec hb hfb
  have hcoef := BigDec.coef_mulExact x y
  have hscale := BigDec.scale_mulExact x y
  rw [hxc, hyc] at hcoef
  rw [hxs, hys] at hscale
  have hprod : a.value * b.value = scaled (a.coef * b.coef) (a.scale + b.scale) := (scaled_mul _ _ _ _).symm
  have har := ha.scale_range
  have hbr := hb.scale_range
  unfold viaBigDec
  rw [hx, hy, Option.bind_some, Option.bind_some]
  by_cases hrange : InI32 (a.scale + b.scale)
  · have hclamp : BigDec.clampScale (a.scale + b.scale) = a.scale + b.scale := by
      unfold BigDec.clampScale InI32 at *
      omega
    have hval : (x.mulExact y).value = a.value * b.value := by
      rw [BigDec.value, hcoef, hscale, hclamp, hprod]
    cases hr : fromBigdec (x.mulExact y) (d : Int) with
    | none =>
        have hlarge := large_of_none hr
        rw [hval] at hlarge
        exact Or.inr ⟨rfl, hlarge⟩
    | some r =>
        have hbuilds := fromBigdec_some (by rwa [hscale, hclamp]) (by rw [hscale, hclamp]; omega) hr
        rw [hval, Int.toNat_natCast] at hbuilds
        exact Or.inl ⟨r, rfl, hbuilds⟩
  · -- so far below the machine scales that only zero is not too long
    have hlow : a.scale + b.scale < -2 ^ 31 := by
      unfold InI32 at hrange
      omega
    have hclamp : BigDec.clampScale (a.scale + b.scale) = -2 ^ 31 := by
      unfold BigDec.clampScale
      omega
    by_cases hzero : a.coef * b.coef = 0
    · cases hr : fromBigdec (x.mulExact y) (d : Int) with
      | none =>
          rw [fromBigdec_eq_none, hcoef] at hr
          exact absurd hzero hr.1
      | some r =>
          have hbuilds := fromBigdec_some (by rw [hscale, hclamp]; decide) (by rw [hscale, hclamp]; omega) hr
          rw [Int.toNat_natCast, BigDec.value, hcoef, hzero, scaled_zero] at hbuilds
          rw [hprod, hzero, scaled_zero]
          exact Or.inl ⟨r, rfl, hbuilds⟩
    · have hdpos := numDigits_pos (n := (a.coef * b.coef).natAbs) (by omega)
      have hnone : fromBigdec (x.mulExact y) (d : Int) = none := by
        rw [fromBigdec_eq_none, hcoef, hscale, hclamp]
        refine ⟨hzero, ?_⟩
        unfold maxIntDigits
        omega
      rw [hnone, hprod]
      refine Or.inr ⟨rfl, large_of_digits hzero ?_⟩
      unfold maxIntDigits
      omega

theorem mulInline_spec {a b : Numeric} (ha : a.Wf) (hb : b.Wf) (hfa : a.special = .finite)
    (hfb : b.special = .finite) (hna : a.big = none) (hnb : b.big = none)
    (hrange : InI32 (a.scale + b.scale)) {d : Nat} (hd : a.scale + b.scale ≤ d) :
    (∃ r, (match checkedI128 (a.unscaled * b.unscaled) with
        | some p => some ((new p (a.scale + b.scale)).withDscale d)
        | none => viaBigDec BigDec.mulExact a b d) = some r ∧ r.Builds (a.value * b.value) d) ∨
      (match checkedI128 (a.unscaled * b.unscaled) with
        | some p => some ((new p (a.scale + b.scale)).withDscale d)
        | none => viaBigDec BigDec.mulExact a b d) = none ∧ TooLong (a.value * b.value) := by
  cases hp : checkedI128 (a.unscaled * b.unscaled) with
  | none => exact viaBigDec_mul ha hb hfa hfb hrange.2 hd
  | some p =>
      obtain ⟨hpr, rfl⟩ := checkedI128_eq_some.1 hp
      have hwf := wf_new hpr hrange
      have hshown := hwf.shown
      rw [dscale_new] at hshown
      refine Or.inl ⟨_, rfl, special_new _ _, ?_, ?_, hwf.withDscale (by omega)⟩
      · rw [value_withDscale, value_new, scaled_mul, value, value, coef_inline hna, coef_inline hnb]
      · rw [dscale_withDscale, Int.toNat_natCast]

/-- A well-formed numeric has no larger scale than its value needs. -/
theorem Wf.scale_le_of_value {n : Numeric} (h : n.Wf) {u s : Int} (hv : n.value = scaled u s) :
    n.scale ≤ max s 0 := by
  by_contra hcon
  apply h.stripped (by omega)
  have hpad := scaled_pad (u := u) (by omega : s ≤ n.scale)
  have hcoef : u * 10 ^ (n.scale - s).toNat = n.coef := scaled_inj.1 (hpad.trans hv.symm)
  obtain ⟨k, hk⟩ := Nat.exists_eq_succ_of_ne_zero (show (n.scale - s).toNat ≠ 0 by omega)
  rw [← hcoef, hk, pow_succ]
  exact Dvd.intro_left (u * 10 ^ k) (by ring)

/-- A product short enough to show is exact, or refused for its length. -/
theorem mulFinite_exact {a b : Numeric} (ha : a.Valid) (hb : b.Valid) (hfa : a.special = .finite)
    (hfb : b.special = .finite) (hd : a.dscale + b.dscale ≤ maxMulDscale) :
    (∃ r, mulFinite a b = some r ∧ r.Builds (a.value * b.value) (a.dscale + b.dscale)) ∨
      mulFinite a b = none ∧ TooLong (a.value * b.value) := by
  have hsa := ha.wf.shown
  have hsb := hb.wf.shown
  have hra := ha.wf.scale_range
  have hrb := hb.wf.scale_range
  have hscale : a.scale + b.scale ≤ (a.dscale + b.dscale : Nat) := by omega
  have hmin : min (a.dscale + b.dscale) (2 ^ 31 - 1) = a.dscale + b.dscale := by
    unfold maxMulDscale at hd
    omega
  have hshort : ¬a.dscale + b.dscale > maxMulDscale := by omega
  unfold mulFinite
  dsimp only
  rw [hmin]
  simp only [hshort, if_false]
  split
  · rcases viaBigDec_mul ha.wf hb.wf hfa hfb (by unfold maxMulDscale at hd; omega) hscale with ⟨r, hr, hbuilds⟩ | ⟨hnone, hlong⟩
    · rw [hr]
      exact Or.inl ⟨r, rfl, hbuilds⟩
    · rw [hnone]
      exact Or.inr ⟨rfl, hlong⟩
  · rename_i hbig
    have hna : a.big = none := Option.not_isSome_iff_eq_none.1 fun h => hbig (Or.inl h)
    have hnb : b.big = none := Option.not_isSome_iff_eq_none.1 fun h => hbig (Or.inr h)
    by_cases hrange : InI32 (a.scale + b.scale)
    · rw [if_neg (not_not.2 hrange)]
      rcases mulInline_spec ha.wf hb.wf hfa hfb hna hnb hrange hscale with ⟨r, hr, hbuilds⟩ | ⟨hnone, hlong⟩
      · rw [hr]
        exact Or.inl ⟨r, rfl, hbuilds⟩
      · rw [hnone]
        exact Or.inr ⟨rfl, hlong⟩
    · rw [if_pos hrange]
      have hne : a.coef * b.coef ≠ 0 := by
        intro hzero
        apply hrange
        rcases mul_eq_zero.1 hzero with h | h
        · rw [ha.wf.zero_scale (ha.wf.coef_eq_zero.1 h), Int.zero_add]
          exact hrb
        · rw [hb.wf.zero_scale (hb.wf.coef_eq_zero.1 h), Int.add_zero]
          exact hra
      have hdpos := numDigits_pos (n := (a.coef * b.coef).natAbs) (by omega)
      refine Or.inr ⟨rfl, ?_⟩
      have hprod : a.value * b.value = scaled (a.coef * b.coef) (a.scale + b.scale) := (scaled_mul _ _ _ _).symm
      rw [hprod]
      apply large_of_digits hne
      unfold maxMulDscale at hd
      unfold InI32 at hrange
      unfold maxIntDigits
      omega

/-- Rounding to the most digits shown, of what has the value of a product. -/
theorem roundTo_product {a b p r : Numeric} (ha : a.Valid) (hb : b.Valid) {d : Nat}
    (hp : p.Builds (a.value * b.value) d) (hr : p.roundTo maxMulDscale = some r) :
    ∃ z : Int, NearestAway (a.value * b.value * 10 ^ (maxMulDscale : Int)) z ∧ r.RoundsTo z maxMulDscale := by
  have hsa := ha.scale_le
  have hsb := hb.scale_le
  have hprod : p.value = scaled (a.coef * b.coef) (a.scale + b.scale) :=
    hp.value_eq.trans (scaled_mul _ _ _ _).symm
  have hcap := hp.wf.scale_le_of_value hprod
  have hrange : InI32 maxMulDscale := by decide
  have hcarry : ¬p.Carries maxMulDscale := by
    intro hcon
    rw [roundTo_carries hp.wf hcon] at hr
    cases hr
  refine ⟨p.rounded maxMulDscale, ?_, ?_⟩
  · rw [← hp.value_eq]
    exact nearest_rounded p maxMulDscale
  · have hspec := roundTo_spec hp.wf hp.finite (by unfold maxScale at hsa hsb; omega) hrange hcarry
    rw [hr] at hspec
    rcases hspec with ⟨r', hr', hrounds⟩ | ⟨hnone, -⟩
    · cases hr'
      exact hrounds
    · cases hnone

/-- A product too long to show is rounded to what is shown. -/
theorem mulFinite_rounded {a b r : Numeric} (ha : a.Valid) (hb : b.Valid) (hfa : a.special = .finite)
    (hfb : b.special = .finite) (hd : maxMulDscale < a.dscale + b.dscale) (h : mulFinite a b = some r) :
    ∃ z : Int, NearestAway (a.value * b.value * 10 ^ (maxMulDscale : Int)) z ∧ r.RoundsTo z maxMulDscale := by
  have hsa := ha.scale_le
  have hsb := hb.scale_le
  have hshown : a.scale + b.scale ≤ (min (a.dscale + b.dscale) (2 ^ 31 - 1) : Nat) := by
    have ha' := ha.wf.shown
    have hb' := hb.wf.shown
    unfold maxScale at hsa hsb
    omega
  have hlong : min (a.dscale + b.dscale) (2 ^ 31 - 1) > maxMulDscale := by
    unfold maxMulDscale at hd ⊢
    omega
  unfold mulFinite at h
  dsimp only at h
  generalize min (a.dscale + b.dscale) (2 ^ 31 - 1) = d at h hshown hlong
  simp only [hlong, if_true] at h
  split at h
  · obtain ⟨p, hp, h⟩ := Option.bind_eq_some_iff.1 h
    rcases viaBigDec_mul ha.wf hb.wf hfa hfb (by unfold maxScale at hsa hsb; omega) hshown with
      ⟨p', hp', hbuilds⟩ | ⟨hnone, -⟩
    · rw [hp] at hp'
      cases hp'
      exact roundTo_product ha hb hbuilds h
    · rw [hp] at hnone
      cases hnone
  · rename_i hbig
    have hna : a.big = none := Option.not_isSome_iff_eq_none.1 fun h => hbig (Or.inl h)
    have hnb : b.big = none := Option.not_isSome_iff_eq_none.1 fun h => hbig (Or.inr h)
    split at h
    · cases h
    · rename_i hrange
      obtain ⟨p, hp, h⟩ := Option.bind_eq_some_iff.1 h
      obtain ⟨q, hq, h⟩ := Option.map_eq_some_iff.1 h
      rcases mulInline_spec ha.wf hb.wf hfa hfb hna hnb (not_not.1 hrange) hshown with
        ⟨p', hp', hbuilds⟩ | ⟨hnone, -⟩
      · rw [hp] at hp'
        cases hp'
        obtain ⟨z, hz, hrounds⟩ := roundTo_product ha hb hbuilds hq
        refine ⟨z, hz, ?_⟩
        have hsame : q.withDscale ((min d maxMulDscale : Nat) : Int) = q := by
          have hdq := hrounds.dscale_eq
          have hmin : min d maxMulDscale = maxMulDscale := by omega
          unfold withDscale
          rw [hmin, Int.toNat_natCast, ← Int.toNat_natCast maxMulDscale, ← hdq]
        rw [← h, hsame]
        exact hrounds
      · rw [hp] at hnone
        cases hnone

/-! ## The operations -/

theorem checkedAdd_finite {a b : Numeric} (hfa : a.special = .finite) (hfb : b.special = .finite) :
    checkedAdd a b = addFinite a b := by
  rw [checkedAdd, hfa, hfb]

theorem checkedMul_finite {a b : Numeric} (hfa : a.special = .finite) (hfb : b.special = .finite) :
    checkedMul a b = mulFinite a b := by
  rw [checkedMul, hfa, hfb]

/-- An operation is exact, with a display scale, or refuses a result too long for the format. -/
def Exact (out : Option Numeric) (q : ℚ) (dscale : Nat) : Prop :=
  (∃ r, out = some r ∧ r.Builds q dscale) ∨ out = none ∧ TooLong q

theorem valid_new {u s : Int} (hu : InI128 u) (hs : -2 ^ 31 ≤ s) (hcap : s ≤ maxScale) : (new u s).Valid := by
  have hwf : (new u s).Wf := wf_new hu ⟨hs, by unfold maxScale at hcap; omega⟩
  refine ⟨hwf, ?_⟩
  have hle := hwf.scale_le_of_value (value_new u s)
  unfold maxScale at *
  omega

end Numeric

end Num
