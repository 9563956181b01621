-- SUMMARY: The comparison of numerics, the order it is, and where it is not that of the values.
import Mathlib.Data.Prod.Lex
import Rustgres.Numeric.BigDec

/-!
# Order of Numerics

Numerics of one sign are compared by a count of digits before the point first, then exactly. The count is
one less for an inline mantissa than for a big one.
-/

namespace Num

open Decimal Scaled

namespace Numeric

/-! ## The comparison -/

/-- Both mantissas at the larger scale, when machine integers hold them. -/
def aligned (a b : Numeric) : Option (Int × Int × Int) :=
  let scale := max a.scale b.scale
  let up := fun n : Numeric =>
    (checkedPow10 (asU32 (scale - n.scale))).bind fun p => checkedI128 (n.unscaled * p)
  (up a).bind fun x => (up b).bind fun y => some (x, y, scale)

/-- The count of digits that the shortcut compares: those after the first for an inline mantissa. -/
def magnitude (n : Numeric) : Int :=
  match n.big with
  | some m => (m.decimalDigits : Int) - n.scale
  | none => ((numDigits n.unscaled.natAbs - 1 : Nat) : Int) - n.scale

def exactCmp (a b : Numeric) : Ordering :=
  match BigDec.fromNumeric a, BigDec.fromNumeric b with
  | some d, some e => d.cmp e
  | _, _ => .eq

def cmpFinite (a b : Numeric) : Ordering :=
  if a.unscaled = 0 ∧ b.unscaled = 0 then .eq
  else if (a.unscaled < 0) ≠ (b.unscaled < 0) then (if a.unscaled < 0 then .lt else .gt)
  else if a.unscaled = 0 then (if b.unscaled < 0 then .gt else .lt)
  else if b.unscaled = 0 then (if a.unscaled < 0 then .lt else .gt)
  else if a.magnitude ≠ b.magnitude then
    (if a.unscaled < 0 then compare b.magnitude a.magnitude else compare a.magnitude b.magnitude)
  else if a.big.isSome ∨ b.big.isSome then exactCmp a b
  else
    match aligned a b with
    | some (x, y, _) => compare x y
    | none => exactCmp a b

def cmp (a b : Numeric) : Ordering :=
  match a.special, b.special with
  | .nan, .nan => .eq
  | .nan, _ => .gt
  | _, .nan => .lt
  | .negInf, .negInf => .eq
  | .posInf, .posInf => .eq
  | .negInf, _ => .lt
  | _, .negInf => .gt
  | .posInf, _ => .gt
  | _, .posInf => .lt
  | .finite, .finite => cmpFinite a b

theorem exactCmp_eq {a b : Numeric} (ha : a.Wf) (hb : b.Wf) (hfa : a.special = .finite)
    (hfb : b.special = .finite) : exactCmp a b = compare a.value b.value := by
  obtain ⟨d, hd, hdc, hds, hdp⟩ := BigDec.fromNumeric_spec ha hfa
  obtain ⟨e, he, hec, hes, hep⟩ := BigDec.fromNumeric_spec hb hfb
  unfold exactCmp
  rw [hd, he]
  dsimp only
  rw [BigDec.cmp_eq hdp hep, BigDec.value, BigDec.value, hdc, hds, hec, hes]
  rfl

theorem asU32_pad {s t : Int} (hs : InI32 s) (ht : InI32 t) :
    asU32 (max s t - s) = (max s t - s).toNat := by
  unfold InI32 at hs ht
  exact asU32_of_lt (by omega) (by omega)

theorem aligned_some {a b : Numeric} (ha : a.Wf) (hb : b.Wf) {x y s : Int} (h : aligned a b = some (x, y, s)) :
    s = max a.scale b.scale ∧ InI128 x ∧ InI128 y ∧ scaled x s = scaled a.unscaled a.scale ∧
      scaled y s = scaled b.unscaled b.scale := by
  unfold aligned at h
  dsimp only at h
  obtain ⟨x', hx, h⟩ := Option.bind_eq_some_iff.1 h
  obtain ⟨y', hy, h⟩ := Option.bind_eq_some_iff.1 h
  obtain ⟨p, hp, hx⟩ := Option.bind_eq_some_iff.1 hx
  obtain ⟨q, hq, hy⟩ := Option.bind_eq_some_iff.1 hy
  cases h
  obtain ⟨-, rfl⟩ := checkedI128_eq_some.1 hp
  obtain ⟨-, rfl⟩ := checkedI128_eq_some.1 hq
  obtain ⟨hxr, rfl⟩ := checkedI128_eq_some.1 hx
  obtain ⟨hyr, rfl⟩ := checkedI128_eq_some.1 hy
  rw [asU32_pad ha.scale_range hb.scale_range] at hxr ⊢
  rw [max_comm a.scale b.scale, asU32_pad hb.scale_range ha.scale_range, max_comm b.scale a.scale] at hyr ⊢
  exact ⟨rfl, hxr, hyr, scaled_pad (le_max_left _ _), scaled_pad (le_max_right _ _)⟩

/-! ## The order it is -/

/-- Digits before the point, not more than zero for a fraction. -/
def digitsBefore (n : Numeric) : Int := (numDigits n.coef.natAbs : Int) - n.scale

/-- A place among the numerics of one sign: twice the digits before the point, and one more for a big
mantissa. -/
def place (n : Numeric) : Int := 2 * n.digitsBefore + (if n.big.isSome then 1 else 0)

/-- What the comparison compares: signs, then places, then values. -/
def key (n : Numeric) : Int ×ₗ Int ×ₗ ℚ := toLex (n.coef.sign, toLex (n.coef.sign * n.place, n.value))

theorem compare_key (a b : Numeric) : compare a.key b.key
    = (compare a.coef.sign b.coef.sign).then
      ((compare (a.coef.sign * a.place) (b.coef.sign * b.place)).then (compare a.value b.value)) := rfl

theorem magnitude_inline {n : Numeric} (h : n.big = none) (hne : n.coef ≠ 0) :
    n.magnitude = n.digitsBefore - 1 := by
  have hpos := numDigits_pos (n := n.coef.natAbs) (by omega)
  rw [coef_inline h] at hpos
  rw [magnitude, h, digitsBefore, coef_inline h]
  dsimp only
  omega

theorem magnitude_big {n : Numeric} (hwf : n.Wf) {m : BigUint} (h : n.big = some m) :
    n.magnitude = n.digitsBefore := by
  have hmag := hwf.toNat_mag
  rw [mag, h] at hmag
  dsimp only at hmag
  rw [magnitude, h, digitsBefore, ← hmag]
  dsimp only
  rw [BigUint.decimalDigits_eq]

/-- Different magnitudes compare as the places do; equal ones leave the places equal, or in the order of
the digits before the point. -/
theorem magnitude_place {a b : Numeric} (ha : a.Wf) (hb : b.Wf) (hna : a.coef ≠ 0) (hnb : b.coef ≠ 0) :
    (a.magnitude < b.magnitude → a.place < b.place) ∧ (b.magnitude < a.magnitude → b.place < a.place) ∧
      (a.magnitude = b.magnitude → (a.place < b.place → a.digitsBefore < b.digitsBefore) ∧
        (b.place < a.place → b.digitsBefore < a.digitsBefore)) := by
  unfold place
  cases hab : a.big with
  | none =>
      rw [magnitude_inline hab hna]
      cases hbb : b.big with
      | none =>
          rw [magnitude_inline hbb hnb]
          simp only [Option.isSome_none, Bool.false_eq_true, if_false]
          omega
      | some n =>
          rw [magnitude_big hb hbb]
          simp only [Option.isSome_none, Option.isSome_some, Bool.false_eq_true, if_false, if_true]
          omega
  | some m =>
      rw [magnitude_big ha hab]
      cases hbb : b.big with
      | none =>
          rw [magnitude_inline hbb hnb]
          simp only [Option.isSome_none, Option.isSome_some, Bool.false_eq_true, if_false, if_true]
          omega
      | some n =>
          rw [magnitude_big hb hbb]
          simp only [Option.isSome_some, if_true]
          omega

theorem abs_value (n : Numeric) : |n.value| = scaled (n.coef.natAbs : Int) n.scale := abs_scaled _ _

/-- More digits before the point, larger absolute value. -/
theorem abs_lt_of_digitsBefore {a b : Numeric} (hnb : b.coef ≠ 0) (h : a.digitsBefore < b.digitsBefore) :
    |a.value| < |b.value| := by
  rw [abs_value, abs_value]
  exact scaled_lt_of_digits (by omega) h

theorem value_pos {n : Numeric} : 0 < n.value ↔ 0 < n.coef := scaled_pos

theorem value_neg {n : Numeric} : n.value < 0 ↔ n.coef < 0 := scaled_neg_iff

theorem value_eq_zero {n : Numeric} : n.value = 0 ↔ n.coef = 0 := scaled_eq_zero

/-- The comparison past the shortcut is that of the values. -/
theorem exact_eq {a b : Numeric} (ha : a.Wf) (hb : b.Wf) (hfa : a.special = .finite)
    (hfb : b.special = .finite) :
    (if a.big.isSome ∨ b.big.isSome then exactCmp a b
      else
        match aligned a b with
        | some (x, y, _) => compare x y
        | none => exactCmp a b) = compare a.value b.value := by
  split
  · exact exactCmp_eq ha hb hfa hfb
  · rename_i hbig
    have hna : a.big = none := by
      cases h : a.big with
      | none => rfl
      | some m => simp [h] at hbig
    have hnb : b.big = none := by
      cases h : b.big with
      | none => rfl
      | some m => simp [h] at hbig
    cases hal : aligned a b with
    | none => exact exactCmp_eq ha hb hfa hfb
    | some t =>
        obtain ⟨x, y, s⟩ := t
        obtain ⟨-, -, -, hx, hy⟩ := aligned_some ha hb hal
        dsimp only
        rw [value, value, coef_inline hna, coef_inline hnb, ← hx, ← hy, compare_scaled]

theorem compare_sign_lt {x y : Int} (h : x.sign < y.sign) : compare x.sign y.sign = .lt :=
  compare_lt_iff_lt.2 h

/-- Same sign: the comparison is that of the places, then of the values. -/
theorem cmp_same_sign {a b : Numeric} (ha : a.Wf) (hb : b.Wf) (hfa : a.special = .finite)
    (hfb : b.special = .finite) (hna : a.coef ≠ 0) (hnb : b.coef ≠ 0) (hs : a.coef.sign = b.coef.sign) :
    (if a.magnitude ≠ b.magnitude then
      (if a.unscaled < 0 then compare b.magnitude a.magnitude else compare a.magnitude b.magnitude)
    else if a.big.isSome ∨ b.big.isSome then exactCmp a b
    else
      match aligned a b with
      | some (x, y, _) => compare x y
      | none => exactCmp a b) = compare a.key b.key := by
  obtain ⟨hlt, hgt, heq⟩ := magnitude_place ha hb hna hnb
  rw [compare_key, hs, compare_eq_iff_eq.2 rfl, Ordering.eq_then, exact_eq ha hb hfa hfb]
  rcases Int.lt_or_gt_of_ne hnb with hneg | hpos
  · -- negative: the larger place is the smaller value
    have hbs : b.coef.sign = -1 := Int.sign_eq_neg_one_of_neg hneg
    have hasign : a.coef < 0 := Int.sign_eq_neg_one_iff_neg.1 (hs.trans hbs)
    rw [if_pos (ha.coef_neg.1 hasign), hbs]
    by_cases hm : a.magnitude = b.magnitude
    · rw [if_neg (not_not.2 hm)]
      obtain ⟨hl, hg⟩ := heq hm
      rcases Int.lt_trichotomy a.place b.place with h | h | h
      · have habs := abs_lt_of_digitsBefore hnb (hl h)
        rw [abs_of_neg (value_neg.2 hasign), abs_of_neg (value_neg.2 hneg)] at habs
        rw [compare_gt_iff_gt.2 (by omega : (-1) * b.place < (-1) * a.place),
          compare_gt_iff_gt.2 (by linarith : b.value < a.value)]
        rfl
      · rw [h, compare_eq_iff_eq.2 rfl, Ordering.eq_then]
      · have habs := abs_lt_of_digitsBefore hna (hg h)
        rw [abs_of_neg (value_neg.2 hasign), abs_of_neg (value_neg.2 hneg)] at habs
        rw [compare_lt_iff_lt.2 (by omega : (-1) * a.place < (-1) * b.place),
          compare_lt_iff_lt.2 (by linarith : a.value < b.value)]
        rfl
    · rw [if_pos hm]
      rcases Int.lt_or_gt_of_ne hm with h | h
      · have hp := hlt h
        rw [compare_gt_iff_gt.2 h, compare_gt_iff_gt.2 (by omega : (-1) * b.place < (-1) * a.place)]
        rfl
      · have hp := hgt h
        rw [compare_lt_iff_lt.2 h, compare_lt_iff_lt.2 (by omega : (-1) * a.place < (-1) * b.place)]
        rfl
  · have hbs : b.coef.sign = 1 := Int.sign_eq_one_of_pos hpos
    have hasign : 0 < a.coef := Int.sign_eq_one_iff_pos.1 (hs.trans hbs)
    have hnneg := (ha.coef_pos).1 hasign
    rw [if_neg (show ¬a.unscaled < 0 by omega), hbs]
    by_cases hm : a.magnitude = b.magnitude
    · rw [if_neg (not_not.2 hm)]
      obtain ⟨hl, hg⟩ := heq hm
      rcases Int.lt_trichotomy a.place b.place with h | h | h
      · have habs := abs_lt_of_digitsBefore hnb (hl h)
        rw [abs_of_pos (value_pos.2 hasign), abs_of_pos (value_pos.2 hpos)] at habs
        rw [compare_lt_iff_lt.2 (by omega : 1 * a.place < 1 * b.place), compare_lt_iff_lt.2 habs]
        rfl
      · rw [h, compare_eq_iff_eq.2 rfl, Ordering.eq_then]
      · have habs := abs_lt_of_digitsBefore hna (hg h)
        rw [abs_of_pos (value_pos.2 hasign), abs_of_pos (value_pos.2 hpos)] at habs
        rw [compare_gt_iff_gt.2 (by omega : 1 * b.place < 1 * a.place), compare_gt_iff_gt.2 habs]
        rfl
    · rw [if_pos hm]
      rcases Int.lt_or_gt_of_ne hm with h | h
      · have hp := hlt h
        rw [compare_lt_iff_lt.2 h, compare_lt_iff_lt.2 (by omega : 1 * a.place < 1 * b.place)]
        rfl
      · have hp := hgt h
        rw [compare_gt_iff_gt.2 h, compare_gt_iff_gt.2 (by omega : 1 * b.place < 1 * a.place)]
        rfl

theorem key_of_sign_lt {a b : Numeric} (h : a.coef.sign < b.coef.sign) : compare a.key b.key = .lt := by
  rw [compare_key, compare_lt_iff_lt.2 h]
  rfl

theorem key_of_sign_gt {a b : Numeric} (h : b.coef.sign < a.coef.sign) : compare a.key b.key = .gt := by
  rw [compare_key, compare_gt_iff_gt.2 h]
  rfl

theorem cmpFinite_eq {a b : Numeric} (ha : a.Wf) (hb : b.Wf) (hfa : a.special = .finite)
    (hfb : b.special = .finite) : cmpFinite a b = compare a.key b.key := by
  have hza := ha.coef_eq_zero
  have hzb := hb.coef_eq_zero
  have hna := ha.coef_neg
  have hnb := hb.coef_neg
  unfold cmpFinite
  rcases Int.lt_trichotomy a.coef 0 with hac | hac | hac
  · have hau := hna.1 hac
    have has : a.coef.sign = -1 := Int.sign_eq_neg_one_of_neg hac
    rw [if_neg (by omega)]
    rcases Int.lt_trichotomy b.coef 0 with hbc | hbc | hbc
    · have hbu := hnb.1 hbc
      have hbs : b.coef.sign = -1 := Int.sign_eq_neg_one_of_neg hbc
      rw [if_neg (by simp [hau, hbu]), if_neg (by omega), if_neg (by omega)]
      exact cmp_same_sign ha hb hfa hfb (by omega) (by omega) (has.trans hbs.symm)
    · have hbu := hzb.1 hbc
      rw [if_pos (by simp [hau, hbu]), if_pos hau]
      exact (key_of_sign_lt (by rw [has, hbc]; decide)).symm
    · have hbs : b.coef.sign = 1 := Int.sign_eq_one_of_pos hbc
      rw [if_pos (by simp only [hau, ne_eq, eq_iff_iff, true_iff]; omega), if_pos hau]
      exact (key_of_sign_lt (by rw [has, hbs]; decide)).symm
  · have hau := hza.1 hac
    rcases Int.lt_trichotomy b.coef 0 with hbc | hbc | hbc
    · have hbu := hnb.1 hbc
      have hbs : b.coef.sign = -1 := Int.sign_eq_neg_one_of_neg hbc
      rw [if_neg (by omega), if_pos (by simp [hau, hbu]), if_neg (by omega)]
      exact (key_of_sign_gt (by rw [hac, hbs]; decide)).symm
    · have hbu := hzb.1 hbc
      rw [if_pos ⟨hau, hbu⟩, compare_key, hac, hbc, value, value, hac, hbc, scaled_zero, scaled_zero,
        Int.sign_zero, zero_mul, zero_mul]
      rfl
    · have hbs : b.coef.sign = 1 := Int.sign_eq_one_of_pos hbc
      rw [if_neg (by omega), if_neg (by simp only [hau, ne_eq, eq_iff_iff, lt_irrefl, false_iff]; omega),
        if_pos hau, if_neg (by omega)]
      exact (key_of_sign_lt (by rw [hac, hbs]; decide)).symm
  · have has : a.coef.sign = 1 := Int.sign_eq_one_of_pos hac
    rw [if_neg (by omega)]
    rcases Int.lt_trichotomy b.coef 0 with hbc | hbc | hbc
    · have hbu := hnb.1 hbc
      have hbs : b.coef.sign = -1 := Int.sign_eq_neg_one_of_neg hbc
      rw [if_pos (by simp only [hbu, ne_eq, eq_iff_iff, iff_true]; omega), if_neg (by omega)]
      exact (key_of_sign_gt (by rw [has, hbs]; decide)).symm
    · have hbu := hzb.1 hbc
      rw [if_neg (by simp only [hbu, ne_eq, eq_iff_iff, lt_irrefl, iff_false]; omega), if_neg (by omega),
        if_pos hbu, if_neg (by omega)]
      exact (key_of_sign_gt (by rw [has, hbc]; decide)).symm
    · have hbs : b.coef.sign = 1 := Int.sign_eq_one_of_pos hbc
      have hnota : ¬a.unscaled < 0 := by omega
      have hnotb : ¬b.unscaled < 0 := by omega
      rw [if_neg (by simp [hnota, hnotb]), if_neg (by omega), if_neg (by omega)]
      exact cmp_same_sign ha hb hfa hfb (by omega) (by omega) (has.trans hbs.symm)

theorem compare_extend_finite {α : Type} [LinearOrder α] (x y : α) :
    compare (extend x .finite) (extend y .finite) = compare x y :=
  compare_strictMono (f := fun w : α => extend w .finite)
    (fun _ _ h => WithBot.coe_lt_coe.2 (WithTop.coe_lt_coe.2 (WithTop.coe_lt_coe.2 h))) x y

theorem compare_extend {α : Type} [LinearOrder α] (x y : α) (s t : NumericSpecial) :
    compare (extend x s) (extend y t)
      = match s, t with
        | .nan, .nan => .eq
        | .nan, _ => .gt
        | _, .nan => .lt
        | .negInf, .negInf => .eq
        | .posInf, .posInf => .eq
        | .negInf, _ => .lt
        | _, .negInf => .gt
        | .posInf, _ => .gt
        | _, .posInf => .lt
        | .finite, .finite => compare x y := by
  have hinf : ∀ w : α, extend w .finite < extend w .posInf := fun w =>
    WithBot.coe_lt_coe.2 (WithTop.coe_lt_coe.2 (WithTop.coe_lt_top _))
  have hnan : ∀ w : WithTop α, ((w : WithTop (WithTop α)) : Extended α) < extend x .nan := fun w =>
    WithBot.coe_lt_coe.2 (WithTop.coe_lt_top _)
  have hbot : ∀ w : WithTop (WithTop α), (⊥ : Extended α) < w := fun w => WithBot.bot_lt_coe w
  cases s with
  | finite =>
      cases t with
      | finite => exact compare_extend_finite x y
      | nan => exact compare_lt_iff_lt.2 (hnan _)
      | posInf => exact compare_lt_iff_lt.2 (hinf x)
      | negInf => exact compare_gt_iff_gt.2 (hbot _)
  | nan =>
      cases t with
      | finite => exact compare_gt_iff_gt.2 (hnan _)
      | nan => exact compare_eq_iff_eq.2 rfl
      | posInf => exact compare_gt_iff_gt.2 (hnan _)
      | negInf => exact compare_gt_iff_gt.2 (hbot _)
  | posInf =>
      cases t with
      | finite => exact compare_gt_iff_gt.2 (hinf y)
      | nan => exact compare_lt_iff_lt.2 (hnan _)
      | posInf => exact compare_eq_iff_eq.2 rfl
      | negInf => exact compare_gt_iff_gt.2 (hbot _)
  | negInf =>
      cases t with
      | finite => exact compare_lt_iff_lt.2 (hbot _)
      | nan => exact compare_lt_iff_lt.2 (hbot _)
      | posInf => exact compare_lt_iff_lt.2 (hbot _)
      | negInf => exact compare_eq_iff_eq.2 rfl

/-- The order of all numerics that the comparison is. -/
def position (n : Numeric) : Extended (Int ×ₗ Int ×ₗ ℚ) := extend n.key n.special

theorem cmp_eq_position {a b : Numeric} (ha : a.Wf) (hb : b.Wf) :
    a.cmp b = compare a.position b.position := by
  unfold cmp position
  rw [compare_extend]
  cases hfa : a.special with
  | finite =>
      cases hfb : b.special with
      | finite => exact cmpFinite_eq ha hb hfa hfb
      | nan | posInf | negInf => rfl
  | nan | posInf | negInf =>
      cases b.special with
      | finite | nan | posInf | negInf => rfl

/-! ## Where it is not the order of the values -/

/-- A big mantissa and an inline one, of one sign and with as many digits before the point, the big one not
farther from zero. -/
def BigBelow (a b : Numeric) : Prop :=
  a.big.isSome ∧ b.big = none ∧ a.coef.sign = b.coef.sign ∧ a.digitsBefore = b.digitsBefore ∧
    |a.value| ≤ |b.value|

def Straddles (a b : Numeric) : Prop :=
  a.special = .finite ∧ b.special = .finite ∧ (BigBelow a b ∨ BigBelow b a)

theorem place_of_isSome {n : Numeric} (h : n.big.isSome) : n.place = 2 * n.digitsBefore + 1 := by
  rw [place, if_pos h]

theorem place_of_none {n : Numeric} (h : n.big = none) : n.place = 2 * n.digitsBefore := by
  rw [place, h, if_neg (by simp), Int.add_zero]

theorem Wf.coef_ne_zero {n : Numeric} (h : n.Wf) (hbig : n.big.isSome) : n.coef ≠ 0 := by
  intro hz
  obtain ⟨m, hm⟩ := Option.isSome_iff_exists.1 hbig
  have hu := h.coef_eq_zero.1 hz
  rcases h.big_sign m hm with hs | hs
  · omega
  · omega

/-- With a big mantissa first the comparison says farther from zero, whatever the values. -/
theorem key_of_bigBelow {a b : Numeric} (ha : a.Wf) (h : BigBelow a b) :
    compare a.key b.key ≠ compare a.value b.value := by
  obtain ⟨hbig, hinl, hsign, hdig, hle⟩ := h
  have hne := ha.coef_ne_zero hbig
  have hplace : b.place < a.place := by
    rw [place_of_isSome hbig, place_of_none hinl, hdig]
    omega
  rw [compare_key, hsign, compare_eq_iff_eq.2 rfl, Ordering.eq_then]
  rcases Int.lt_or_gt_of_ne hne with hneg | hpos
  · have hbs : b.coef.sign = -1 := by rw [← hsign, Int.sign_eq_neg_one_of_neg hneg]
    have hbneg := value_neg.2 (Int.sign_eq_neg_one_iff_neg.1 hbs)
    rw [abs_of_neg (value_neg.2 hneg), abs_of_neg hbneg] at hle
    rw [hbs, compare_lt_iff_lt.2 (by omega : (-1) * a.place < (-1) * b.place)]
    intro hcon
    have hlt : a.value < b.value := compare_lt_iff_lt.1 hcon.symm
    linarith
  · have hbs : b.coef.sign = 1 := by rw [← hsign, Int.sign_eq_one_of_pos hpos]
    have hbpos := value_pos.2 (Int.sign_eq_one_iff_pos.1 hbs)
    rw [abs_of_pos (value_pos.2 hpos), abs_of_pos hbpos] at hle
    rw [hbs, compare_gt_iff_gt.2 (by omega : 1 * b.place < 1 * a.place)]
    intro hcon
    have hlt : b.value < a.value := compare_gt_iff_gt.1 hcon.symm
    linarith

theorem compare_swap {α : Type*} [LinearOrder α] (x y : α) : compare y x = (compare x y).swap := by
  rcases lt_trichotomy x y with h | rfl | h
  · rw [compare_lt_iff_lt.2 h, compare_gt_iff_gt.2 h]
    rfl
  · rw [compare_eq_iff_eq.2 rfl]
    rfl
  · rw [compare_gt_iff_gt.2 h, compare_lt_iff_lt.2 h]
    rfl

/-- The order of the places is that of the absolute values, unless the numerics straddle. -/
theorem abs_lt_of_place {a b : Numeric} (hnb : b.coef ≠ 0)
    (hsign : a.coef.sign = b.coef.sign) (h : a.place < b.place) (hstr : ¬BigBelow b a) :
    |a.value| < |b.value| := by
  by_cases hd : a.digitsBefore < b.digitsBefore
  · exact abs_lt_of_digitsBefore hnb hd
  · unfold place at h
    have hb : b.big.isSome := by
      by_contra hcon
      rw [if_neg hcon] at h
      split at h
      · omega
      · omega
    have ha : a.big = none := by
      cases hcase : a.big with
      | none => rfl
      | some m =>
          rw [hcase, if_pos hb] at h
          simp only [Option.isSome_some, if_true] at h
          omega
    rw [if_pos hb, ha, if_neg (by simp)] at h
    by_contra hcon
    exact hstr ⟨hb, ha, hsign.symm, by omega, not_lt.1 hcon⟩

theorem sign_lt {x y : Int} (h : x.sign < y.sign) : x < 0 ∧ 0 ≤ y ∨ x ≤ 0 ∧ 0 < y := by
  rcases Int.lt_trichotomy x 0 with hx | rfl | hx
  · rcases Int.lt_trichotomy y 0 with hy | rfl | hy
    · rw [Int.sign_eq_neg_one_of_neg hx, Int.sign_eq_neg_one_of_neg hy] at h
      cases h
    · exact Or.inl ⟨hx, Int.le_refl 0⟩
    · exact Or.inl ⟨hx, hy.le⟩
  · rw [Int.sign_zero] at h
    exact Or.inr ⟨Int.le_refl 0, Int.sign_pos_iff.1 h⟩
  · rw [Int.sign_eq_one_of_pos hx] at h
    rcases Int.lt_trichotomy y 0 with hy | rfl | hy
    · rw [Int.sign_eq_neg_one_of_neg hy] at h
      cases h
    · cases h
    · rw [Int.sign_eq_one_of_pos hy] at h
      cases h

theorem value_lt_of_sign {a b : Numeric} (h : a.coef.sign < b.coef.sign) : a.value < b.value := by
  rcases sign_lt h with ⟨ha, hb⟩ | ⟨ha, hb⟩
  · exact lt_of_lt_of_le (value_neg.2 ha) (scaled_nonneg.2 hb)
  · refine lt_of_le_of_lt ?_ (value_pos.2 hb)
    rw [← not_lt, value_pos]
    omega

theorem key_eq_value {a b : Numeric} (hab : ¬BigBelow a b) (hba : ¬BigBelow b a) :
    compare a.key b.key = compare a.value b.value := by
  rw [compare_key]
  rcases lt_trichotomy a.coef.sign b.coef.sign with hs | hs | hs
  · rw [compare_lt_iff_lt.2 hs, compare_lt_iff_lt.2 (value_lt_of_sign hs)]
    rfl
  · rw [hs, compare_eq_iff_eq.2 rfl, Ordering.eq_then]
    rcases Int.lt_trichotomy b.coef 0 with hbc | hbc | hbc
    · -- both negative: the larger place is the smaller value
      have hac : a.coef < 0 := Int.sign_eq_neg_one_iff_neg.1 (hs.trans (Int.sign_eq_neg_one_of_neg hbc))
      rw [Int.sign_eq_neg_one_of_neg hbc]
      rcases Int.lt_trichotomy a.place b.place with h | h | h
      · have habs := abs_lt_of_place hbc.ne hs h hba
        rw [abs_of_neg (value_neg.2 hac), abs_of_neg (value_neg.2 hbc)] at habs
        rw [compare_gt_iff_gt.2 (by omega : (-1) * b.place < (-1) * a.place),
          compare_gt_iff_gt.2 (by linarith : b.value < a.value)]
        rfl
      · rw [h, compare_eq_iff_eq.2 rfl, Ordering.eq_then]
      · have habs := abs_lt_of_place hac.ne hs.symm h hab
        rw [abs_of_neg (value_neg.2 hac), abs_of_neg (value_neg.2 hbc)] at habs
        rw [compare_lt_iff_lt.2 (by omega : (-1) * a.place < (-1) * b.place),
          compare_lt_iff_lt.2 (by linarith : a.value < b.value)]
        rfl
    · rw [hbc, Int.sign_zero, zero_mul, zero_mul, compare_eq_iff_eq.2 rfl, Ordering.eq_then]
    · have hac : 0 < a.coef := Int.sign_eq_one_iff_pos.1 (hs.trans (Int.sign_eq_one_of_pos hbc))
      rw [Int.sign_eq_one_of_pos hbc]
      rcases Int.lt_trichotomy a.place b.place with h | h | h
      · have habs := abs_lt_of_place hbc.ne' hs h hba
        rw [abs_of_pos (value_pos.2 hac), abs_of_pos (value_pos.2 hbc)] at habs
        rw [compare_lt_iff_lt.2 (by omega : 1 * a.place < 1 * b.place), compare_lt_iff_lt.2 habs]
        rfl
      · rw [h, compare_eq_iff_eq.2 rfl, Ordering.eq_then]
      · have habs := abs_lt_of_place hac.ne' hs.symm h hab
        rw [abs_of_pos (value_pos.2 hac), abs_of_pos (value_pos.2 hbc)] at habs
        rw [compare_gt_iff_gt.2 (by omega : 1 * b.place < 1 * a.place), compare_gt_iff_gt.2 habs]
        rfl
  · rw [compare_gt_iff_gt.2 hs, compare_gt_iff_gt.2 (value_lt_of_sign hs)]
    rfl

/-- The comparison is the order of what the numerics denote, except on those that straddle the two
mantissas. -/
theorem cmp_eq_denote_iff {a b : Numeric} (ha : a.Wf) (hb : b.Wf) :
    a.cmp b = compare a.denote b.denote ↔ ¬Straddles a b := by
  rw [cmp_eq_position ha hb, position, position, denote, denote]
  by_cases hfin : a.special = .finite ∧ b.special = .finite
  · obtain ⟨hfa, hfb⟩ := hfin
    rw [hfa, hfb, compare_extend_finite, compare_extend_finite]
    constructor
    · rintro heq ⟨-, -, hstr | hstr⟩
      · exact key_of_bigBelow ha hstr heq
      · apply key_of_bigBelow hb hstr
        rw [compare_swap a.key, compare_swap a.value, heq]
    · intro hstr
      exact key_eq_value (fun h => hstr ⟨hfa, hfb, Or.inl h⟩) (fun h => hstr ⟨hfa, hfb, Or.inr h⟩)
  · have hstr : ¬Straddles a b := fun h => hfin ⟨h.1, h.2.1⟩
    simp only [hstr, not_false_iff, iff_true]
    rw [compare_extend, compare_extend]
    cases hfa : a.special with
    | finite =>
        cases hfb : b.special with
        | finite => exact absurd ⟨hfa, hfb⟩ hfin
        | nan | posInf | negInf => rfl
    | nan | posInf | negInf =>
        cases b.special with
        | finite | nan | posInf | negInf => rfl

theorem cmp_self {a : Numeric} (ha : a.Wf) : a.cmp a = .eq := by
  rw [cmp_eq_position ha ha, compare_eq_iff_eq]

theorem cmp_swap {a b : Numeric} (ha : a.Wf) (hb : b.Wf) : b.cmp a = (a.cmp b).swap := by
  rw [cmp_eq_position ha hb, cmp_eq_position hb ha, compare_swap]

theorem cmp_le_trans {a b c : Numeric} (ha : a.Wf) (hb : b.Wf) (hc : c.Wf) (hab : a.cmp b ≠ .gt)
    (hbc : b.cmp c ≠ .gt) : a.cmp c ≠ .gt := by
  rw [cmp_eq_position ha hb, ne_eq, compare_gt_iff_gt, not_lt] at hab
  rw [cmp_eq_position hb hc, ne_eq, compare_gt_iff_gt, not_lt] at hbc
  rw [cmp_eq_position ha hc, ne_eq, compare_gt_iff_gt, not_lt]
  exact hab.trans hbc

/-- Equal in the comparison is equal in value. -/
theorem denote_eq_of_cmp {a b : Numeric} (ha : a.Wf) (hb : b.Wf) (h : a.cmp b = .eq) :
    a.denote = b.denote := by
  rw [cmp_eq_position ha hb, position, position, compare_extend] at h
  unfold denote
  cases hfa : a.special with
  | finite =>
      cases hfb : b.special with
      | finite =>
          rw [hfa, hfb] at h
          dsimp only at h
          rw [compare_key, Ordering.then_eq_eq, Ordering.then_eq_eq, compare_eq_iff_eq (a := a.value)] at h
          rw [h.2.2]
      | nan | posInf | negInf =>
          rw [hfa, hfb] at h
          cases h
  | nan | posInf | negInf =>
      cases hfb : b.special with
      | finite | nan | posInf | negInf =>
          rw [hfa, hfb] at h
          first | rfl | cases h

/-- The comparison is a total order of all numerics, equal ones denote the same, and it is the order of what
they denote exactly where they do not straddle the two mantissas. -/
theorem cmp_order (a b c : Numeric) (ha : a.Wf) (hb : b.Wf) (hc : c.Wf) :
    (a.cmp b = compare a.denote b.denote ↔ ¬Straddles a b) ∧
      a.cmp a = .eq ∧
      (b.cmp a = (a.cmp b).swap ∧ (a.cmp b = .eq → a.denote = b.denote)) ∧
      (a.cmp b ≠ .gt → b.cmp c ≠ .gt → a.cmp c ≠ .gt) :=
  ⟨cmp_eq_denote_iff ha hb, cmp_self ha, ⟨cmp_swap ha hb, denote_eq_of_cmp ha hb⟩,
    cmp_le_trans ha hb hc⟩

theorem wf_of_fromBig {neg : Bool} {m : BigUint} {scale dscale : Int} {n : Numeric}
    (hs : InI32 scale) (hd : scale ≤ dscale.toNat) (h : fromBig neg m scale dscale = some n) : n.Wf :=
  (fromBig_some hs hd h).wf

/-- Twice ten to the 38th, whose mantissa is big, and three times it, whose mantissa is not. -/
theorem cmp_order_mixed :
    (Numeric.cmp ⟨1, 0, 0, .finite, some (BigUint.fromU128 (2 * 10 ^ 38))⟩ (new 3 (-38))
        = compare (denote ⟨1, 0, 0, .finite, some (BigUint.fromU128 (2 * 10 ^ 38))⟩) (new 3 (-38)).denote
      ↔ ¬Straddles ⟨1, 0, 0, .finite, some (BigUint.fromU128 (2 * 10 ^ 38))⟩ (new 3 (-38))) :=
  (cmp_order _ _ (new 3 (-38))
    (@wf_of_fromBig false (BigUint.fromU128 (2 * 10 ^ 38)) 0 0 _ (by decide) (by decide) (by decide))
    (wf_new (by decide) (by decide)) (wf_new (by decide) (by decide))).1

/-- The smaller of the two compares as the greater. -/
theorem cmp_straddling :
    fromBig false (BigUint.fromU128 (2 * 10 ^ 38)) 0 0
        = some ⟨1, 0, 0, .finite, some (BigUint.fromU128 (2 * 10 ^ 38))⟩ ∧
      Numeric.cmp ⟨1, 0, 0, .finite, some (BigUint.fromU128 (2 * 10 ^ 38))⟩ (new 3 (-38)) = .gt ∧
      compare (denote ⟨1, 0, 0, .finite, some (BigUint.fromU128 (2 * 10 ^ 38))⟩) (new 3 (-38)).denote
        = .lt := by
  refine ⟨by decide, by decide, ?_⟩
  rw [denote, denote, special_new, compare_extend_finite, value_new, compare_lt_iff_lt]
  have hvalue : value ⟨1, 0, 0, .finite, some (BigUint.fromU128 (2 * 10 ^ 38))⟩ = scaled (2 * 10 ^ 38) 0 := by
    rw [value, coef_big rfl, BigUint.toNat_fromU128]
    rfl
  rw [hvalue, ← scaled_pad (by decide : (-38 : Int) ≤ 0), scaled_lt]
  decide

end Numeric

end Num
