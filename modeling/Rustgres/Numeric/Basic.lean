-- SUMMARY: Numerics with an inline or a big mantissa, how they are built, and what they denote.
import Rustgres.Lib.Scaled
import Rustgres.Numeric.BigUint

/-!
# Numerics

A numeric is a mantissa scaled by a power of ten, with the number of digits to show behind the point, or
one of three values that are not finite. Mantissas up to a machine integer stand in the record itself;
beyond that a big magnitude carries them and the record keeps the sign.
-/

namespace Num

open Decimal Scaled

inductive NumericSpecial where
  | finite
  | nan
  | posInf
  | negInf
deriving DecidableEq

structure Numeric where
  unscaled : Int
  scale : Int
  dscale : Nat
  special : NumericSpecial
  big : Option BigUint
deriving DecidableEq

/-! ## Machine integers -/

def InI128 (z : Int) : Prop := -2 ^ 127 ≤ z ∧ z < 2 ^ 127

instance (z : Int) : Decidable (InI128 z) := inferInstanceAs (Decidable (_ ∧ _))

def InI32 (z : Int) : Prop := -2 ^ 31 ≤ z ∧ z < 2 ^ 31

instance (z : Int) : Decidable (InI32 z) := inferInstanceAs (Decidable (_ ∧ _))

def checkedI128 (z : Int) : Option Int := if InI128 z then some z else none

theorem checkedI128_eq_some {z w : Int} : checkedI128 z = some w ↔ InI128 z ∧ z = w := by
  unfold checkedI128
  split
  · rename_i h
    simp [h]
  · rename_i h
    simp [h]

theorem checkedI128_eq_none {z : Int} : checkedI128 z = none ↔ ¬InI128 z := by
  unfold checkedI128
  split
  · rename_i h
    simp [h]
  · rename_i h
    simp [h]

/-- A power of ten as a machine integer. -/
def checkedPow10 (k : Nat) : Option Int := checkedI128 (10 ^ k)

/-- A difference of two scales, read as unsigned. -/
def asU32 (z : Int) : Nat := (z % 2 ^ 32).toNat

theorem asU32_of_lt {z : Int} (h : 0 ≤ z) (hlt : z < 2 ^ 32) : asU32 z = z.toNat := by
  rw [asU32, Int.emod_eq_of_lt h hlt]

/-! ## Trailing zeros -/

@[grind =]
def stripZeros : Int → Nat → Int × Nat
  | u, 0 => (u, 0)
  | u, s + 1 => if u % 10 = 0 then stripZeros (u / 10) s else (u, s + 1)

theorem stripZeros_spec (u : Int) (s : Nat) :
    (stripZeros u s).2 ≤ s ∧ u = (stripZeros u s).1 * 10 ^ (s - (stripZeros u s).2) ∧
      (0 < (stripZeros u s).2 → ¬10 ∣ (stripZeros u s).1) := by
  induction s generalizing u with
  | zero => exact ⟨Nat.le_refl 0, by simp [stripZeros], fun h => absurd h (Nat.lt_irrefl 0)⟩
  | succ s ih =>
      unfold stripZeros
      split
      · rename_i h
        obtain ⟨hle, heq, hndvd⟩ := ih (u / 10)
        have hdvd : u = 10 * (u / 10) := by omega
        refine ⟨by omega, ?_, hndvd⟩
        rw [show s + 1 - (stripZeros (u / 10) s).2 = s - (stripZeros (u / 10) s).2 + 1 by omega, pow_succ,
          ← mul_assoc, ← heq]
        omega
      · rename_i h
        refine ⟨Nat.le_refl _, by simp, fun _ hdvd => h ?_⟩
        exact Int.emod_eq_zero_of_dvd hdvd

theorem natAbs_stripZeros_le (u : Int) (s : Nat) : (stripZeros u s).1.natAbs ≤ u.natAbs := by
  obtain ⟨-, heq, -⟩ := stripZeros_spec u s
  have hpow : 0 < 10 ^ (s - (stripZeros u s).2) := Nat.pow_pos (by decide)
  have habs : u.natAbs = (stripZeros u s).1.natAbs * 10 ^ (s - (stripZeros u s).2) := by
    conv_lhs => rw [heq]
    rw [Int.natAbs_mul, Int.natAbs_pow]
    rfl
  rw [habs]
  exact Nat.le_mul_of_pos_right _ hpow

/-- The same for a big magnitude. -/
def stripBig : BigUint → Nat → BigUint × Nat
  | m, 0 => (m, 0)
  | m, s + 1 => if (m.divRemSmall 10).2 = 0 then stripBig (m.divRemSmall 10).1 s else (m, s + 1)

theorem stripBig_eq (m : BigUint) (s : Nat) :
    ((stripBig m s).1.toNat : Int) = (stripZeros m.toNat s).1 ∧ (stripBig m s).2 = (stripZeros m.toNat s).2 := by
  induction s generalizing m with
  | zero => exact ⟨rfl, rfl⟩
  | succ s ih =>
      have hq := m.toNat_divRemSmall (by decide : 0 < 10)
      have hr := m.snd_divRemSmall (by decide : 0 < 10)
      unfold stripBig stripZeros
      by_cases h : m.toNat % 10 = 0
      · rw [if_pos (by rw [hr, h]), if_pos (by omega)]
        have hrest := ih (m.divRemSmall 10).1
        rw [hq] at hrest
        have hcast : ((m.toNat / 10 : Nat) : Int) = (m.toNat : Int) / 10 := by omega
        rwa [hcast] at hrest
      · rw [if_neg (by rw [hr]; exact h), if_neg (by omega)]
        exact ⟨rfl, rfl⟩

namespace Numeric

/-! ## Construction -/

def zero : Numeric := ⟨0, 0, 0, .finite, none⟩
def nan : Numeric := ⟨0, 0, 0, .nan, none⟩
def infinity : Numeric := ⟨0, 0, 0, .posInf, none⟩
def negInfinity : Numeric := ⟨0, 0, 0, .negInf, none⟩

/-- Normalize; the display scale is the one before. -/
def new (unscaled scale : Int) : Numeric :=
  if unscaled = 0 then ⟨0, 0, scale.toNat, .finite, none⟩
  else if scale ≤ 0 then ⟨unscaled, scale, scale.toNat, .finite, none⟩
  else ⟨(stripZeros unscaled scale.toNat).1, (stripZeros unscaled scale.toNat).2, scale.toNat, .finite, none⟩

def withDscale (n : Numeric) (dscale : Int) : Numeric := { n with dscale := dscale.toNat }

/-- The exact magnitude. -/
def mag (n : Numeric) : BigUint :=
  match n.big with
  | some m => m
  | none => BigUint.fromU128 n.unscaled.natAbs

def isZero (n : Numeric) : Bool := n.special = .finite ∧ n.unscaled = 0

def maxIntDigits : Int := 131072

/-- A magnitude without trailing zeros as a numeric; none past the limit of the format. -/
def ofStripped (neg : Bool) (mag : BigUint) (scale dscale : Int) : Option Numeric :=
  if (mag.decimalDigits : Int) - scale > maxIntDigits then none
  else
    match mag.toI128 with
    | some u => some ((new (if neg then -(u : Int) else u) scale).withDscale dscale)
    | none => some ⟨if neg then -1 else 1, scale, dscale.toNat, .finite, some mag⟩

def fromBig (neg : Bool) (mag : BigUint) (scale dscale : Int) : Option Numeric :=
  if mag.isZero then some (zero.withDscale dscale)
  else if scale ≤ 0 then ofStripped neg mag scale dscale
  else ofStripped neg (stripBig mag scale.toNat).1 (stripBig mag scale.toNat).2 dscale

/-! ## Denotation -/

/-- The signed mantissa in either form. -/
def coef (n : Numeric) : Int :=
  match n.big with
  | some m => n.unscaled * m.toNat
  | none => n.unscaled

def value (n : Numeric) : ℚ := scaled n.coef n.scale

/-- A linear order with what the values that are not finite add to it, below and above. -/
abbrev Extended (α : Type) := WithBot (WithTop (WithTop α))

/-- `-Infinity`, the finite values, `Infinity` and `NaN`, in this order. -/
def extend {α : Type} (x : α) : NumericSpecial → Extended α
  | .nan => ((⊤ : WithTop (WithTop α)) : Extended α)
  | .posInf => (((⊤ : WithTop α) : WithTop (WithTop α)) : Extended α)
  | .negInf => ⊥
  | .finite => (((x : WithTop α) : WithTop (WithTop α)) : Extended α)

def denote (n : Numeric) : Extended ℚ := extend n.value n.special

/-! ## Well-formed numerics -/

/-- What every constructor keeps: the ranges of the machine integers, a big magnitude only beyond them,
and no trailing zeros behind the point. -/
structure Wf (n : Numeric) : Prop where
  unscaled_range : InI128 n.unscaled
  scale_range : InI32 n.scale
  special_zero : n.special ≠ .finite → n.unscaled = 0 ∧ n.scale = 0 ∧ n.big = none
  big_sign : ∀ m, n.big = some m → n.unscaled = 1 ∨ n.unscaled = -1
  big_large : ∀ m, n.big = some m → BigUint.i128Max < m.toNat
  big_digits : ∀ m, n.big = some m → (numDigits m.toNat : Int) - n.scale ≤ maxIntDigits
  zero_scale : n.unscaled = 0 → n.scale = 0
  stripped : 0 < n.scale → ¬10 ∣ n.coef
  shown : n.scale ≤ n.dscale

/-- The largest scale the parser admits; no operation makes a larger one. -/
def maxScale : Int := 200000

/-- A numeric as the code makes them. -/
structure Valid (n : Numeric) : Prop where
  wf : n.Wf
  scale_le : n.scale ≤ maxScale

theorem coef_inline {n : Numeric} (h : n.big = none) : n.coef = n.unscaled := by
  rw [coef, h]

theorem coef_big {n : Numeric} {m : BigUint} (h : n.big = some m) : n.coef = n.unscaled * m.toNat := by
  rw [coef, h]

theorem Wf.toNat_pos {n : Numeric} (h : n.Wf) {m : BigUint} (hm : n.big = some m) : 0 < m.toNat :=
  Nat.lt_of_le_of_lt (Nat.zero_le _) (h.big_large m hm)

theorem Wf.toNat_mag {n : Numeric} (h : n.Wf) : n.mag.toNat = n.coef.natAbs := by
  cases hb : n.big with
  | none => rw [mag, hb, coef_inline hb, BigUint.toNat_fromU128]
  | some m =>
      have hsign := h.big_sign m hb
      rw [mag, hb, coef_big hb, Int.natAbs_mul, Int.natAbs_natCast]
      rcases hsign with hs | hs
      · rw [hs]
        exact (Nat.one_mul _).symm
      · rw [hs]
        exact (Nat.one_mul _).symm

theorem Wf.coef_eq_zero {n : Numeric} (h : n.Wf) : n.coef = 0 ↔ n.unscaled = 0 := by
  cases hb : n.big with
  | none => rw [coef_inline hb]
  | some m =>
      have hpos := h.toNat_pos hb
      rw [coef_big hb]
      rcases h.big_sign m hb with hs | hs
      · rw [hs]
        omega
      · rw [hs]
        omega

theorem Wf.coef_neg {n : Numeric} (h : n.Wf) : n.coef < 0 ↔ n.unscaled < 0 := by
  cases hb : n.big with
  | none => rw [coef_inline hb]
  | some m =>
      have hpos := h.toNat_pos hb
      rw [coef_big hb]
      rcases h.big_sign m hb with hs | hs
      · rw [hs]
        omega
      · rw [hs]
        omega

theorem Wf.coef_pos {n : Numeric} (h : n.Wf) : 0 < n.coef ↔ 0 < n.unscaled := by
  have hzero := h.coef_eq_zero
  have hneg := h.coef_neg
  omega

/-- The coefficient of a well-formed numeric is that of its sign and its magnitude. -/
theorem Wf.coef_signed {n : Numeric} (h : n.Wf) :
    n.coef = if n.unscaled < 0 then -(n.mag.toNat : Int) else n.mag.toNat := by
  have hneg := h.coef_neg
  rw [h.toNat_mag]
  split
  · omega
  · omega

/-! ## What the constructors build -/

theorem special_new (u s : Int) : (new u s).special = .finite := by
  unfold new
  split
  · rfl
  · split
    · rfl
    · rfl

theorem big_new (u s : Int) : (new u s).big = none := by
  unfold new
  split
  · rfl
  · split
    · rfl
    · rfl

theorem dscale_new (u s : Int) : (new u s).dscale = s.toNat := by
  unfold new
  split
  · rfl
  · split
    · rfl
    · rfl

theorem value_new (u s : Int) : (new u s).value = scaled u s := by
  rw [value, coef_inline (big_new u s)]
  unfold new
  split
  · rename_i h
    rw [h, scaled_zero, scaled_zero]
  · split
    · rfl
    · obtain ⟨hle, heq, -⟩ := stripZeros_spec u s.toNat
      have hpad := scaled_mul_pow (stripZeros u s.toNat).1 (stripZeros u s.toNat).2
        (s.toNat - (stripZeros u s.toNat).2)
      rw [← heq, show (((stripZeros u s.toNat).2 : Int) + ((s.toNat - (stripZeros u s.toNat).2 : Nat) : Int))
        = s by omega] at hpad
      exact hpad.symm

theorem wf_new {u s : Int} (hu : InI128 u) (hs : InI32 s) : (new u s).Wf := by
  have hfinite := special_new u s
  have hbig := big_new u s
  have hrange : InI128 (new u s).unscaled ∧ InI32 (new u s).scale ∧
      ((new u s).unscaled = 0 → (new u s).scale = 0) ∧ (0 < (new u s).scale → ¬10 ∣ (new u s).unscaled) ∧
      (new u s).scale ≤ s.toNat := by
    unfold new
    split
    · exact ⟨(by decide : InI128 0), (by decide : InI32 0), fun _ => rfl,
        fun h => absurd h (Int.lt_irrefl 0), by simp⟩
    · rename_i hne
      split
      · rename_i hle
        dsimp only
        exact ⟨hu, hs, fun h => absurd h hne, fun h => absurd h (by omega), by omega⟩
      · obtain ⟨hle, heq, hndvd⟩ := stripZeros_spec u s.toNat
        have habs := natAbs_stripZeros_le u s.toNat
        have hsign : 0 ≤ (stripZeros u s.toNat).1 → 0 ≤ u := by
          intro h
          rw [heq]
          positivity
        dsimp only
        unfold InI128 InI32 at *
        refine ⟨by omega, by omega, fun h => ?_, fun h => hndvd (by omega), by omega⟩
        rw [h, zero_mul] at heq
        exact absurd heq hne
  obtain ⟨hu', hs', hzero, hstrip, hshown⟩ := hrange
  exact {
    unscaled_range := hu'
    scale_range := hs'
    special_zero := fun h => absurd hfinite h
    big_sign := fun m h => absurd (hbig.symm.trans h) (Option.some_ne_none m).symm
    big_large := fun m h => absurd (hbig.symm.trans h) (Option.some_ne_none m).symm
    big_digits := fun m h => absurd (hbig.symm.trans h) (Option.some_ne_none m).symm
    zero_scale := hzero
    stripped := by rwa [coef_inline hbig]
    shown := by rwa [dscale_new] }

theorem wf_zero : zero.Wf := wf_new (u := 0) (s := 0) (by decide) (by decide)

@[simp] theorem value_withDscale (n : Numeric) (d : Int) : (n.withDscale d).value = n.value := rfl
@[simp] theorem coef_withDscale (n : Numeric) (d : Int) : (n.withDscale d).coef = n.coef := rfl
@[simp] theorem special_withDscale (n : Numeric) (d : Int) : (n.withDscale d).special = n.special := rfl
@[simp] theorem big_withDscale (n : Numeric) (d : Int) : (n.withDscale d).big = n.big := rfl
@[simp] theorem scale_withDscale (n : Numeric) (d : Int) : (n.withDscale d).scale = n.scale := rfl
@[simp] theorem unscaled_withDscale (n : Numeric) (d : Int) : (n.withDscale d).unscaled = n.unscaled := rfl
@[simp] theorem dscale_withDscale (n : Numeric) (d : Int) : (n.withDscale d).dscale = d.toNat := rfl

theorem Wf.withDscale {n : Numeric} (h : n.Wf) {d : Int} (hd : n.scale ≤ d.toNat) : (n.withDscale d).Wf := {
  unscaled_range := h.unscaled_range
  scale_range := h.scale_range
  special_zero := h.special_zero
  big_sign := h.big_sign
  big_large := h.big_large
  big_digits := h.big_digits
  zero_scale := h.zero_scale
  stripped := h.stripped
  shown := hd }

/-- A sign and a magnitude as an integer. -/
def signed (neg : Bool) (m : Nat) : Int := if neg then -(m : Int) else m

theorem natAbs_signed (neg : Bool) (m : Nat) : (signed neg m).natAbs = m := by
  unfold signed
  split
  · rw [Int.natAbs_neg, Int.natAbs_natCast]
  · rw [Int.natAbs_natCast]

theorem signed_zero (neg : Bool) : signed neg 0 = 0 := by
  unfold signed
  split
  · rfl
  · rfl

theorem signed_mul (neg : Bool) (m k : Nat) : signed neg (m * k) = signed neg m * k := by
  unfold signed
  split
  · push_cast
    ring
  · push_cast
    rfl

/-- A numeric with the given value and display scale, well-formed. -/
structure Builds (n : Numeric) (v : ℚ) (dscale : Nat) : Prop where
  finite : n.special = .finite
  value_eq : n.value = v
  dscale_eq : n.dscale = dscale
  wf : n.Wf

theorem ofStripped_some {neg : Bool} {m : BigUint} {scale dscale : Int} {n : Numeric} (hm : 0 < m.toNat)
    (hs : InI32 scale) (hd : scale ≤ dscale.toNat) (hstrip : 0 < scale → ¬10 ∣ m.toNat)
    (h : ofStripped neg m scale dscale = some n) :
    n.Builds (scaled (signed neg m.toNat) scale) dscale.toNat := by
  unfold ofStripped at h
  rw [BigUint.decimalDigits_eq] at h
  split at h
  · cases h
  · rename_i hdigits
    cases hto : m.toI128 with
    | some u =>
        rw [hto] at h
        cases h
        rw [BigUint.toI128_eq, BigUint.checked] at hto
        split at hto
        · rename_i hle
          cases hto
          have hu : InI128 (signed neg m.toNat) := by
            have habs := natAbs_signed neg m.toNat
            unfold InI128
            unfold BigUint.i128Max at hle
            omega
          have hwf := wf_new hu hs
          refine ⟨special_new _ _, value_new _ _, rfl, hwf.withDscale ?_⟩
          have hshown := hwf.shown
          rw [dscale_new] at hshown
          change (new (signed neg m.toNat) scale).scale ≤ _
          omega
        · cases hto
    | none =>
        rw [hto] at h
        cases h
        rw [BigUint.toI128_eq, BigUint.checked] at hto
        have hlarge : BigUint.i128Max < m.toNat := by
          split at hto
          · cases hto
          · omega
        have hcoef : (if neg then -1 else 1) * (m.toNat : Int) = signed neg m.toNat := by
          unfold signed
          split
          · ring
          · ring
        refine ⟨rfl, ?_, rfl, ?_⟩
        · change scaled ((if neg then -1 else 1) * (m.toNat : Int)) scale = _
          rw [hcoef]
        · exact {
            unscaled_range := by
              dsimp only
              split
              · decide
              · decide
            scale_range := hs
            special_zero := fun h => absurd rfl h
            big_sign := by
              intro _ _
              dsimp only
              split
              · exact Or.inr rfl
              · exact Or.inl rfl
            big_large := by
              intro k hk
              cases hk
              exact hlarge
            big_digits := by
              intro k hk
              cases hk
              exact Int.not_lt.1 hdigits
            zero_scale := by
              dsimp only
              split
              · intro h
                cases h
              · intro h
                cases h
            stripped := by
              intro hpos hdvd
              change (10 : Int) ∣ (if neg then -1 else 1) * (m.toNat : Int) at hdvd
              rw [hcoef] at hdvd
              apply hstrip hpos
              have habs := Int.natAbs_dvd_natAbs.2 hdvd
              rwa [natAbs_signed] at habs
            shown := hd }

theorem ofStripped_eq_none {neg : Bool} {m : BigUint} {scale dscale : Int} :
    ofStripped neg m scale dscale = none ↔ maxIntDigits < (numDigits m.toNat : Int) - scale := by
  unfold ofStripped
  rw [BigUint.decimalDigits_eq]
  split
  · rename_i h
    simp only [true_iff]
    omega
  · rename_i h
    cases m.toI128 with
    | some u => simpa using h
    | none => simpa using h

/-- Stripping keeps the value and the digits before the point. -/
theorem stripBig_spec {m : BigUint} (hm : 0 < m.toNat) (s : Nat) :
    0 < (stripBig m s).1.toNat ∧ (stripBig m s).2 ≤ s ∧
      m.toNat = (stripBig m s).1.toNat * 10 ^ (s - (stripBig m s).2) ∧
      (0 < (stripBig m s).2 → ¬10 ∣ (stripBig m s).1.toNat) := by
  obtain ⟨h₁, h₂⟩ := stripBig_eq m s
  obtain ⟨hle, heq, hndvd⟩ := stripZeros_spec m.toNat s
  rw [← h₁, ← h₂] at heq
  rw [← h₂] at hle
  have hnat : m.toNat = (stripBig m s).1.toNat * 10 ^ (s - (stripBig m s).2) := by exact_mod_cast heq
  refine ⟨?_, hle, hnat, fun hpos hdvd => ?_⟩
  · by_contra hzero
    rw [Nat.eq_zero_of_not_pos hzero, Nat.zero_mul] at hnat
    omega
  · rw [← h₁, ← h₂] at hndvd
    exact hndvd hpos (Int.natCast_dvd_natCast.2 hdvd)

theorem fromBig_some {neg : Bool} {m : BigUint} {scale dscale : Int} {n : Numeric}
    (hs : InI32 scale) (hd : scale ≤ dscale.toNat) (h : fromBig neg m scale dscale = some n) :
    n.Builds (scaled (signed neg m.toNat) scale) dscale.toNat := by
  unfold fromBig at h
  split at h
  · rename_i hz
    cases h
    rw [BigUint.isZero_iff.1 hz, signed_zero, scaled_zero]
    refine ⟨rfl, ?_, rfl, wf_zero.withDscale ?_⟩
    · rw [value_withDscale]
      exact scaled_zero 0
    · exact Int.natCast_nonneg _
  · rename_i hz
    have hm : 0 < m.toNat := BigUint.isZero_eq_false.1 (by simpa using hz)
    split at h
    · rename_i hle
      exact ofStripped_some hm hs hd (fun hpos => absurd hpos (by omega)) h
    · rename_i hgt
      obtain ⟨hpos, hle, heq, hndvd⟩ := stripBig_spec hm scale.toNat
      have hb := ofStripped_some hpos (by unfold InI32 at *; omega) (by omega) (fun hp => hndvd (by omega)) h
      have hpad := scaled_mul_pow (signed neg (stripBig m scale.toNat).1.toNat) (stripBig m scale.toNat).2
        (scale.toNat - (stripBig m scale.toNat).2)
      have hcast : signed neg m.toNat = signed neg (stripBig m scale.toNat).1.toNat
          * 10 ^ (scale.toNat - (stripBig m scale.toNat).2) := by
        conv_lhs => rw [heq]
        rw [signed_mul]
        push_cast
        rfl
      rw [← hcast, show (((stripBig m scale.toNat).2 : Int)
        + ((scale.toNat - (stripBig m scale.toNat).2 : Nat) : Int)) = scale by omega] at hpad
      rw [hpad]
      exact hb

theorem fromBig_eq_none {neg : Bool} {m : BigUint} {scale dscale : Int} :
    fromBig neg m scale dscale = none
      ↔ 0 < m.toNat ∧ maxIntDigits < (numDigits m.toNat : Int) - scale := by
  unfold fromBig
  split
  · rename_i hz
    rw [BigUint.isZero_iff] at hz
    simp [hz]
  · rename_i hz
    have hm : 0 < m.toNat := BigUint.isZero_eq_false.1 (by simpa using hz)
    split
    · rw [ofStripped_eq_none]
      simp [hm]
    · rename_i hgt
      obtain ⟨hpos, hle, heq, -⟩ := stripBig_spec hm scale.toNat
      have hdig := numDigits_mul_pow hpos (scale.toNat - (stripBig m scale.toNat).2)
      rw [← heq] at hdig
      rw [ofStripped_eq_none]
      constructor
      · intro h
        exact ⟨hm, by omega⟩
      · rintro ⟨-, h⟩
        omega

end Numeric

end Num
