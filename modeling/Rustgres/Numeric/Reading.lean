-- SUMMARY: What the number parser makes of the digits and the exponent of a literal.
import Rustgres.Numeric.Parse

/-!
# Reading Digits

Whatever the literal, its digits and its exponent decide the number: the machine integer and the big
magnitude give the same value, and the limits on digits and scale decide whether there is one.
-/

namespace Num

open Decimal Scaled

namespace Numeric

/-! ## Machine integers -/

theorem machineInt_eq {s : Text} {v : Nat} (hv : v ≤ BigUint.i128Max) :
    machineInt v s
      = if Nat.ofDigitChars 10 s v ≤ BigUint.i128Max then some (Nat.ofDigitChars 10 s v) else none := by
  induction s generalizing v with
  | nil => rw [machineInt, Nat.ofDigitChars_nil, if_pos hv]
  | cons c s ih =>
      rw [machineInt, Nat.ofDigitChars_cons, Nat.mul_comm 10 v]
      by_cases hover : v * 10 + (c.toNat - '0'.toNat) > BigUint.i128Max
      · rw [if_pos hover, if_neg]
        rw [Nat.ofDigitChars_eq_ofDigitChars_zero]
        have hpow : 0 < 10 ^ s.length := Nat.pow_pos (by decide)
        have hle := Nat.le_mul_of_pos_left (v * 10 + (c.toNat - '0'.toNat)) hpow
        omega
      · rw [if_neg hover, ih (Nat.le_of_not_lt hover)]

/-! ## Numbers read -/

/-- A number of the given value and scale, as the parser makes it. -/
structure ReadAs (n : Numeric) (v : ℚ) (scale : Int) : Prop where
  builds : n.Builds v scale.toNat
  not_lowest : n.big = none → n.unscaled.natAbs ≤ BigUint.i128Max
  scale_nonneg : 0 ≤ scale → 0 ≤ n.scale

theorem natAbs_new_le (u s : Int) : (new u s).unscaled.natAbs ≤ u.natAbs := by
  unfold new
  split
  · exact Nat.zero_le _
  · split
    · exact Nat.le_refl _
    · exact natAbs_stripZeros_le u s.toNat

theorem scale_new_nonneg (u : Int) {s : Int} (h : 0 ≤ s) : 0 ≤ (new u s).scale := by
  unfold new
  split
  · exact Int.le_refl 0
  · split
    · exact h
    · exact Int.natCast_nonneg _

theorem readAs_new {u s : Int} (hu : u.natAbs ≤ BigUint.i128Max) (hs : InI32 s) :
    (new u s).ReadAs (scaled u s) s := by
  have hrange : InI128 u := by
    unfold BigUint.i128Max at hu
    unfold InI128
    omega
  exact ⟨⟨special_new u s, value_new u s, dscale_new u s, wf_new hrange hs⟩,
    fun _ => Nat.le_trans (natAbs_new_le u s) hu, fun h => scale_new_nonneg u h⟩

theorem ofStripped_small {neg : Bool} {m : BigUint} {scale dscale : Int} {n : Numeric}
    (h : ofStripped neg m scale dscale = some n) (hs : 0 ≤ scale) :
    (n.big = none → n.unscaled.natAbs ≤ BigUint.i128Max) ∧ 0 ≤ n.scale := by
  unfold ofStripped at h
  split at h
  · cases h
  · cases hto : m.toI128 with
    | some u =>
        rw [hto] at h
        cases h
        rw [BigUint.toI128_eq, BigUint.checked] at hto
        split at hto
        · rename_i hle
          cases hto
          refine ⟨fun _ => ?_, scale_new_nonneg _ hs⟩
          have habs := natAbs_new_le (signed neg m.toNat) scale
          rw [natAbs_signed] at habs
          exact Nat.le_trans habs hle
        · cases hto
    | none =>
        rw [hto] at h
        cases h
        exact ⟨fun h => (Option.some_ne_none m h).elim, hs⟩

theorem fromBig_small {neg : Bool} {m : BigUint} {scale dscale : Int} {n : Numeric}
    (h : fromBig neg m scale dscale = some n) (hs : 0 ≤ scale) :
    (n.big = none → n.unscaled.natAbs ≤ BigUint.i128Max) ∧ 0 ≤ n.scale := by
  unfold fromBig at h
  split at h
  · cases h
    exact ⟨fun _ => Nat.zero_le _, Int.le_refl 0⟩
  · split at h
    · exact ofStripped_small h hs
    · exact ofStripped_small h (Int.natCast_nonneg _)

/-! ## The limits -/

/-- What the digits of a literal denote. -/
def digitsValue (neg : Bool) (int frac : Text) (exp : Int) : ℚ :=
  scaled (signed neg (Nat.ofDigitChars 10 (int ++ frac) 0)) (frac.length - exp)

/-- The digits before the point, with the exponent, and the scale are within the format, and the digits of a
magnitude beyond the machine integers are not too many in all. -/
def Fits (int frac : Text) (exp : Int) : Prop :=
  (int.length : Int) + exp ≤ maxIntDigits ∧ ((frac.length : Int) - exp).natAbs ≤ 200000 ∧
    (Nat.ofDigitChars 10 (int ++ frac) 0 ≤ BigUint.i128Max ∨ int.length + frac.length ≤ 200000)

instance (int frac : Text) (exp : Int) : Decidable (Fits int frac exp) := by
  unfold Fits
  infer_instance

/-- The limits on the wrapped scale are those on the scale itself. -/
theorem limits_iff {i f : Nat} {exp : Int} (he : InI32 exp) :
    ¬(((i + f : Nat) : Int) - wrap32 (f - exp) > maxIntDigits ∨ wrap32 (f - exp) > 200000
        ∨ wrap32 (f - exp) < -200000)
      ↔ ((i : Int) + exp ≤ maxIntDigits ∧ ((f : Int) - exp).natAbs ≤ 200000) := by
  have hcong := Int.bmod_emod (x := (f : Int) - exp) (m := 2 ^ 32)
  have hlo := Int.le_bmod (x := (f : Int) - exp) (m := 2 ^ 32) (by decide)
  have hhi := Int.bmod_lt (x := (f : Int) - exp) (m := 2 ^ 32) (by decide)
  unfold wrap32 maxIntDigits
  unfold InI32 at he
  generalize Int.bmod ((f : Int) - exp) (2 ^ 32) = w at hcong hlo hhi ⊢
  omega

theorem numDigits_ofDigitChars_le {s : Text} (h : ∀ c ∈ s, c.isDigit) :
    numDigits (Nat.ofDigitChars 10 s 0) ≤ s.length :=
  numDigits_le_iff.2 (BigUint.ofDigitChars_lt h)

theorem ofDigits_spec {neg : Bool} {digits : Text} {scale : Int} (h : ∀ c ∈ digits, c.isDigit) :
    ∃ d, BigDec.ofDigits neg digits scale = .ok d ∧
      d.coef = signed neg (Nat.ofDigitChars 10 digits 0) * 10 ^ (-scale).toNat ∧ d.scale = max scale 0 := by
  have hmag := BigUint.toNat_fromDecimalStr digits h
  unfold BigDec.ofDigits
  rw [dif_pos h]
  dsimp only
  by_cases hs : scale < 0
  · rw [if_pos hs]
    refine ⟨_, rfl, ?_, ?_⟩
    · rw [BigDec.coef_normalize, BigDec.coef]
      dsimp only
      rw [BigUint.toNat_mulPow10Assign, hmag, signed_mul]
      push_cast
      rfl
    · rw [BigDec.scale_normalize]
      exact (max_eq_right hs.le).symm
  · rw [if_neg hs]
    refine ⟨_, rfl, ?_, ?_⟩
    · rw [BigDec.coef_normalize, BigDec.coef, show (-scale).toNat = 0 by omega, pow_zero, mul_one]
      dsimp only
      rw [hmag]
    · rw [BigDec.scale_normalize]
      exact (max_eq_left (Int.not_lt.1 hs)).symm

/-- A big magnitude within the limits is a number of the value of its digits. -/
theorem ofDigits_read {neg : Bool} {int frac : Text} {exp : Int} (h : ∀ c ∈ int ++ frac, c.isDigit)
    (hfits : Fits int frac exp) :
    ∃ d n, BigDec.ofDigits neg (int ++ frac) (frac.length - exp) = .ok d ∧
      fromBigdec d (max (frac.length - exp) 0) = some n ∧
      n.ReadAs (digitsValue neg int frac exp) (frac.length - exp) := by
  obtain ⟨d, hd, hcoef, hscale⟩ := @ofDigits_spec neg (int ++ frac) (frac.length - exp) h
  obtain ⟨hint, habs, -⟩ := hfits
  have hdigits := numDigits_ofDigitChars_le h
  have hpad (x : Int) : (-x).toNat = (max x 0 - x).toNat := by omega
  have hvalue : d.value = digitsValue neg int frac exp := by
    rw [BigDec.value, hcoef, hscale, digitsValue, hpad, scaled_pad (le_max_left _ _)]
  rw [List.length_append] at hdigits
  have hcount : d.coef ≠ 0 → (numDigits d.coef.natAbs : Int) - d.scale ≤ maxIntDigits := by
    intro hne
    have hsigned := natAbs_signed neg (Nat.ofDigitChars 10 (int ++ frac) 0)
    rw [hcoef] at hne
    have hpos : 0 < (signed neg (Nat.ofDigitChars 10 (int ++ frac) 0)).natAbs :=
      Int.natAbs_pos.2 (left_ne_zero_of_mul hne)
    rw [hcoef, natAbs_mul_pow, numDigits_mul_pow hpos, hsigned, hscale]
    unfold maxIntDigits at hint ⊢
    omega
  have hsmall : InI32 d.scale ∧ d.scale ≤ ((max ((frac.length : Int) - exp) 0).toNat : Int) := by
    rw [hscale]
    unfold InI32
    omega
  cases hr : fromBigdec d (max (frac.length - exp) 0) with
  | none =>
      obtain ⟨hne, hlong⟩ := fromBigdec_eq_none.1 hr
      exact absurd (hcount hne) (Int.not_le.2 hlong)
  | some n =>
      refine ⟨d, n, hd, hr, ?_, ?_, ?_⟩
      · have hbuilds := fromBigdec_some hsmall.1 hsmall.2 hr
        rw [hvalue, show (max ((frac.length : Int) - exp) 0).toNat = ((frac.length : Int) - exp).toNat by omega]
          at hbuilds
        exact hbuilds
      · exact (fromBig_small hr (by rw [hscale]; omega)).1
      · exact fun _ => (fromBig_small hr (by rw [hscale]; omega)).2

/-- What the big parser makes of the same literal. -/
def BigReading (s : Text) (neg : Bool) (int frac : Text) (exp : Int) : Prop :=
  BigDec.parseDecimal s
    = if int.length + frac.length > BigDec.maxDigits ∨ (((frac.length : Int) - exp).natAbs : Int) > BigDec.maxScale
      then .error .overflow else BigDec.ofDigits neg (int ++ frac) (frac.length - exp)

/-- The digits and the exponent decide the number. -/
theorem assemble_spec {s int frac : Text} {neg : Bool} {exp : Int} (hdigits : ∀ c ∈ int ++ frac, c.isDigit)
    (he : InI32 exp) (hbig : BigReading s neg int frac exp) :
    if Fits int frac exp then
      ∃ n, assemble s neg int frac exp = .ok n ∧ n.ReadAs (digitsValue neg int frac exp) (frac.length - exp)
    else assemble s neg int frac exp = .error .overflow := by
  have hlimits := @limits_iff int.length frac.length exp he
  unfold assemble
  dsimp only
  rw [machineInt_eq (Nat.zero_le _)]
  by_cases hout : ((int.length + frac.length : Nat) : Int) - wrap32 (frac.length - exp) > maxIntDigits
      ∨ wrap32 (frac.length - exp) > 200000 ∨ wrap32 (frac.length - exp) < -200000
  · rw [if_pos hout, if_neg]
    rintro ⟨hint, habs, -⟩
    exact hlimits.2 ⟨hint, habs⟩ hout
  · obtain ⟨hint, habs⟩ := hlimits.1 hout
    have hwrap : wrap32 (frac.length - exp) = frac.length - exp :=
      wrap32_of_range (by unfold InI32; omega)
    rw [if_neg hout, hwrap]
    by_cases hmachine : Nat.ofDigitChars 10 (int ++ frac) 0 ≤ BigUint.i128Max
    · rw [if_pos hmachine, if_pos ⟨hint, habs, Or.inl hmachine⟩]
      exact ⟨_, rfl, readAs_new (Nat.le_trans (natAbs_signed neg _).le hmachine) (by unfold InI32; omega)⟩
    · rw [if_neg hmachine, hbig]
      by_cases hsize : int.length + frac.length ≤ 200000
      · have hfits : Fits int frac exp := ⟨hint, habs, Or.inr hsize⟩
        obtain ⟨d, n, hd, hn, hread⟩ := @ofDigits_read neg int frac exp hdigits hfits
        rw [if_pos hfits, if_neg (by unfold BigDec.maxDigits BigDec.maxScale; omega), hd]
        dsimp only
        rw [hn]
        exact ⟨n, rfl, hread⟩
      · rw [if_neg, if_pos (by unfold BigDec.maxDigits; omega)]
        rintro ⟨-, -, h | h⟩
        · exact hmachine h
        · exact hsize h

end Numeric

end Num
