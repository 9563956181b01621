-- SUMMARY: Equality and hash keys of numerics, and where they disagree with the comparison.
import Rustgres.Numeric.Order

/-!
# Equality and Hash Keys

Equality compares representations, and so does the hash key, with negative scales read as zero; the
comparison compares values. The three agree on numerics that normalization has made unique.
-/

namespace Num

open Decimal Scaled

/-- The magnitude in a hash key: big only beyond unsigned machine integers. -/
inductive NumKeyMag where
  | small (v : Nat)
  | big (m : BigUint)
deriving DecidableEq

structure HashKey where
  special : NumericSpecial
  neg : Bool
  mag : NumKeyMag
  scale : Nat
deriving DecidableEq

def stripNat : Nat → Nat → Nat × Nat
  | m, 0 => (m, 0)
  | m, s + 1 => if m % 10 = 0 then stripNat (m / 10) s else (m, s + 1)

theorem stripNat_of_not_dvd {m s : Nat} (h : 0 < s → ¬10 ∣ m) : stripNat m s = (m, s) := by
  cases s with
  | zero => rfl
  | succ s =>
      rw [stripNat, if_neg]
      intro hmod
      exact h (Nat.succ_pos s) (Nat.dvd_of_mod_eq_zero hmod)

theorem stripBig_of_not_dvd {m : BigUint} {s : Nat} (h : 0 < s → ¬10 ∣ m.toNat) : stripBig m s = (m, s) := by
  cases s with
  | zero => rfl
  | succ s =>
      rw [stripBig, if_neg]
      rw [BigUint.snd_divRemSmall m (by decide)]
      intro hmod
      exact h (Nat.succ_pos s) (Nat.dvd_of_mod_eq_zero hmod)

namespace Numeric

/-- The equality of the type: field by field, without the display scale. -/
def eqv (a b : Numeric) : Bool :=
  if a.special ≠ b.special ∨ a.scale ≠ b.scale then false
  else
    match a.big, b.big with
    | none, none => a.unscaled = b.unscaled
    | _, _ => a.unscaled = b.unscaled ∧ a.mag = b.mag

def hashKey (n : Numeric) : HashKey :=
  if n.special ≠ .finite then ⟨n.special, false, .small 0, 0⟩
  else
    let scale := (max n.scale 0).toNat
    if n.big = none then
      ⟨.finite, n.unscaled < 0, .small (stripNat n.unscaled.natAbs scale).1,
        (stripNat n.unscaled.natAbs scale).2⟩
    else
      let stripped := stripBig n.mag scale
      ⟨.finite, n.unscaled < 0,
        match stripped.1.toU128 with
        | some v => .small v
        | none => .big stripped.1,
        stripped.2⟩

/-! ## What they say -/

theorem eqv_iff {a b : Numeric} (ha : a.Wf) (hb : b.Wf) (hfa : a.special = .finite) (hfb : b.special = .finite) :
    a.eqv b = true ↔ a.scale = b.scale ∧ a.coef = b.coef ∧ a.big.isSome = b.big.isSome := by
  unfold eqv
  rw [hfa, hfb]
  by_cases hs : a.scale = b.scale
  · rw [if_neg (by simp [hs])]
    cases hab : a.big with
    | none =>
        cases hbb : b.big with
        | none =>
            rw [coef_inline hab, coef_inline hbb]
            simp [hs]
        | some n =>
            have hlarge := hb.big_large n hbb
            have hsign := hb.big_sign n hbb
            simp only [mag, hab, hbb, Option.isSome_none, Option.isSome_some]
            simp only [Bool.false_eq_true, and_false, iff_false]
            intro heq
            rw [decide_eq_true_eq] at heq
            have hmag := congrArg BigUint.toNat heq.2
            rw [BigUint.toNat_fromU128] at hmag
            unfold BigUint.i128Max at hlarge
            omega
    | some m =>
        have hlarge := ha.big_large m hab
        have hsign := ha.big_sign m hab
        cases hbb : b.big with
        | none =>
            simp only [mag, hab, hbb, Option.isSome_none, Option.isSome_some]
            simp only [Bool.true_eq_false, and_false, iff_false]
            intro heq
            rw [decide_eq_true_eq] at heq
            have hmag := congrArg BigUint.toNat heq.2
            rw [BigUint.toNat_fromU128] at hmag
            unfold BigUint.i128Max at hlarge
            omega
        | some n =>
            have hbsign := hb.big_sign n hbb
            have hnlarge := hb.big_large n hbb
            rw [coef_big hab, coef_big hbb]
            simp only [mag, hab, hbb, decide_eq_true_eq, hs, true_and, Option.isSome_some, and_true]
            rw [← BigUint.toNat_inj]
            constructor
            · rintro ⟨hu, hm⟩
              rw [hu, hm]
            · intro hcoef
              rcases hsign with h | h
              · rcases hbsign with h' | h'
                · rw [h, h'] at hcoef ⊢
                  exact ⟨rfl, by omega⟩
                · rw [h, h'] at hcoef
                  omega
              · rcases hbsign with h' | h'
                · rw [h, h'] at hcoef
                  omega
                · rw [h, h'] at hcoef ⊢
                  exact ⟨rfl, by omega⟩
  · rw [if_pos (by simp [hs])]
    simp [hs]

theorem not_dvd_natAbs {n : Numeric} (h : n.Wf) (hs : 0 < (max n.scale 0).toNat) : ¬10 ∣ n.coef.natAbs := by
  intro hdvd
  apply h.stripped (by omega)
  exact Int.natCast_dvd.2 hdvd

/-- The magnitude of a key says the number. -/
def keyMag (m : Nat) : NumKeyMag := if m ≤ BigUint.u128Max then .small m else .big (BigUint.fromU64 m)

theorem keyMag_inj {m n : Nat} (h : keyMag m = keyMag n) : m = n := by
  unfold keyMag at h
  split at h
  · split at h
    · cases h
      rfl
    · cases h
  · split at h
    · cases h
    · have hbig := congrArg BigUint.toNat (NumKeyMag.big.inj h)
      rwa [BigUint.toNat_fromU64, BigUint.toNat_fromU64] at hbig

theorem hashKey_finite {n : Numeric} (h : n.Wf) (hf : n.special = .finite) :
    n.hashKey = ⟨.finite, n.coef < 0, keyMag n.coef.natAbs, (max n.scale 0).toNat⟩ := by
  unfold hashKey
  rw [if_neg (by simp [hf])]
  have hneg : decide (n.coef < 0) = decide (n.unscaled < 0) := decide_eq_decide.2 h.coef_neg
  have hdvd := not_dvd_natAbs h
  rw [hneg]
  dsimp only
  cases hb : n.big with
  | none =>
      have hrange := h.unscaled_range
      rw [coef_inline hb] at hdvd ⊢
      rw [if_pos rfl, stripNat_of_not_dvd hdvd, keyMag, if_pos]
      unfold InI128 at hrange
      unfold BigUint.u128Max
      omega
  | some m =>
      rw [if_neg (by simp)]
      rw [← h.toNat_mag] at hdvd ⊢
      rw [stripBig_of_not_dvd hdvd, BigUint.toU128_eq, BigUint.checked, keyMag]
      split
      · rename_i v hv
        split at hv
        · rename_i hle
          cases hv
          rw [if_pos hle]
        · cases hv
      · rename_i hv
        split at hv
        · cases hv
        · rename_i hgt
          rw [if_neg hgt, BigUint.fromU64_toNat]

theorem hashKey_eq_iff {a b : Numeric} (ha : a.Wf) (hb : b.Wf) (hfa : a.special = .finite)
    (hfb : b.special = .finite) :
    a.hashKey = b.hashKey ↔ a.coef = b.coef ∧ max a.scale 0 = max b.scale 0 := by
  rw [hashKey_finite ha hfa, hashKey_finite hb hfb]
  constructor
  · intro h
    simp only [HashKey.mk.injEq, true_and, decide_eq_decide] at h
    obtain ⟨hneg, hmag, hscale⟩ := h
    have habs := keyMag_inj hmag
    omega
  · rintro ⟨hcoef, hscale⟩
    rw [hcoef, hscale]

theorem sign_eq_of_value {a b : Numeric} (h : a.value = b.value) : a.coef.sign = b.coef.sign := by
  rcases lt_trichotomy a.coef.sign b.coef.sign with hs | hs | hs
  · exact absurd h (value_lt_of_sign hs).ne
  · exact hs
  · exact absurd h (value_lt_of_sign hs).ne'

theorem digitsBefore_eq_of_value {a b : Numeric} (h : a.value = b.value) (hna : a.coef ≠ 0) (hnb : b.coef ≠ 0) :
    a.digitsBefore = b.digitsBefore := by
  rcases Int.lt_trichotomy a.digitsBefore b.digitsBefore with hd | hd | hd
  · exact absurd (abs_lt_of_digitsBefore hnb hd) (by rw [h]; exact lt_irrefl _)
  · exact hd
  · exact absurd (abs_lt_of_digitsBefore hna hd) (by rw [h]; exact lt_irrefl _)

theorem isSome_eq_false {n : Numeric} (h : n.Wf) (hz : n.coef = 0) : n.big.isSome = false := by
  by_contra hcon
  exact h.coef_ne_zero (Bool.not_eq_false _ ▸ hcon) hz

theorem cmp_eq_iff {a b : Numeric} (ha : a.Wf) (hb : b.Wf) (hfa : a.special = .finite)
    (hfb : b.special = .finite) :
    a.cmp b = .eq ↔ a.value = b.value ∧ a.big.isSome = b.big.isSome := by
  rw [cmp_eq_position ha hb, position, position, hfa, hfb, compare_extend_finite, compare_key,
    Ordering.then_eq_eq, Ordering.then_eq_eq, compare_eq_iff_eq, compare_eq_iff_eq, compare_eq_iff_eq]
  constructor
  · rintro ⟨hsign, hplace, hvalue⟩
    refine ⟨hvalue, ?_⟩
    by_cases hz : a.coef = 0
    · rw [hz, Int.sign_zero] at hsign
      rw [isSome_eq_false ha hz, isSome_eq_false hb (Int.sign_eq_zero_iff_zero.1 hsign.symm)]
    · have hne : b.coef.sign ≠ 0 := by
        rw [← hsign]
        exact fun h => hz (Int.sign_eq_zero_iff_zero.1 h)
      rw [hsign] at hplace
      have hcancel := Int.eq_of_mul_eq_mul_left hne hplace
      unfold place at hcancel
      cases hab : a.big.isSome with
      | false =>
          cases hbb : b.big.isSome with
          | false => rfl
          | true =>
              simp only [hab, hbb, if_true, Bool.false_eq_true, if_false] at hcancel
              omega
      | true =>
          cases hbb : b.big.isSome with
          | false =>
              simp only [hab, hbb, if_true, Bool.false_eq_true, if_false] at hcancel
              omega
          | true => rfl
  · rintro ⟨hvalue, hkind⟩
    have hsign := sign_eq_of_value hvalue
    refine ⟨hsign, ?_, hvalue⟩
    by_cases hz : a.coef = 0
    · rw [← hsign, hz, Int.sign_zero, zero_mul, zero_mul]
    · have hnb : b.coef ≠ 0 := fun h => by
        rw [h, Int.sign_zero] at hsign
        exact hz (Int.sign_eq_zero_iff_zero.1 hsign)
      rw [hsign, place, place, digitsBefore_eq_of_value hvalue hz hnb, hkind]

/-! ## Where they disagree -/

/-- Two finite numerics with scales below zero, not the same, that have one mantissa or one value; or one
inline and one big with the mantissa that both can hold. -/
def Clash (a b : Numeric) : Prop :=
  a.special = .finite ∧ b.special = .finite ∧
    ((a.scale ≠ b.scale ∧ a.scale ≤ 0 ∧ b.scale ≤ 0 ∧
        (a.coef = b.coef ∨ a.value = b.value ∧ a.big.isSome = b.big.isSome)) ∨
      (a.scale = b.scale ∧ a.coef = b.coef ∧ a.big.isSome ≠ b.big.isSome))

/-- The three notions of being equal are one. -/
def Agree (a b : Numeric) : Prop :=
  (a.cmp b = .eq ↔ a.eqv b = true) ∧ (a.cmp b = .eq ↔ a.hashKey = b.hashKey)

/-- Values that are the same at different scales end in zeros at the larger one, so it is not positive. -/
theorem scale_nonpos {a b : Numeric} (hb : b.Wf) (h : a.value = b.value) (hlt : a.scale < b.scale) :
    b.scale ≤ 0 := by
  by_contra hcon
  apply hb.stripped (by omega)
  have hpad := scaled_pad (u := a.coef) hlt.le
  have hcoef : a.coef * 10 ^ (b.scale - a.scale).toNat = b.coef := scaled_inj.1 (hpad.trans h)
  obtain ⟨k, hk⟩ := Nat.exists_eq_succ_of_ne_zero (show (b.scale - a.scale).toNat ≠ 0 by omega)
  rw [← hcoef, hk, pow_succ]
  exact Dvd.intro_left (a.coef * 10 ^ k) (by ring)

theorem agree_finite {a b : Numeric} (ha : a.Wf) (hb : b.Wf) (hfa : a.special = .finite)
    (hfb : b.special = .finite) : Agree a b ↔ ¬Clash a b := by
  unfold Agree Clash
  rw [cmp_eq_iff ha hb hfa hfb, eqv_iff ha hb hfa hfb, hashKey_eq_iff ha hb hfa hfb]
  have hsame : a.scale = b.scale → (a.value = b.value ↔ a.coef = b.coef) := by
    intro hs
    rw [value, value, hs, scaled_inj]
  by_cases hs : a.scale = b.scale
  · rw [hsame hs]
    simp only [hfa, hfb, hs, true_and, ne_eq, not_true_eq_false, false_and, false_or, and_true]
    tauto
  · have hdiff : a.coef = b.coef ∧ max a.scale 0 = max b.scale 0 ↔ a.coef = b.coef ∧ a.scale ≤ 0 ∧ b.scale ≤ 0 := by
      constructor
      · rintro ⟨hc, hmax⟩
        exact ⟨hc, by omega, by omega⟩
      · rintro ⟨hc, hla, hlb⟩
        exact ⟨hc, by omega⟩
    have hneg : a.value = b.value → a.scale ≤ 0 ∧ b.scale ≤ 0 := by
      intro hv
      rcases Int.lt_or_gt_of_ne hs with hlt | hlt
      · have hle := scale_nonpos hb hv hlt
        exact ⟨by omega, hle⟩
      · have hle := scale_nonpos ha hv.symm hlt
        exact ⟨hle, by omega⟩
    rw [hdiff]
    simp only [hfa, hfb, hs, true_and, false_and, ne_eq, not_false_iff, or_false, iff_false]
    tauto

theorem special_hashKey {n : Numeric} (h : n.Wf) : n.hashKey.special = n.special := by
  by_cases hf : n.special = .finite
  · rw [hashKey_finite h hf, hf]
  · rw [hashKey, if_pos hf]

theorem special_of_cmp {a b : Numeric} (h : a.cmp b = .eq) : a.special = b.special := by
  unfold cmp at h
  cases ha : a.special with
  | finite | nan | posInf | negInf =>
      cases hb : b.special with
      | finite | nan | posInf | negInf =>
          first
          | rfl
          | rw [ha, hb] at h
            cases h

theorem agree_special {a b : Numeric} (ha : a.Wf) (hb : b.Wf)
    (hfin : ¬(a.special = .finite ∧ b.special = .finite)) : Agree a b := by
  by_cases hs : a.special = b.special
  · have hfa : a.special ≠ .finite := fun h => hfin ⟨h, hs ▸ h⟩
    have hfb : b.special ≠ .finite := hs ▸ hfa
    obtain ⟨hau, hasc, habig⟩ := ha.special_zero hfa
    obtain ⟨hbu, hbsc, hbbig⟩ := hb.special_zero hfb
    have hcmp : a.cmp b = .eq := by
      unfold cmp
      rw [← hs]
      cases h : a.special with
      | finite => exact absurd h hfa
      | nan | posInf | negInf => rfl
    have heqv : a.eqv b = true := by
      rw [eqv, if_neg (by simp [hs, hasc, hbsc]), habig, hbbig]
      simp [hau, hbu]
    have hhash : a.hashKey = b.hashKey := by
      rw [hashKey, hashKey, if_pos hfa, if_pos hfb, hs]
    exact ⟨by simp [hcmp, heqv], by simp [hcmp, hhash]⟩
  · have hcmp : a.cmp b ≠ .eq := fun h => hs (special_of_cmp h)
    have heqv : a.eqv b = false := by rw [eqv, if_pos (Or.inl hs)]
    have hhash : a.hashKey ≠ b.hashKey := by
      intro h
      apply hs
      rw [← special_hashKey ha, ← special_hashKey hb, h]
    exact ⟨by simp [hcmp, heqv], by simp [hcmp, hhash]⟩

theorem scale_of_coef {a b : Numeric} (ha : a.Wf) (hb : b.Wf) (hv : a.value = b.value) (hc : a.coef = b.coef) :
    ¬a.scale < b.scale := by
  intro hlt
  have hpad := scaled_pad (u := a.coef) hlt.le
  have hcoef : a.coef * 10 ^ (b.scale - a.scale).toNat = b.coef := scaled_inj.1 (hpad.trans hv)
  obtain ⟨k, hk⟩ := Nat.exists_eq_succ_of_ne_zero (show (b.scale - a.scale).toNat ≠ 0 by omega)
  rw [hk, ← hc] at hcoef
  have hzero : a.coef = 0 := by
    have hten : (1 : Int) ≤ 10 ^ k := one_le_pow₀ (by decide)
    rw [pow_succ] at hcoef
    nlinarith [hcoef]
  have hsa := ha.zero_scale (ha.coef_eq_zero.1 hzero)
  have hsb := hb.zero_scale (hb.coef_eq_zero.1 (hc ▸ hzero))
  omega

/-- Numerics that compare as equal have one hash key where they have one scale. -/
theorem hashKey_iff_scale {a b : Numeric} (ha : a.Wf) (hb : b.Wf) (h : a.cmp b = .eq) :
    a.hashKey = b.hashKey ↔ a.scale = b.scale := by
  have hs := special_of_cmp h
  by_cases hf : a.special = .finite
  · obtain ⟨hv, -⟩ := (cmp_eq_iff ha hb hf (hs ▸ hf)).1 h
    rw [hashKey_eq_iff ha hb hf (hs ▸ hf)]
    constructor
    · rintro ⟨hcoef, -⟩
      exact le_antisymm (not_lt.1 (scale_of_coef hb ha hv.symm hcoef.symm))
        (not_lt.1 (scale_of_coef ha hb hv hcoef))
    · intro hscale
      rw [value, value, hscale] at hv
      exact ⟨scaled_inj.1 hv, by rw [hscale]⟩
  · have hfb : b.special ≠ .finite := hs ▸ hf
    obtain ⟨-, hsa, -⟩ := ha.special_zero hf
    obtain ⟨-, hsb, -⟩ := hb.special_zero hfb
    rw [hashKey, hashKey, if_pos hf, if_pos hfb, hs, hsa, hsb]
    exact ⟨fun _ => rfl, fun _ => rfl⟩

/-- Equality, order and hash keys agree exactly on the numerics that do not clash. -/
theorem agree_iff (a b : Numeric) (ha : a.Wf) (hb : b.Wf) : Agree a b ↔ ¬Clash a b := by
  by_cases hfin : a.special = .finite ∧ b.special = .finite
  · exact agree_finite ha hb hfin.1 hfin.2
  · have hclash : ¬Clash a b := fun h => hfin ⟨h.1, h.2.1⟩
    simp only [hclash, not_false_iff, iff_true]
    exact agree_special ha hb hfin

theorem agree_hundred : Agree (new 1 (-2)) (new 100 0) ↔ ¬Clash (new 1 (-2)) (new 100 0) :=
  agree_iff _ _ (wf_new (by decide) (by decide)) (wf_new (by decide) (by decide))

/-- A hundred in two forms is equal in the comparison only; a hundred and one have one hash key. -/
theorem disagree_hundred :
    (new 1 (-2)).cmp (new 100 0) = .eq ∧ (new 1 (-2)).eqv (new 100 0) = false ∧
      (new 1 (-2)).hashKey ≠ (new 100 0).hashKey ∧
      (new 1 (-2)).hashKey = (new 1 0).hashKey ∧ (new 1 (-2)).cmp (new 1 0) = .gt ∧
      ¬Agree (new 1 (-2)) (new 100 0) := by
  refine ⟨by decide, by decide, by decide, by decide, by decide, ?_⟩
  rintro ⟨h, -⟩
  exact absurd (h.1 (by decide)) (by decide)

end Numeric

end Num
