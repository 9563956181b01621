-- SUMMARY: The decimal text of numerics, as an integer with places behind the point.
import Rustgres.Numeric.Digits
import Rustgres.Numeric.Basic

/-!
# The Text of a Numeric

The text of a finite numeric is that of an integer with a number of places behind the point.
-/

namespace Num

open Decimal Scaled

abbrev Text := List Char

/-- Plain machine arithmetic on scales wraps. -/
def wrap32 (z : Int) : Int := Int.bmod z (2 ^ 32)

theorem wrap32_of_range {z : Int} (h : InI32 z) : wrap32 z = z := by
  unfold InI32 at h
  exact Int.bmod_eq_of_le (by omega) (by omega)

namespace Numeric

/-! ## What the code prints -/

def zeros (n : Nat) : Text := List.replicate n '0'

/-- The digits of a magnitude with a point, filled up to the display scale. -/
def pointText (digits : Text) (scale : Nat) (dscale : Nat) : Text :=
  let shown :=
    if scale = 0 then digits
    else if digits.length > scale then
      digits.take (digits.length - scale) ++ '.' :: digits.drop (digits.length - scale)
    else '0' :: '.' :: (zeros (scale - digits.length) ++ digits)
  if dscale > scale then
    shown ++ (if scale = 0 then ['.'] else []) ++ zeros (dscale - scale)
  else shown

def signText (u : Int) : Text := if u < 0 then ['-'] else []

def textDigits (n : Numeric) : Text :=
  match n.big with
  | some m => m.toDecimalString
  | none => Nat.toDigits 10 n.unscaled.natAbs

def toText (n : Numeric) : Text :=
  match n.special with
  | .nan => "NaN".toList
  | .posInf => "Infinity".toList
  | .negInf => "-Infinity".toList
  | .finite =>
    if n.unscaled = 0 then if n.dscale > 0 then '0' :: '.' :: zeros n.dscale else ['0']
    else if n.scale < 0 then signText n.unscaled ++ n.textDigits ++ zeros (wrap32 (-n.scale)).toNat
    else signText n.unscaled ++ pointText n.textDigits n.scale.toNat n.dscale

theorem Wf.textDigits_eq {n : Numeric} (h : n.Wf) : n.textDigits = Nat.toDigits 10 n.coef.natAbs := by
  have hmag := h.toNat_mag
  unfold textDigits
  unfold mag at hmag
  cases hb : n.big with
  | none => rw [coef_inline hb]
  | some m =>
      rw [hb] at hmag
      dsimp only at hmag ⊢
      rw [BigUint.toDecimalString_eq, hmag]

/-! ## Digits -/

theorem toDigits_mul_pow {m : Nat} (hm : 0 < m) (k : Nat) :
    Nat.toDigits 10 (m * 10 ^ k) = Nat.toDigits 10 m ++ zeros k := by
  induction k with
  | zero => simp [zeros]
  | succ k ih =>
      have hpos : 0 < m * 10 ^ k := Nat.mul_pos hm (Nat.pow_pos (by decide))
      have hstep : m * 10 ^ (k + 1) = 10 * (m * 10 ^ k) + 0 := by ring
      rw [hstep, ← Nat.toDigits_append_toDigits (by decide) hpos (by decide), ih, List.append_assoc,
        zeros, zeros, List.replicate_succ']
      rfl

theorem value_zeros_append (k : Nat) (s : Text) :
    Nat.ofDigitChars 10 (zeros k ++ s) 0 = Nat.ofDigitChars 10 s 0 := by
  rw [zeros, Nat.ofDigitChars_append, Nat.ofDigitChars_replicate_zero, Nat.mul_zero]

/-- The digits of the magnitude, with one at least before the places. -/
def padded (m places : Nat) : Text :=
  zeros (places + 1 - (Nat.toDigits 10 m).length) ++ Nat.toDigits 10 m

def wholeDigits (m places : Nat) : Text := (padded m places).take ((padded m places).length - places)

def fracDigits (m places : Nat) : Text := (padded m places).drop ((padded m places).length - places)

def spell (int frac : Text) : Text := if frac.isEmpty then int else int ++ '.' :: frac

theorem spell_nil (int : Text) : spell int [] = int := rfl

theorem spell_of_ne_nil {int frac : Text} (h : frac ≠ []) : spell int frac = int ++ '.' :: frac := by
  rw [spell, if_neg (by simpa using h)]

theorem length_padded (m places : Nat) :
    (padded m places).length = max (places + 1) (Nat.toDigits 10 m).length := by
  simp only [padded, zeros, List.length_append, List.length_replicate]
  omega

theorem length_wholeDigits (m places : Nat) :
    (wholeDigits m places).length = max 1 ((Nat.toDigits 10 m).length - places) := by
  rw [wholeDigits, List.length_take, length_padded]
  omega

theorem length_fracDigits (m places : Nat) : (fracDigits m places).length = places := by
  rw [fracDigits, List.length_drop, length_padded]
  omega

theorem int_append_frac (m places : Nat) :
    wholeDigits m places ++ fracDigits m places = padded m places :=
  List.take_append_drop _ _

theorem value_padded (m places : Nat) : Nat.ofDigitChars 10 (padded m places) 0 = m := by
  rw [padded, value_zeros_append, Nat.ofDigitChars_ten_toDigits]

theorem isDigit_of_mem_padded {m places : Nat} {c : Char} (h : c ∈ padded m places) : c.isDigit := by
  rcases List.mem_append.1 h with h | h
  · rw [List.eq_of_mem_replicate h]
    rfl
  · exact Nat.isDigit_of_mem_toDigits (by decide) (by decide) h

theorem isDigit_of_mem_wholeDigits {m places : Nat} {c : Char} (h : c ∈ wholeDigits m places) : c.isDigit :=
  isDigit_of_mem_padded (List.mem_of_mem_take h)

theorem isDigit_of_mem_fracDigits {m places : Nat} {c : Char} (h : c ∈ fracDigits m places) :
    c.isDigit :=
  isDigit_of_mem_padded (List.mem_of_mem_drop h)

theorem wholeDigits_ne_nil (m places : Nat) : wholeDigits m places ≠ [] := by
  intro h
  have hlen := length_wholeDigits m places
  rw [h] at hlen
  simp at hlen
  omega

/-! ## The text of a numeric -/

/-- How many digits are shown behind the point. -/
def places (n : Numeric) : Nat := if n.unscaled ≠ 0 ∧ n.scale < 0 then 0 else n.dscale

/-- The number as an integer, the places behind the point counted in. -/
def shifted (n : Numeric) : Int := n.coef * 10 ^ ((n.places : Int) - n.scale).toNat

theorem Wf.scale_le_places {n : Numeric} (h : n.Wf) : n.scale ≤ n.places := by
  have hshown := h.shown
  unfold places
  split
  · rename_i hs
    exact Int.le_of_lt hs.2
  · exact hshown

theorem Wf.value_eq_shifted {n : Numeric} (h : n.Wf) : n.value = scaled n.shifted n.places :=
  (scaled_pad h.scale_le_places).symm

theorem padded_mul_pow {m : Nat} (hm : 0 < m) (scale k : Nat) :
    padded (m * 10 ^ k) (scale + k) =
      zeros (scale + 1 - (Nat.toDigits 10 m).length) ++ (Nat.toDigits 10 m ++ zeros k) := by
  have hlen : scale + k + 1 - ((Nat.toDigits 10 m).length + k)
      = scale + 1 - (Nat.toDigits 10 m).length := by
    omega
  rw [padded, toDigits_mul_pow hm, List.length_append, zeros, zeros, List.length_replicate, hlen]
  rfl

theorem digits_of_long {m scale k : Nat} (hm : 0 < m) (h : scale < (Nat.toDigits 10 m).length) :
    wholeDigits (m * 10 ^ k) (scale + k)
        = (Nat.toDigits 10 m).take ((Nat.toDigits 10 m).length - scale) ∧
      fracDigits (m * 10 ^ k) (scale + k)
        = (Nat.toDigits 10 m).drop ((Nat.toDigits 10 m).length - scale) ++ zeros k := by
  have hpad : padded (m * 10 ^ k) (scale + k) = Nat.toDigits 10 m ++ zeros k := by
    rw [padded_mul_pow hm, Nat.sub_eq_zero_of_le h]
    rfl
  have hlen : (Nat.toDigits 10 m ++ zeros k).length - (scale + k)
      = (Nat.toDigits 10 m).length - scale := by
    rw [List.length_append, zeros, List.length_replicate]
    omega
  unfold wholeDigits fracDigits
  rw [hpad, hlen, List.take_append_of_le_length (Nat.sub_le ..),
    List.drop_append_of_le_length (Nat.sub_le ..)]
  exact ⟨rfl, rfl⟩

theorem digits_of_short {m scale k : Nat} (hm : 0 < m) (h : (Nat.toDigits 10 m).length ≤ scale) :
    wholeDigits (m * 10 ^ k) (scale + k) = ['0'] ∧
      fracDigits (m * 10 ^ k) (scale + k)
        = zeros (scale - (Nat.toDigits 10 m).length) ++ (Nat.toDigits 10 m ++ zeros k) := by
  have hpad : padded (m * 10 ^ k) (scale + k)
      = '0' :: (zeros (scale - (Nat.toDigits 10 m).length) ++ (Nat.toDigits 10 m ++ zeros k)) := by
    rw [padded_mul_pow hm, Nat.succ_sub h, zeros, List.replicate_succ]
    rfl
  have hlen : (padded (m * 10 ^ k) (scale + k)).length - (scale + k) = 1 := by
    rw [hpad]
    simp only [zeros, List.length_cons, List.length_append, List.length_replicate]
    omega
  unfold wholeDigits fracDigits
  rw [hlen, hpad]
  exact ⟨rfl, rfl⟩

theorem pointText_eq {m : Nat} (hm : 0 < m) (scale dscale : Nat) :
    pointText (Nat.toDigits 10 m) scale dscale =
      spell (wholeDigits (m * 10 ^ (max scale dscale - scale)) (max scale dscale))
        (fracDigits (m * 10 ^ (max scale dscale - scale)) (max scale dscale)) := by
  obtain ⟨k, hk⟩ : ∃ k, max scale dscale = scale + k := ⟨max scale dscale - scale, by omega⟩
  have hpos : 0 < (Nat.toDigits 10 m).length := Nat.length_toDigits_pos
  have hfill : ∀ shown point : Text,
      (if dscale > scale then shown ++ point ++ zeros (dscale - scale) else shown)
        = if k = 0 then shown else shown ++ point ++ zeros k := by
    intro shown point
    by_cases hd : dscale > scale
    · rw [if_pos hd, if_neg (by omega), show dscale - scale = k by omega]
    · rw [if_neg hd, if_pos (by omega)]
  unfold pointText
  rw [hk, Nat.add_sub_cancel_left, hfill]
  by_cases hlong : scale < (Nat.toDigits 10 m).length
  · obtain ⟨hint, hfrac⟩ := @digits_of_long m scale k hm hlong
    rw [hint, hfrac]
    cases scale with
    | zero =>
        rw [Nat.sub_zero, List.take_length, List.drop_length, List.nil_append]
        cases k with
        | zero => rfl
        | succ k =>
            rw [spell_of_ne_nil (by simp [zeros])]
            simp
    | succ scale =>
        have hdrop : (Nat.toDigits 10 m).drop ((Nat.toDigits 10 m).length - (scale + 1)) ≠ [] := by
          rw [ne_eq, List.drop_eq_nil_iff]
          omega
        rw [spell_of_ne_nil (by simp [hdrop]), if_neg (Nat.succ_ne_zero scale), if_pos hlong]
        cases k with
        | zero => simp [zeros]
        | succ k => simp
  · have hshort := Nat.le_of_not_lt hlong
    obtain ⟨hint, hfrac⟩ := @digits_of_short m scale k hm hshort
    have hscale : scale ≠ 0 := by omega
    rw [hint, hfrac, if_neg hscale, if_neg hlong, if_neg hscale,
      spell_of_ne_nil (by simp [Nat.toDigits_ne_nil])]
    cases k with
    | zero => simp [zeros]
    | succ k => simp

theorem signText_mul_pow (u : Int) (k : Nat) : signText (u * 10 ^ k) = signText u := by
  have hpos : (0 : Int) < 10 ^ k := Int.pow_pos (by decide)
  have hiff : u * 10 ^ k < 0 ↔ u < 0 := by
    refine ⟨fun h => ?_, fun h => Int.mul_neg_of_neg_of_pos h hpos⟩
    refine Int.not_le.1 fun hu => ?_
    exact Int.not_lt.2 (Int.mul_nonneg hu (Int.le_of_lt hpos)) h
  simp only [signText, hiff]

theorem natAbs_mul_pow (u : Int) (k : Nat) : (u * 10 ^ k).natAbs = u.natAbs * 10 ^ k := by
  rw [Int.natAbs_mul, Int.natAbs_pow]
  rfl

theorem spell_zero (dscale : Nat) :
    spell (wholeDigits 0 dscale) (fracDigits 0 dscale)
      = if dscale > 0 then '0' :: '.' :: zeros dscale else ['0'] := by
  have hpad : padded 0 dscale = '0' :: zeros dscale := by
    rw [padded, Nat.toDigits_zero, List.length_singleton, Nat.add_sub_cancel, zeros,
      ← List.replicate_succ', List.replicate_succ]
  have hlen : (padded 0 dscale).length - dscale = 1 := by
    rw [hpad]
    simp [zeros]
  unfold wholeDigits fracDigits
  rw [hlen, hpad]
  cases dscale with
  | zero => rfl
  | succ d => rfl

theorem spell_whole {m : Nat} (hm : 0 < m) (k : Nat) :
    spell (wholeDigits (m * 10 ^ k) 0) (fracDigits (m * 10 ^ k) 0) = Nat.toDigits 10 m ++ zeros k := by
  have hpos : 0 < (Nat.toDigits 10 (m * 10 ^ k)).length := Nat.length_toDigits_pos
  have hpad : padded (m * 10 ^ k) 0 = Nat.toDigits 10 (m * 10 ^ k) := by
    rw [padded, Nat.sub_eq_zero_of_le hpos]
    rfl
  have hfrac : fracDigits (m * 10 ^ k) 0 = [] := List.length_eq_zero_iff.1 (length_fracDigits _ 0)
  rw [hfrac, spell_nil, wholeDigits, hpad, Nat.sub_zero, List.take_length, toDigits_mul_pow hm]

/-- What is shown of a finite numeric whose zeros the code can count. -/
theorem toText_eq {n : Numeric} (hwf : n.Wf) (h : n.special = .finite) (hlow : n.scale ≠ -2 ^ 31) :
    n.toText = signText n.shifted ++ spell (wholeDigits n.shifted.natAbs n.places)
      (fracDigits n.shifted.natAbs n.places) := by
  have hzero := hwf.coef_eq_zero
  have hneg := hwf.coef_neg
  have hshown := hwf.shown
  have hrange := hwf.scale_range
  have hsign : signText n.unscaled = signText n.coef := by
    simp only [signText, hneg]
  unfold toText
  rw [h]
  dsimp only
  by_cases hu : n.unscaled = 0
  · have hplaces : n.places = n.dscale := by
      rw [places, if_neg fun hs => hs.1 hu]
    have hshifted : n.shifted = 0 := by
      rw [shifted, hzero.2 hu, Int.zero_mul]
    rw [if_pos hu, hshifted, hplaces, Int.natAbs_zero, spell_zero]
    rfl
  · have hpos : 0 < n.coef.natAbs := Int.natAbs_pos.2 fun hc => hu (hzero.1 hc)
    rw [if_neg hu, hwf.textDigits_eq, hsign]
    by_cases hs : n.scale < 0
    · have hplaces : n.places = 0 := by
        rw [places, if_pos ⟨hu, hs⟩]
      have hshifted : n.shifted = n.coef * 10 ^ (-n.scale).toNat := by
        rw [shifted, hplaces, Int.natCast_zero, Int.zero_sub]
      have hwrap : wrap32 (-n.scale) = -n.scale := wrap32_of_range (by unfold InI32 at *; omega)
      rw [if_pos hs, hwrap, hplaces, hshifted, signText_mul_pow, natAbs_mul_pow, spell_whole hpos,
        ← List.append_assoc]
    · have hplaces : n.places = max n.scale.toNat n.dscale := by
        rw [places, if_neg fun h => hs h.2]
        omega
      have hshifted : n.shifted = n.coef * 10 ^ (max n.scale.toNat n.dscale - n.scale.toNat) := by
        rw [shifted, hplaces]
        congr 2
        omega
      rw [if_neg hs, hplaces, hshifted, signText_mul_pow, natAbs_mul_pow, pointText_eq hpos]

end Numeric

end Num
