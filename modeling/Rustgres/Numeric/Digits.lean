-- SUMMARY: Big magnitudes from decimal digits and back.
import Rustgres.Numeric.BigUint

/-!
# Digits of Big Magnitudes

A limb is nine digits, so text and limbs convert group by group.
-/

namespace Num

open Limbs Decimal

namespace BigUint

/-- Every limb but the first filled up to nine digits. -/
def toDecimalString (m : BigUint) : List Char :=
  match m.limbs.reverse with
  | [] => ['0']
  | top :: rest => Nat.toDigits 10 top ++ rest.flatMap (padTo 9)

theorem flatMap_digits {ls : List Nat} (hb : Below base ls) {top : Nat} (htop : 0 < top) :
    Nat.toDigits 10 top ++ ls.reverse.flatMap (padTo 9) = Nat.toDigits 10 (Nat.ofDigits base (ls ++ [top])) := by
  induction ls with
  | nil => rw [List.nil_append, Nat.ofDigits_singleton, List.reverse_nil, List.flatMap_nil, List.append_nil]
  | cons l ls ih =>
      obtain ⟨hl, hls⟩ := below_cons.1 hb
      rw [base_eq] at hl
      have hpos : 0 < Nat.ofDigits base (ls ++ [top]) := by
        rw [Nat.ofDigits_append, Nat.ofDigits_singleton]
        exact Nat.add_pos_right _ (Nat.mul_pos (Nat.pow_pos base_pos) htop)
      have hadd := toDigits_add_pow (by decide : 0 < 9) hl hpos
      rw [← base_eq] at hadd
      rw [List.reverse_cons, List.flatMap_append, ← List.append_assoc, ih hls, List.cons_append,
        Nat.ofDigits_cons, hadd, List.flatMap_singleton]

theorem toDecimalString_eq (m : BigUint) : m.toDecimalString = Nat.toDigits 10 m.toNat := by
  have hlast := m.trimmed
  have hbelow := m.below
  unfold toDecimalString toNat
  rcases List.eq_nil_or_concat m.limbs with h | ⟨ls, top, h⟩
  · rw [h]
    rfl
  · rw [List.concat_eq_append] at h
    rw [h] at hlast hbelow ⊢
    rw [List.reverse_append, List.reverse_singleton, List.singleton_append]
    have htop := hlast (by simp)
    rw [List.getLast_append_of_ne_nil _ (List.cons_ne_nil top []), List.getLast_singleton] at htop
    exact flatMap_digits (below_append.1 hbelow).1 (Nat.pos_of_ne_zero htop)

/-- The limbs of a row of digits read from its end. -/
def limbsOfDigits : Nat → List Char → List Nat
  | 0, _ => []
  | fuel + 1, s =>
    if s.isEmpty then []
    else Nat.ofDigitChars 10 (s.drop (s.length - 9)) 0 :: limbsOfDigits fuel (s.take (s.length - 9))

theorem ofDigitChars_lt {s : List Char} (h : ∀ c ∈ s, c.isDigit) : Nat.ofDigitChars 10 s 0 < 10 ^ s.length := by
  induction s with
  | nil => simp
  | cons c s ih =>
      have hc := h c List.mem_cons_self
      have hrest := ih fun d hd => h d (List.mem_cons_of_mem c hd)
      rw [Nat.ofDigitChars_cons, Nat.ofDigitChars_eq_ofDigitChars_zero, Nat.mul_zero, Nat.zero_add,
        List.length_cons, pow_succ]
      have hd : c.toNat - '0'.toNat ≤ 9 := by
        rw [Char.isDigit, Bool.and_eq_true, decide_eq_true_eq, decide_eq_true_eq] at hc
        have hle : c.toNat ≤ '9'.toNat := hc.2
        change c.toNat ≤ 57 at hle
        change c.toNat - 48 ≤ 9
        omega
      have hmul := Nat.mul_le_mul_left (10 ^ s.length) hd
      omega

theorem limbsOfDigits_spec {fuel : Nat} {s : List Char} (hf : s.length ≤ fuel) (h : ∀ c ∈ s, c.isDigit) :
    Nat.ofDigits base (limbsOfDigits fuel s) = Nat.ofDigitChars 10 s 0 ∧
      Below base (limbsOfDigits fuel s) := by
  induction fuel generalizing s with
  | zero =>
      have hnil : s = [] := List.length_eq_zero_iff.1 (by omega)
      rw [hnil, limbsOfDigits]
      exact ⟨by simp, below_nil⟩
  | succ fuel ih =>
      unfold limbsOfDigits
      split
      · rename_i hempty
        rw [List.isEmpty_iff] at hempty
        rw [hempty]
        exact ⟨by simp, below_nil⟩
      · rename_i hne
        have hpos : 0 < s.length := List.length_pos_of_ne_nil fun hnil => hne (by rw [hnil]; rfl)
        obtain ⟨hval, hbelow⟩ := ih (s := s.take (s.length - 9)) (by rw [List.length_take]; omega)
          fun c hc => h c (List.mem_of_mem_take hc)
        have hdrop : ∀ c ∈ s.drop (s.length - 9), c.isDigit := fun c hc => h c (List.mem_of_mem_drop hc)
        have hlow := ofDigitChars_lt hdrop
        have hsum : Nat.ofDigitChars 10 s 0 = Nat.ofDigitChars 10 (s.drop (s.length - 9)) 0
            + 10 ^ (s.drop (s.length - 9)).length * Nat.ofDigitChars 10 (s.take (s.length - 9)) 0 := by
          conv_lhs => rw [← List.take_append_drop (s.length - 9) s]
          rw [Nat.ofDigitChars_append, Nat.ofDigitChars_eq_ofDigitChars_zero, Nat.add_comm]
        rw [List.length_drop] at hlow hsum
        rw [Nat.ofDigits_cons, hval, hsum]
        rcases Nat.lt_or_ge s.length 9 with hshort | hlong
        · rw [show s.length - 9 = 0 by omega, List.take_zero, Nat.ofDigitChars_nil, Nat.mul_zero, Nat.mul_zero]
          refine ⟨rfl, below_cons.2 ⟨?_, by rw [show s.length - 9 = 0 by omega] at hbelow; simpa using hbelow⟩⟩
          rw [show s.length - 9 = 0 by omega] at hlow
          calc _ < 10 ^ (s.length - 0) := hlow
            _ ≤ base := by
              rw [base_eq]
              exact Nat.pow_le_pow_right (by decide) (by omega)
        · rw [show s.length - (s.length - 9) = 9 by omega, ← base_eq] at hlow ⊢
          exact ⟨rfl, below_cons.2 ⟨hlow, hbelow⟩⟩

/-- The magnitude of a row of digits; leading zeros are fine. -/
def fromDecimalStr (s : List Char) (h : ∀ c ∈ s, c.isDigit) : BigUint :=
  normalize (limbsOfDigits s.length s) (limbsOfDigits_spec (Nat.le_refl _) h).2

theorem toNat_fromDecimalStr (s : List Char) (h : ∀ c ∈ s, c.isDigit) :
    (fromDecimalStr s h).toNat = Nat.ofDigitChars 10 s 0 := by
  rw [fromDecimalStr, toNat_normalize]
  exact (limbsOfDigits_spec (Nat.le_refl _) h).1

end BigUint

end Num
