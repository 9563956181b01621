-- SUMMARY: Division of big unsigned integers in machine words: no operation leaves its word, and the fast ways agree.
import Rustgres.Lib.WordLimbs
import Rustgres.Numeric.BigUint

/-!
# Division in Machine Words

The divisions as the program runs them, on lists of limbs with every sum, product, difference, cast and assertion
checked. They always have a result, and it is the quotient and the remainder.
-/

namespace Num

open Limbs

namespace BigUint

def u32Max : Nat := 2 ^ 32 - 1
def u64Max : Nat := 2 ^ 64 - 1
def i64Max : Nat := 2 ^ 63 - 1

/-! ## The program -/

/-- The divisor is a word. -/
def divRemSmallW (u : List Nat) (d : Nat) : Option (List Nat × Nat) :=
  (ensure (0 < d)).bind fun _ => (divSmallW u64Max base d u).bind fun out => some (trim out.1, out.2)

def divRemW (u v : List Nat) : Option (List Nat × List Nat) :=
  (ensure (v ≠ [])).bind fun _ =>
    if compareLimbs u v = .lt then some ([], u)
    else if v.length = 1 then
      (divRemSmallW u (v.headD 0)).bind fun out => some (out.1, if out.2 = 0 then [] else [out.2])
    else (divFullW u64Max i64Max base u v).bind fun out => some (trim out.1, trim out.2)

def mulSmallAssignW (u : List Nat) (m : Nat) : Option (List Nat) :=
  if m = 0 ∨ u = [] then some [] else if m = 1 then some u else mulSmallW u128Max base m u 0

def addSmallAssignW (u : List Nat) (v : Nat) : Option (List Nat) :=
  (ensure (v < base)).bind fun _ => if v = 0 then some u else addW u64Max base u [] v

def addAssignW (u v : List Nat) : Option (List Nat) := if v = [] then some u else addW u64Max base u v 0

def divSmallAssignW (u : List Nat) (d : Nat) : Option (List Nat) :=
  (ensure (0 < d ∧ d ≤ base)).bind fun _ => (divSmallW u64Max base d u).bind fun out => some (trim out.1)

def mulFullW (u v : List Nat) : Option (List Nat) :=
  if u = [] ∨ v = [] then some [] else (mulW u128Max base u v).bind fun out => some (trim out)

/-- The limbs divided by ten to less than nine, and the remainder. -/
def dropPartW (u : List Nat) (part : Nat) : Option (List Nat × Nat) :=
  if 0 < part then
    (fit u32Max (10 ^ part)).bind fun d => (divSmallW u64Max base d u).bind fun out => some (trim out.1, out.2)
  else some (u, 0)

def divRemPow10W (u : List Nat) (k : Nat) : Option (List Nat × List Nat) :=
  if u = [] ∨ k = 0 then some (u, [])
  else
    (dropPartW u (k % 9)).bind fun q =>
      let parts := splitLimbs q.1 (k / 9)
      (if 0 < k % 9 then mulSmallAssignW parts.2 (10 ^ (k % 9)) else some parts.2).bind fun scaled =>
        (if 0 < q.2 then addSmallAssignW scaled q.2 else some scaled).bind fun rem => some (parts.1, trim rem)

/-- Halving steps between a quotient that is not too large and one that is. -/
def bisectW (u v : List Nat) : Nat → List Nat → List Nat → Option (List Nat)
  | 0, lo, _ => some lo
  | n + 1, lo, hi =>
    (addAssignW lo hi).bind fun sum => (divSmallAssignW sum 2).bind fun mid => (mulFullW mid v).bind fun prod =>
      if compareLimbs prod u ≠ .gt then bisectW u v n mid hi else bisectW u v n lo mid

/-- No quotient from 2³¹ on. -/
def floorDivBoundedW (u v : List Nat) : Option (Option (List Nat)) :=
  (ensure (v ≠ [])).bind fun _ => (mulSmallAssignW v (2 ^ 31)).bind fun limit =>
    if compareLimbs u limit ≠ .lt then some none
    else (bisectW u v 31 [] (fromU64 (2 ^ 31)).limbs).bind fun lo => some (some lo)

/-! ## No operation leaves its word -/

theorem roomy : Roomy base u64Max i64Max := ⟨by decide, by decide, by decide⟩

theorem divSmallW_limbs (m : BigUint) {d : Nat} (hd : 0 < d) (hle : d ≤ base) :
    divSmallW u64Max base d m.limbs = some (divSmall base d m.limbs) :=
  divSmallW_eq (Nat.le_trans (Nat.mul_le_mul_right base hle) (by decide)) hd m.below

theorem divRemSmallW_eq (m : BigUint) {d : Nat} (hd : 0 < d) (hle : d ≤ base) :
    divRemSmallW m.limbs d = some ((m.divRemSmall d).1.limbs, (m.divRemSmall d).2) := by
  rw [divRemSmallW, ensure_bind hd, divSmallW_limbs m hd hle]
  rfl

theorem limbs_ofSmall (r : Nat) (h : r < base) : (if r = 0 then [] else [r]) = (ofSmall r h).limbs := by
  unfold ofSmall
  by_cases hr : r = 0
  · rw [if_pos hr, dif_pos hr]
    rfl
  · rw [if_neg hr, dif_neg hr]

theorem limbs_fromU64 (r : Nat) (h : r < base) : (if r = 0 then [] else [r]) = (fromU64 r).limbs := by
  rw [limbs_ofSmall r h, ext_toNat (m := ofSmall r h) (n := fromU64 r) (by rw [toNat_ofSmall, toNat_fromU64])]

theorem isZero_nil {m : BigUint} : m.isZero = true ↔ m.limbs = [] := List.isEmpty_iff

theorem limbs_ne_nil {m : BigUint} (h : 0 < m.toNat) : m.limbs ≠ [] := by
  intro hnil
  rw [toNat, hnil] at h
  cases h

theorem divRemW_eq (m : BigUint) {n : BigUint} (h : 0 < n.toNat) :
    divRemW m.limbs n.limbs = some ((m.divRem n).1.limbs, (m.divRem n).2.limbs) := by
  have hne := limbs_ne_nil h
  have hpos := List.length_pos_of_ne_nil hne
  have hcmp : compareLimbs m.limbs n.limbs = m.cmp n := rfl
  rw [divRemW, ensure_bind hne, divRem, hcmp]
  by_cases hlt : m.cmp n = .lt
  · rw [dif_pos hlt, if_pos hlt]
    rfl
  · rw [dif_neg hlt, if_neg hlt]
    by_cases hone : n.limbs.length = 1
    · rw [if_pos hone, if_pos hone]
      obtain ⟨d, hd⟩ := List.length_eq_one_iff.1 hone
      have hval : n.toNat = d := by rw [toNat, hd, Nat.ofDigits_singleton]
      have hbelow : d < base := n.below d (by rw [hd]; exact List.mem_singleton_self d)
      have hrem : (m.divRemSmall d).2 < base := by
        rw [snd_divRemSmall m (by omega)]
        exact Nat.lt_trans (Nat.mod_lt _ (by omega)) hbelow
      rw [hd, List.headD_cons, divRemSmallW_eq m (by omega) hbelow.le, Option.bind_some, limbs_fromU64 _ hrem]
    · have htwo : 2 ≤ n.limbs.length := by omega
      rw [if_neg hone, if_neg hone, dif_pos htwo,
        divFullW_eq roomy htwo (length_le_of_cmp hlt) m.below n.below n.trimmed]
      rfl

/-- A factor that leaves the products in their word. -/
theorem mulSmallW_limbs {l : List Nat} (h : Below base l) {m : Nat} (hpos : 0 < m) (hm : m ≤ u32Max) :
    mulSmallW u128Max base m l 0 = some (mulSmall base m l 0) := by
  have hbound : (base - 1) * m + (m - 1) < base * (m - 1 + 1) := by
    rw [Nat.sub_add_cancel hpos, Nat.sub_mul, Nat.one_mul]
    have := Nat.le_mul_of_pos_left m base_pos
    omega
  have hword : base * m ≤ u128Max := Nat.le_trans (Nat.mul_le_mul_left base hm) (by decide)
  rw [Nat.sub_add_cancel hpos] at hbound
  exact mulSmallW_eq (Nat.le_trans hbound.le hword) (by rwa [Nat.sub_add_cancel hpos])
    (fun x hx => Nat.le_sub_one_of_lt (h x hx)) (Nat.zero_le _)

theorem mulSmallAssignW_eq (m : BigUint) {k : Nat} (hk : k ≤ u32Max) :
    mulSmallAssignW m.limbs k = some (m.mulSmallAssign k).limbs := by
  unfold mulSmallAssignW mulSmallAssign
  by_cases hzero : k = 0 ∨ m.limbs = []
  · rw [if_pos hzero, dif_pos (hzero.imp_right isZero_nil.2)]
    rfl
  · rw [if_neg hzero, dif_neg (mt (Or.imp_right isZero_nil.1) hzero)]
    by_cases hone : k = 1
    · rw [if_pos hone, if_pos hone]
    · rw [if_neg hone, if_neg hone]
      exact mulSmallW_limbs m.below (by omega) hk

theorem addAssignW_eq (m n : BigUint) : addAssignW m.limbs n.limbs = some (m.addAssign n).limbs := by
  have hadd := addW_eq (M := u64Max) (by decide) (by decide) m.below n.below base_pos
  rw [addAssignW]
  by_cases hnil : n.limbs = []
  · have hsum : m.addAssign n = m := by
      apply ext_toNat
      rw [toNat_addAssign, isZero_iff.1 (isZero_nil.2 hnil), Nat.add_zero]
    rw [if_pos hnil, hsum]
  · rw [if_neg hnil, hadd]
    rfl

theorem divSmallAssignW_eq (m : BigUint) {d : Nat} (hd : 0 < d) (hle : d ≤ base) :
    divSmallAssignW m.limbs d = some (m.divRemSmall d).1.limbs := by
  rw [divSmallAssignW, ensure_bind ⟨hd, hle⟩, divSmallW_limbs m hd hle]
  rfl

theorem length_limbs_le {m : BigUint} {k : Nat} (h : m.toNat < base ^ k) : m.limbs.length ≤ k := by
  have hlimbs : m.limbs = Nat.digits base m.toNat := eq_digits one_lt_base m.below m.trimmed
  rw [hlimbs]
  exact (Nat.digits_length_le_iff one_lt_base m.toNat).2 h

/-- The first operand has two limbs at most. -/
theorem mulFullW_eq {m : BigUint} (hm : m.toNat < base ^ 2) (n : BigUint) :
    mulFullW m.limbs n.limbs = some (m.mul n).limbs := by
  have hlen := length_limbs_le hm
  have hfit : 2 * (m.limbs.length * (base * base)) ≤ u128Max :=
    Nat.le_trans (Nat.mul_le_mul_left 2 (Nat.mul_le_mul_right _ hlen)) (by decide)
  rw [mulFullW]
  by_cases hzero : m.limbs = [] ∨ n.limbs = []
  · rw [if_pos hzero, BigUint.mul, if_pos (hzero.imp isZero_nil.2 isZero_nil.2)]
    rfl
  · obtain ⟨out, hout, hbelow, hval⟩ := mulW_spec (by decide) m.below n.below hfit
    have heq : normalize out hbelow = m.mul n := by
      apply ext_toNat
      rw [toNat_normalize, toNat_mul, hval]
      rfl
    rw [if_neg hzero, hout, ← heq]
    rfl

/-! ## The other divisions -/

theorem dropPartW_eq (m : BigUint) {part : Nat} (h : part < 9) :
    dropPartW m.limbs part = some ((m.dropPart part).1.limbs, (m.dropPart part).2) := by
  unfold dropPartW dropPart
  by_cases hpos : 0 < part
  · have hpow : 10 ^ part ≤ 10 ^ 9 := Nat.pow_le_pow_right (by decide) h.le
    have hword : 10 ^ part ≤ u32Max := Nat.le_trans hpow (by decide)
    rw [if_pos hpos, if_pos hpos, fit_bind hword,
      divSmallW_limbs m (Nat.pow_pos (by decide)) (by rw [base_eq]; exact hpow)]
    rfl
  · rw [if_neg hpos, if_neg hpos]

theorem joinRemW_eq {low : List Nat} (h : Below base low) {part rem : Nat} (hpart : part < 9) (hrem : rem < 10 ^ part) :
    (if 0 < part then mulSmallAssignW low (10 ^ part) else some low).bind
      (fun scaled => if 0 < rem then addSmallAssignW scaled rem else some scaled) = some (joinRem low part rem) := by
  have hpow : 10 ^ part ≤ 10 ^ 9 := Nat.pow_le_pow_right (by decide) hpart.le
  have hscaled : (if 0 < part then mulSmallAssignW low (10 ^ part) else some low)
      = some (if 0 < part then mulSmall base (10 ^ part) low 0 else low) := by
    by_cases hpos : 0 < part
    · have hten : 10 ^ 1 ≤ 10 ^ part := Nat.pow_le_pow_right (by decide) hpos
      rw [if_pos hpos, if_pos hpos, mulSmallAssignW]
      by_cases hnil : low = []
      · rw [if_pos (.inr hnil), hnil, mulSmall, Nat.digits_zero]
      · have hlarge : 10 ≤ 10 ^ part := hten
        rw [if_neg (not_or.2 ⟨by omega, hnil⟩), if_neg (by omega)]
        exact mulSmallW_limbs h (by omega) (Nat.le_trans hpow (by decide))
    · rw [if_neg hpos, if_neg hpos]
  have hbelow : Below base (if 0 < part then mulSmall base (10 ^ part) low 0 else low) := by
    split
    · exact below_mulSmall one_lt_base _ _ _
    · exact h
  rw [hscaled, Option.bind_some, joinRem]
  by_cases hpos : 0 < rem
  · have hlt : rem < base := by
      rw [base_eq]
      omega
    rw [if_pos hpos, if_pos hpos, addSmallAssignW, ensure_bind hlt, if_neg (by omega)]
    exact addW_eq (by decide) (by decide) hbelow below_nil hlt
  · rw [if_neg hpos, if_neg hpos]

theorem divRemPow10W_eq (m : BigUint) (k : Nat) :
    divRemPow10W m.limbs k = some ((m.divRemPow10 k).1.limbs, (m.divRemPow10 k).2.limbs) := by
  unfold divRemPow10W divRemPow10
  by_cases hzero : m.limbs = [] ∨ k = 0
  · rw [if_pos hzero, if_pos (hzero.imp_left isZero_nil.2)]
    rfl
  · have hpart := Nat.mod_lt k (show 9 > 0 by decide)
    obtain ⟨-, hrem⟩ := dropPart_spec m (k % 9)
    obtain ⟨-, -, -, hbelow⟩ := splitLimbs_spec (m.dropPart (k % 9)).1.below (k / 9)
    have hjoin := joinRemW_eq hbelow hpart hrem
    rw [if_neg hzero, if_neg (mt (Or.imp_left isZero_nil.1) hzero), dropPartW_eq m hpart, Option.bind_some]
    dsimp only
    obtain ⟨scaled, hs, hr⟩ := Option.bind_eq_some_iff.1 hjoin
    rw [hs, Option.bind_some, hr]
    rfl

/-- The quotient stays between the two ends, which come together. -/
theorem bisectW_spec {u v : BigUint} (n : Nat) {lo hi : BigUint} (hwidth : hi.toNat = lo.toNat + 2 ^ n)
    (hhi : hi.toNat ≤ 2 ^ 31) (hle : lo.toNat * v.toNat ≤ u.toNat) (hlt : u.toNat < hi.toNat * v.toNat) :
    ∃ q : BigUint, bisectW u.limbs v.limbs n lo.limbs hi.limbs = some q.limbs ∧
      q.toNat * v.toNat ≤ u.toNat ∧ u.toNat < (q.toNat + 1) * v.toNat := by
  induction n generalizing lo hi with
  | zero => exact ⟨lo, rfl, hle, by rwa [hwidth] at hlt⟩
  | succ n ih =>
      let mid := ((lo.addAssign hi).divRemSmall 2).1
      have hmid : mid.toNat = lo.toNat + 2 ^ n := by
        rw [toNat_divRemSmall _ (by decide), toNat_addAssign, hwidth, pow_succ]
        omega
      have hsmall : mid.toNat < base ^ 2 := by
        have hfit : 2 ^ 31 < base ^ 2 := by decide
        rw [hwidth, pow_succ] at hhi
        omega
      have hcmp : compareLimbs (mid.mul v).limbs u.limbs = compare (mid.toNat * v.toNat) u.toNat := by
        rw [← toNat_mul]
        exact cmp_eq (mid.mul v) u
      rw [bisectW, addAssignW_eq, Option.bind_some, divSmallAssignW_eq _ (by decide) (by decide), Option.bind_some,
        mulFullW_eq hsmall, Option.bind_some, hcmp]
      rw [pow_succ] at hwidth
      by_cases hgt : compare (mid.toNat * v.toNat) u.toNat ≠ .gt
      · rw [if_pos hgt]
        rw [Ne, Nat.compare_eq_gt, not_lt] at hgt
        have hrest : hi.toNat = mid.toNat + 2 ^ n := by omega
        exact ih hrest hhi hgt hlt
      · rw [if_neg hgt]
        rw [not_not, Nat.compare_eq_gt] at hgt
        have hbound : mid.toNat ≤ 2 ^ 31 := by omega
        exact ih hmid hbound hle hgt

theorem floorDivBoundedW_spec (u : BigUint) {v : BigUint} (h : 0 < v.toNat) :
    (u.toNat / v.toNat < 2 ^ 31 → floorDivBoundedW u.limbs v.limbs = some (some (u.divRem v).1.limbs)) ∧
      (2 ^ 31 ≤ u.toNat / v.toNat → floorDivBoundedW u.limbs v.limbs = some none) := by
  have hcmp : compareLimbs u.limbs (v.mulSmallAssign (2 ^ 31)).limbs = compare u.toNat (v.toNat * 2 ^ 31) := by
    rw [← toNat_mulSmallAssign]
    exact cmp_eq u _
  have hbound : u.toNat / v.toNat < 2 ^ 31 ↔ u.toNat < v.toNat * 2 ^ 31 := by
    rw [Nat.div_lt_iff_lt_mul h, Nat.mul_comm]
  rw [floorDivBoundedW, ensure_bind (limbs_ne_nil h), mulSmallAssignW_eq v (by decide), Option.bind_some, hcmp]
  constructor
  · intro hlt
    rw [hbound] at hlt
    have hwidth : (fromU64 (2 ^ 31)).toNat = zero.toNat + 2 ^ 31 := by rw [toNat_fromU64, toNat_zero, Nat.zero_add]
    have hzero : zero.toNat * v.toNat ≤ u.toNat := by
      rw [toNat_zero, Nat.zero_mul]
      exact Nat.zero_le _
    obtain ⟨q, hq, hle, hless⟩ := bisectW_spec 31 hwidth (by rw [toNat_fromU64]) hzero
      (by rwa [toNat_fromU64, Nat.mul_comm])
    have hquot : q = (u.divRem v).1 := by
      apply ext_toNat
      rw [toNat_quot u h]
      exact ((Nat.div_eq_iff h).2 ⟨hle, by rw [Nat.add_mul] at hless; omega⟩).symm
    rw [if_neg (by rw [not_not, Nat.compare_eq_lt]; exact hlt), ← hquot]
    change ((bisectW u.limbs v.limbs 31 zero.limbs (fromU64 (2 ^ 31)).limbs).bind _) = _
    rw [hq, Option.bind_some]
  · intro hge
    rw [← Nat.not_lt, hbound] at hge
    rw [if_pos (by rw [Ne, Nat.compare_eq_lt]; exact hge)]

/-- Every division of every number by a number that is not zero, with the quotient and the remainder in limbs without
leading zeros. -/
theorem word_division (u v : BigUint) (h : v.isZero = false) :
    ∃ q r : BigUint, u.toNat = q.toNat * v.toNat + r.toNat ∧ r.toNat < v.toNat ∧
      divRemW u.limbs v.limbs = some (q.limbs, r.limbs) ∧
      (∀ k, v.toNat = 10 ^ k → divRemPow10W u.limbs k = some (q.limbs, r.limbs)) ∧
      floorDivBoundedW u.limbs v.limbs = some (if q.toNat < 2 ^ 31 then some q.limbs else none) := by
  have hpos := isZero_eq_false.1 h
  obtain ⟨hq, hr⟩ := divRem_spec u hpos
  refine ⟨(u.divRem v).1, (u.divRem v).2, ?_, ?_, divRemW_eq u hpos, fun k hk => ?_, ?_⟩
  · rw [hq, hr]
    exact (Nat.div_add_mod' _ _).symm
  · rw [hr]
    exact Nat.mod_lt _ hpos
  · obtain ⟨hq', hr'⟩ := divRemPow10_spec u k
    rw [hk] at hq hr
    rw [divRemPow10W_eq, ext_toNat (hq'.trans hq.symm), ext_toNat (hr'.trans hr.symm)]
  · obtain ⟨hsome, hnone⟩ := floorDivBoundedW_spec u hpos
    rw [hq]
    split
    · rename_i hlt
      exact hsome hlt
    · rename_i hge
      exact hnone (by omega)

theorem word_division_thousand : ∃ q r : BigUint, (fromU64 (10 ^ 27 + 5)).toNat = q.toNat * (fromU64 (10 ^ 20)).toNat + r.toNat ∧
    r.toNat < (fromU64 (10 ^ 20)).toNat ∧
    divRemW (fromU64 (10 ^ 27 + 5)).limbs (fromU64 (10 ^ 20)).limbs = some (q.limbs, r.limbs) ∧
    (∀ k, (fromU64 (10 ^ 20)).toNat = 10 ^ k → divRemPow10W (fromU64 (10 ^ 27 + 5)).limbs k = some (q.limbs, r.limbs)) ∧
    floorDivBoundedW (fromU64 (10 ^ 27 + 5)).limbs (fromU64 (10 ^ 20)).limbs
      = some (if q.toNat < 2 ^ 31 then some q.limbs else none) :=
  word_division (fromU64 (10 ^ 27 + 5)) (fromU64 (10 ^ 20)) (isZero_eq_false.2 (by rw [toNat_fromU64]; decide))

end BigUint

end Num
