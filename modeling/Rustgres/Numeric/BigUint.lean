-- SUMMARY: Unsigned integers of any size in limbs of nine decimal digits.
import Rustgres.Lib.Decimal
import Rustgres.Lib.LongDivision

/-!
# Big Unsigned Integers

The magnitudes behind a numeric: little-endian limbs below a thousand million, without leading zero limbs.
Every operation is given by what it does to the number the limbs denote.
-/

namespace Num

open Limbs Decimal

def base : Nat := 1000000000

theorem one_lt_base : 1 < base := by decide

theorem base_pos : 0 < base := by decide

theorem base_eq : base = 10 ^ 9 := by decide

structure BigUint where
  limbs : List Nat
  below : Below base limbs
  trimmed : Trimmed limbs
deriving DecidableEq

namespace BigUint

def toNat (m : BigUint) : Nat := Nat.ofDigits base m.limbs

theorem ext_toNat {m n : BigUint} (h : m.toNat = n.toNat) : m = n := by
  have hm := eq_digits one_lt_base m.below m.trimmed
  have hn := eq_digits one_lt_base n.below n.trimmed
  obtain ⟨ml, _, _⟩ := m
  obtain ⟨nl, _, _⟩ := n
  unfold toNat at h
  simp only [mk.injEq] at hm hn h ⊢
  rw [hm, hn, h]

theorem toNat_inj {m n : BigUint} : m.toNat = n.toNat ↔ m = n :=
  ⟨ext_toNat, fun h => by rw [h]⟩

def zero : BigUint := ⟨[], below_nil, fun h => absurd rfl h⟩

@[simp] theorem toNat_zero : zero.toNat = 0 := rfl

def isZero (m : BigUint) : Bool := m.limbs.isEmpty

theorem isZero_iff {m : BigUint} : m.isZero = true ↔ m.toNat = 0 := by
  rw [isZero, List.isEmpty_iff]
  constructor
  · intro h
    rw [toNat, h]
    rfl
  · intro h
    have hz : m = zero := ext_toNat h
    rw [hz]
    rfl

theorem isZero_eq_false {m : BigUint} : m.isZero = false ↔ 0 < m.toNat := by
  have h := isZero_iff (m := m)
  cases hz : m.isZero with
  | false =>
      rw [hz] at h
      simp only [Bool.false_eq_true, false_iff] at h
      simp only [true_iff]
      omega
  | true =>
      rw [hz] at h
      simp only [true_iff] at h
      simp only [Bool.true_eq_false, false_iff]
      omega

/-- Limbs without the leading zeros. -/
def normalize (l : List Nat) (h : Below base l) : BigUint := ⟨trim l, below_trim h, trimmed_trim l⟩

@[simp] theorem toNat_normalize (l : List Nat) (h : Below base l) :
    (normalize l h).toNat = Nat.ofDigits base l := value_trim l

def fromU64 (v : Nat) : BigUint := ⟨Nat.digits base v, below_digits one_lt_base v, trimmed_digits base v⟩

def fromU128 (v : Nat) : BigUint := fromU64 v

@[simp] theorem toNat_fromU64 (v : Nat) : (fromU64 v).toNat = v := Nat.ofDigits_digits base v

@[simp] theorem toNat_fromU128 (v : Nat) : (fromU128 v).toNat = v := toNat_fromU64 v

theorem fromU64_toNat (m : BigUint) : fromU64 m.toNat = m := ext_toNat (toNat_fromU64 _)

/-! ## Order -/

def cmp (m n : BigUint) : Ordering := compareLimbs m.limbs n.limbs

theorem cmp_eq (m n : BigUint) : m.cmp n = compare m.toNat n.toNat :=
  compareLimbs_eq one_lt_base m.below n.below m.trimmed n.trimmed

/-! ## Sums, differences, products -/

def addAssign (m n : BigUint) : BigUint :=
  ⟨add base m.limbs n.limbs 0, below_add one_lt_base _ _ _, trimmed_add base_pos m.trimmed n.trimmed 0⟩

@[simp] theorem toNat_addAssign (m n : BigUint) : (m.addAssign n).toNat = m.toNat + n.toNat :=
  value_add m.limbs n.limbs 0

def addSmallAssign (m : BigUint) (v : Nat) : BigUint :=
  ⟨add base m.limbs [] v, below_add one_lt_base _ _ _,
    trimmed_add base_pos m.trimmed (fun h => absurd rfl h) v⟩

@[simp] theorem toNat_addSmallAssign (m : BigUint) (v : Nat) : (m.addSmallAssign v).toNat = m.toNat + v :=
  value_add m.limbs [] v

/-- The first is at least the second. -/
def subAssign (m n : BigUint) : BigUint := normalize (sub base m.limbs n.limbs 0) (below_sub m.below n.below)

theorem toNat_subAssign {m n : BigUint} (h : n.toNat ≤ m.toNat) :
    (m.subAssign n).toNat = m.toNat - n.toNat := by
  have hsub := value_sub m.below n.below (Nat.zero_le 1) h base_pos
  rw [subAssign, toNat_normalize]
  unfold toNat at h ⊢
  omega

def mulSmallAssign (m : BigUint) (k : Nat) : BigUint :=
  if h : k = 0 ∨ m.isZero then zero
  else if k = 1 then m
  else ⟨mulSmall base k m.limbs 0, below_mulSmall one_lt_base _ _ _,
    trimmed_mulSmall base_pos (by omega) m.trimmed 0⟩

@[simp] theorem toNat_mulSmallAssign (m : BigUint) (k : Nat) : (m.mulSmallAssign k).toNat = m.toNat * k := by
  unfold mulSmallAssign
  split
  · rename_i h
    rcases h with rfl | h
    · rfl
    · rw [isZero_iff.1 h, Nat.zero_mul]
      rfl
  · split
    · rename_i h
      rw [h, Nat.mul_one]
    · exact value_mulSmall k m.limbs 0

/-- Whole limbs of zeros below. -/
def shiftLimbs (m : BigUint) (q : Nat) : BigUint :=
  if h : m.limbs = [] then zero
  else ⟨shift q m.limbs, below_shift base_pos q m.below, Trimmed.append m.trimmed h⟩

@[simp] theorem toNat_shiftLimbs (m : BigUint) (q : Nat) : (m.shiftLimbs q).toNat = m.toNat * base ^ q := by
  unfold shiftLimbs
  split
  · rename_i h
    rw [toNat, toNat, h]
    simp [zero]
  · exact value_shift q m.limbs

def mulPow10Assign (m : BigUint) (k : Nat) : BigUint :=
  if m.isZero ∨ k = 0 then m
  else
    let low := if 0 < k % 9 then m.mulSmallAssign (10 ^ (k % 9)) else m
    if 0 < k / 9 then low.shiftLimbs (k / 9) else low

theorem pow_split (k : Nat) : 10 ^ (k % 9) * base ^ (k / 9) = 10 ^ k := by
  rw [base_eq, ← pow_mul, ← pow_add, Nat.mod_add_div]

@[simp] theorem toNat_mulPow10Assign (m : BigUint) (k : Nat) :
    (m.mulPow10Assign k).toNat = m.toNat * 10 ^ k := by
  unfold mulPow10Assign
  split
  · rename_i h
    rcases h with h | rfl
    · rw [isZero_iff.1 h, Nat.zero_mul]
    · rw [pow_zero, Nat.mul_one]
  · have hlow : (if 0 < k % 9 then m.mulSmallAssign (10 ^ (k % 9)) else m).toNat
        = m.toNat * 10 ^ (k % 9) := by
      split
      · exact toNat_mulSmallAssign _ _
      · rename_i h
        rw [show k % 9 = 0 by omega, pow_zero, Nat.mul_one]
    dsimp only
    split
    · rw [toNat_shiftLimbs, hlow, Nat.mul_assoc, pow_split]
    · rename_i h
      rw [hlow, ← pow_split k, show k / 9 = 0 by omega, pow_zero, Nat.mul_one]

def mul (m n : BigUint) : BigUint :=
  if m.isZero ∨ n.isZero then zero
  else normalize (Limbs.mul base m.limbs n.limbs) (below_mul one_lt_base _ _)

@[simp] theorem toNat_mul (m n : BigUint) : (m.mul n).toNat = m.toNat * n.toNat := by
  unfold mul
  split
  · rename_i h
    rcases h with h | h
    · rw [isZero_iff.1 h, Nat.zero_mul]
      rfl
    · rw [isZero_iff.1 h, Nat.mul_zero]
      rfl
  · rw [toNat_normalize, value_mul]
    rfl

/-! ## Division -/

def divRemSmall (m : BigUint) (d : Nat) : BigUint × Nat :=
  (normalize (divSmall base d m.limbs).1 (below_divSmall base_pos d m.below), (divSmall base d m.limbs).2)

theorem divRemSmall_unique (m : BigUint) {d : Nat} (hd : 0 < d) :
    m.toNat / d = Nat.ofDigits base (divSmall base d m.limbs).1 ∧
      m.toNat % d = (divSmall base d m.limbs).2 := by
  have hval := value_divSmall (b := base) d m.limbs
  apply (Nat.div_mod_unique hd).2
  refine ⟨?_, divSmall_lt hd m.limbs⟩
  rw [Nat.mul_comm d, Nat.add_comm]
  exact hval

theorem toNat_divRemSmall (m : BigUint) {d : Nat} (hd : 0 < d) : (m.divRemSmall d).1.toNat = m.toNat / d := by
  rw [divRemSmall, toNat_normalize]
  exact (divRemSmall_unique m hd).1.symm

theorem snd_divRemSmall (m : BigUint) {d : Nat} (hd : 0 < d) : (m.divRemSmall d).2 = m.toNat % d :=
  (divRemSmall_unique m hd).2.symm

/-- The value when there is one limb at most. -/
def ofSmall (r : Nat) (h : r < base) : BigUint :=
  if hr : r = 0 then zero
  else ⟨[r], below_cons.2 ⟨h, below_nil⟩, fun _ => by rwa [List.getLast_singleton]⟩

@[simp] theorem toNat_ofSmall (r : Nat) (h : r < base) : (ofSmall r h).toNat = r := by
  unfold ofSmall
  split
  · rename_i hr
    rw [hr]
    rfl
  · exact Nat.ofDigits_singleton

theorem length_le_of_cmp {m n : BigUint} (h : m.cmp n ≠ .lt) : n.limbs.length ≤ m.limbs.length := by
  by_contra hcon
  apply h
  unfold cmp compareLimbs
  rw [if_neg (by omega), Nat.compare_eq_lt]
  omega

/-- Quotient and remainder; the divisor is not zero. -/
def divRem (m n : BigUint) : BigUint × BigUint :=
  if hlt : m.cmp n = .lt then (zero, m)
  else if n.limbs.length = 1 then
    ((m.divRemSmall (n.limbs.headD 0)).1,
      fromU64 (m.divRemSmall (n.limbs.headD 0)).2)
  else if hn : 2 ≤ n.limbs.length then
    have hspec := divFull_spec one_lt_base hn (length_le_of_cmp hlt) m.below n.below n.trimmed
    (normalize (divFull base m.limbs n.limbs).1 hspec.1, normalize (divFull base m.limbs n.limbs).2 hspec.2.1)
  else (zero, zero)

theorem divRem_spec (m : BigUint) {n : BigUint} (h : 0 < n.toNat) :
    (m.divRem n).1.toNat = m.toNat / n.toNat ∧ (m.divRem n).2.toNat = m.toNat % n.toNat := by
  unfold divRem
  split
  · rename_i hlt
    rw [cmp_eq, Nat.compare_eq_lt] at hlt
    exact ⟨(Nat.div_eq_of_lt hlt).symm, (Nat.mod_eq_of_lt hlt).symm⟩
  · rename_i hlt
    split
    · rename_i hone
      obtain ⟨d, hd⟩ := List.length_eq_one_iff.1 hone
      have hval : n.toNat = d := by
        rw [toNat, hd, Nat.ofDigits_singleton]
      rw [hval] at h ⊢
      rw [hd]
      exact ⟨toNat_divRemSmall m h, by rw [toNat_fromU64]; exact snd_divRemSmall m h⟩
    · rename_i hone
      have hne : n.limbs ≠ [] := by
        intro hnil
        rw [toNat, hnil] at h
        cases h
      have hpos := List.length_pos_of_ne_nil hne
      have htwo : 2 ≤ n.limbs.length := by omega
      obtain ⟨-, -, hq, hr⟩ := divFull_spec one_lt_base htwo (length_le_of_cmp hlt) m.below n.below n.trimmed
      rw [dif_pos htwo, toNat_normalize, toNat_normalize]
      exact ⟨hq, hr⟩

theorem toNat_quot (m : BigUint) {n : BigUint} (h : 0 < n.toNat) :
    (m.divRem n).1.toNat = m.toNat / n.toNat := (divRem_spec m h).1

theorem toNat_rem (m : BigUint) {n : BigUint} (h : 0 < n.toNat) :
    (m.divRem n).2.toNat = m.toNat % n.toNat := (divRem_spec m h).2

/-- The exponent of a limb that is a power of ten. -/
def limbPow10 : Nat → Option Nat
  | 1 => some 0
  | 10 => some 1
  | 100 => some 2
  | 1000 => some 3
  | 10000 => some 4
  | 100000 => some 5
  | 1000000 => some 6
  | 10000000 => some 7
  | 100000000 => some 8
  | _ => none

theorem limbPow10_eq_some {l j : Nat} (h : limbPow10 l = some j) : l = 10 ^ j := by
  unfold limbPow10 at h
  split at h
  all_goals
    cases h
    try rfl

def scanPow10 : List Nat → Nat → Bool → Option Nat
  | [], k, seen => if seen then some k else none
  | l :: ls, k, seen =>
    if l = 0 then scanPow10 ls (k + 9) seen
    else if seen then none
    else (limbPow10 l).bind fun j => scanPow10 ls (k + j) true

def asPow10 (m : BigUint) : Option Nat := scanPow10 m.limbs 0 false

theorem scanPow10_seen {ls : List Nat} {k e : Nat} (ht : Trimmed ls) (h : scanPow10 ls k true = some e) :
    ls = [] ∧ e = k := by
  induction ls generalizing k with
  | nil =>
      cases h
      exact ⟨rfl, rfl⟩
  | cons l ls ih =>
      rw [scanPow10] at h
      split at h
      · rename_i hl
        obtain ⟨rfl, -⟩ := ih ht.rest h
        exact absurd hl ht.head_ne_zero
      · cases h

theorem scanPow10_eq_some {ls : List Nat} {k e : Nat} (ht : Trimmed ls)
    (h : scanPow10 ls k false = some e) : Nat.ofDigits base ls * 10 ^ k = 10 ^ e := by
  induction ls generalizing k with
  | nil => cases h
  | cons l ls ih =>
      rw [scanPow10] at h
      split at h
      · rename_i hl
        rw [hl, Nat.ofDigits_cons, ← ih ht.rest h, pow_add, base_eq]
        ring
      · obtain ⟨j, hj, h⟩ := Option.bind_eq_some_iff.1 h
        obtain ⟨rfl, rfl⟩ := scanPow10_seen ht.rest h
        rw [Nat.ofDigits_singleton, limbPow10_eq_some hj, ← pow_add, Nat.add_comm]

theorem asPow10_eq_some {m : BigUint} {k : Nat} (h : m.asPow10 = some k) : m.toNat = 10 ^ k := by
  have hscan := scanPow10_eq_some m.trimmed h
  rwa [pow_zero, Nat.mul_one] at hscan

/-- The limbs above a place and those below it. -/
def splitLimbs (l : List Nat) (full : Nat) : List Nat × List Nat :=
  if l.length ≤ full then ([], l) else (l.drop full, l.take full)

theorem splitLimbs_spec {l : List Nat} (h : Below base l) (full : Nat) :
    Nat.ofDigits base l
        = Nat.ofDigits base (splitLimbs l full).1 * base ^ full + Nat.ofDigits base (splitLimbs l full).2 ∧
      Nat.ofDigits base (splitLimbs l full).2 < base ^ full ∧
      Below base (splitLimbs l full).1 ∧ Below base (splitLimbs l full).2 := by
  unfold splitLimbs
  split
  · rename_i hle
    refine ⟨by simp, ?_, below_nil, h⟩
    calc Nat.ofDigits base l < base ^ l.length := value_lt one_lt_base h
      _ ≤ base ^ full := Nat.pow_le_pow_right base_pos hle
  · rename_i hgt
    have hlow := value_lt one_lt_base (below_take h full)
    have hsum := value_take_drop (b := base) full l
    rw [List.length_take, Nat.min_eq_left (by omega)] at hlow
    rw [Nat.min_eq_left (by omega)] at hsum
    refine ⟨?_, hlow, fun x hx => h x (List.mem_of_mem_drop hx), below_take h full⟩
    rw [hsum]
    ring

theorem trimmed_splitLimbs {l : List Nat} (h : Trimmed l) (full : Nat) : Trimmed (splitLimbs l full).1 := by
  unfold splitLimbs
  split
  · exact fun hne => absurd rfl hne
  · intro hne
    have hl : l ≠ [] := by
      rintro rfl
      rw [List.drop_nil] at hne
      exact hne rfl
    rw [List.getLast_drop]
    exact h hl

/-- The limbs divided by ten to less than nine, and the remainder. -/
def dropPart (m : BigUint) (part : Nat) : BigUint × Nat :=
  if 0 < part then m.divRemSmall (10 ^ part) else (m, 0)

theorem dropPart_spec (m : BigUint) (part : Nat) :
    m.toNat = (m.dropPart part).1.toNat * 10 ^ part + (m.dropPart part).2 ∧
      (m.dropPart part).2 < 10 ^ part := by
  have hd : 0 < 10 ^ part := Nat.pow_pos (by decide)
  unfold dropPart
  split
  · rw [toNat_divRemSmall m hd, snd_divRemSmall m hd]
    exact ⟨(Nat.div_add_mod' _ _).symm, Nat.mod_lt _ hd⟩
  · rename_i h
    rw [Nat.eq_zero_of_not_pos h]
    exact ⟨by simp, by simp⟩

/-- The remainder put together again. -/
def joinRem (low : List Nat) (part rem : Nat) : List Nat :=
  let scaled := if 0 < part then mulSmall base (10 ^ part) low 0 else low
  if 0 < rem then add base scaled [] rem else scaled

theorem joinRem_spec {low : List Nat} (h : Below base low) (part rem : Nat) :
    Nat.ofDigits base (joinRem low part rem) = Nat.ofDigits base low * 10 ^ part + rem ∧
      Below base (joinRem low part rem) := by
  have hscaled : Nat.ofDigits base (if 0 < part then mulSmall base (10 ^ part) low 0 else low)
      = Nat.ofDigits base low * 10 ^ part := by
    split
    · rw [value_mulSmall, Nat.add_zero]
    · rename_i hp
      rw [Nat.eq_zero_of_not_pos hp, pow_zero, Nat.mul_one]
  have hbelow : Below base (if 0 < part then mulSmall base (10 ^ part) low 0 else low) := by
    split
    · exact below_mulSmall one_lt_base _ _ _
    · exact h
  unfold joinRem
  dsimp only
  split
  · rw [value_add, hscaled, Nat.ofDigits_nil, Nat.add_zero]
    exact ⟨rfl, below_add one_lt_base _ _ _⟩
  · rename_i hr
    rw [hscaled, Nat.eq_zero_of_not_pos hr, Nat.add_zero]
    exact ⟨rfl, hbelow⟩

def divRemPow10 (m : BigUint) (k : Nat) : BigUint × BigUint :=
  if m.isZero ∨ k = 0 then (m, zero)
  else
    let q := (m.dropPart (k % 9)).1
    let parts := splitLimbs q.limbs (k / 9)
    have hparts := splitLimbs_spec q.below (k / 9)
    (⟨parts.1, hparts.2.2.1, trimmed_splitLimbs q.trimmed _⟩,
      normalize (joinRem parts.2 (k % 9) (m.dropPart (k % 9)).2) (joinRem_spec hparts.2.2.2 _ _).2)

theorem divRemPow10_spec (m : BigUint) (k : Nat) :
    (m.divRemPow10 k).1.toNat = m.toNat / 10 ^ k ∧ (m.divRemPow10 k).2.toNat = m.toNat % 10 ^ k := by
  have hpow : 0 < 10 ^ k := Nat.pow_pos (by decide)
  unfold divRemPow10
  split
  · rename_i h
    rcases h with h | rfl
    · rw [isZero_iff.1 h, Nat.zero_div, Nat.zero_mod]
      exact ⟨rfl, rfl⟩
    · rw [pow_zero, Nat.div_one, Nat.mod_one]
      exact ⟨rfl, rfl⟩
  · dsimp only
    obtain ⟨hval, hrem⟩ := dropPart_spec m (k % 9)
    obtain ⟨hsum, hlow, -, hbelow⟩ := splitLimbs_spec (m.dropPart (k % 9)).1.below (k / 9)
    obtain ⟨hjoin, -⟩ := joinRem_spec hbelow (k % 9) (m.dropPart (k % 9)).2
    have hsplit := pow_split k
    rw [toNat_normalize, hjoin]
    have h := (Nat.div_mod_unique (a := m.toNat)
      (d := Nat.ofDigits base (splitLimbs (m.dropPart (k % 9)).1.limbs (k / 9)).1)
      (c := Nat.ofDigits base (splitLimbs (m.dropPart (k % 9)).1.limbs (k / 9)).2 * 10 ^ (k % 9)
        + (m.dropPart (k % 9)).2) hpow).2 ⟨?_, ?_⟩
    · exact ⟨h.1.symm, h.2.symm⟩
    · rw [hval, toNat, hsum, ← hsplit]
      ring
    · have hmul := Nat.mul_le_mul_right (10 ^ (k % 9)) (Nat.succ_le_of_lt hlow)
      rw [Nat.succ_mul] at hmul
      rw [← hsplit, Nat.mul_comm (10 ^ (k % 9))]
      omega

/-! ## Sizes and machine integers -/

/-- Place and value of the most significant limb that is not zero. -/
def topLimb : List Nat → Option (Nat × Nat)
  | [] => none
  | l :: ls =>
    match topLimb ls with
    | some (i, t) => some (i + 1, t)
    | none => if l = 0 then none else some (0, l)

def decimalDigits (m : BigUint) : Nat :=
  match topLimb m.limbs with
  | none => 0
  | some (i, t) => numDigits t + 9 * i

theorem topLimb_eq_none {ls : List Nat} (h : topLimb ls = none) : Nat.ofDigits base ls = 0 := by
  induction ls with
  | nil => rfl
  | cons l ls ih =>
      unfold topLimb at h
      cases htop : topLimb ls with
      | some p =>
          rw [htop] at h
          cases h
      | none =>
          rw [htop] at h
          dsimp only at h
          split at h
          · rename_i hl
            rw [Nat.ofDigits_cons, hl, ih htop, Nat.mul_zero]
          · cases h

theorem topLimb_eq_some {ls : List Nat} (hb : Below base ls) {i t : Nat} (h : topLimb ls = some (i, t)) :
    0 < Nat.ofDigits base ls ∧ numDigits (Nat.ofDigits base ls) = numDigits t + 9 * i := by
  induction ls generalizing i with
  | nil => cases h
  | cons l ls ih =>
      obtain ⟨hl, hls⟩ := below_cons.1 hb
      rw [base_eq] at hl
      unfold topLimb at h
      cases htop : topLimb ls with
      | some p =>
          rw [htop] at h
          cases h
          obtain ⟨hpos, hdig⟩ := ih hls htop
          rw [Nat.ofDigits_cons]
          refine ⟨Nat.add_pos_right _ (Nat.mul_pos base_pos hpos), ?_⟩
          have hadd := numDigits_add hl hpos
          rw [← base_eq] at hadd
          rw [hadd, hdig]
          ring
      | none =>
          rw [htop] at h
          dsimp only at h
          split at h
          · cases h
          · rename_i hne
            cases h
            rw [Nat.ofDigits_cons, topLimb_eq_none htop, Nat.mul_zero, Nat.add_zero]
            exact ⟨by omega, rfl⟩

theorem decimalDigits_eq (m : BigUint) : m.decimalDigits = numDigits m.toNat := by
  unfold decimalDigits
  cases htop : topLimb m.limbs with
  | none => rw [toNat, topLimb_eq_none htop, numDigits_zero]
  | some p => exact (topLimb_eq_some m.below htop).2.symm

/-- A machine integer holds magnitudes up to a bound. -/
def checked (hi v : Nat) : Option Nat := if v ≤ hi then some v else none

/-- The limbs read from the top into a machine integer. -/
def toBounded (hi : Nat) : List Nat → Option Nat
  | [] => some 0
  | l :: ls => (toBounded hi ls).bind fun v => (checked hi (v * base)).bind fun w => checked hi (w + l)

theorem toBounded_eq (hi : Nat) (ls : List Nat) :
    toBounded hi ls = checked hi (Nat.ofDigits base ls) := by
  induction ls with
  | nil =>
      rw [toBounded, Nat.ofDigits_nil, checked, if_pos (Nat.zero_le hi)]
  | cons l ls ih =>
      rw [toBounded, ih, Nat.ofDigits_cons, Nat.add_comm l, Nat.mul_comm base]
      generalize Nat.ofDigits base ls = v
      have hpos := base_pos
      have hle : v ≤ v * base := Nat.le_mul_of_pos_right v hpos
      unfold checked
      by_cases h₁ : v ≤ hi
      · by_cases h₂ : v * base ≤ hi
        · rw [if_pos h₁, Option.bind_some, if_pos h₂, Option.bind_some]
        · rw [if_pos h₁, Option.bind_some, if_neg h₂, if_neg (by omega), Option.bind_none]
      · rw [if_neg h₁, if_neg (by omega), Option.bind_none]

def u128Max : Nat := 2 ^ 128 - 1
def i128Max : Nat := 2 ^ 127 - 1

def toU128 (m : BigUint) : Option Nat := toBounded u128Max m.limbs

def toI128 (m : BigUint) : Option Nat := toBounded i128Max m.limbs

theorem toU128_eq (m : BigUint) : m.toU128 = checked u128Max m.toNat := toBounded_eq _ _

theorem toI128_eq (m : BigUint) : m.toI128 = checked i128Max m.toNat := toBounded_eq _ _

end BigUint

end Num
