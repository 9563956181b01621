-- SUMMARY: Intervals: their comparison against the order of spans, their justified forms, and their keys.
import Mathlib.Tactic.Ring
import Mathlib.Tactic.Linarith
import Mathlib.Order.Compare
import Rustgres.Values.KeyOrder

/-!
# Intervals

An interval is months, days and microseconds. Its comparison merges months into days, and looks at the time only
where these agree. The span of an interval merges all three.
-/

namespace Values

open Bytes (be ofBe ofBe_be length_be)
open Codecs (Put.i64)
open Encoding (Interval Value)

/-! ## The model -/

def usecsPerDay : Int := 86400000000

def intervalInfinity : Interval := ⟨Int32.maxValue, Int32.maxValue, Int64.maxValue⟩

def intervalNegInfinity : Interval := ⟨Int32.minValue, Int32.minValue, Int64.minValue⟩

def isFinite (iv : Interval) : Bool := iv ≠ intervalInfinity && iv ≠ intervalNegInfinity

/-- Months as 30 days each. -/
def dayCount (iv : Interval) : Int := iv.months.toInt * 30 + iv.days.toInt

def intervalCmpKey (iv : Interval) : Int × Int := (dayCount iv, iv.micros.toInt)

def intervalCmp (a b : Interval) : Ordering :=
  (compare (intervalCmpKey a).1 (intervalCmpKey b).1).then (compare (intervalCmpKey a).2 (intervalCmpKey b).2)

def checkedAddI32 (a b : Int32) : Option Int32 :=
  let sum := a.toInt + b.toInt
  if -2 ^ 31 ≤ sum ∧ sum < 2 ^ 31 then some (Int32.ofInt sum) else none

def intervalRange : String := "interval out of range"

def justifyDays (iv : Interval) : Except String Interval :=
  if !isFinite iv then .ok iv
  else
    let extraMonths := iv.days / 30
    match checkedAddI32 iv.months extraMonths with
    | none => .error intervalRange
    | some months => .ok ⟨months, iv.days - extraMonths * 30, iv.micros⟩

def justifyHours (iv : Interval) : Except String Interval :=
  if !isFinite iv then .ok iv
  else
    let extraDays := iv.micros / 86400000000
    match checkedAddI32 iv.days extraDays.toInt32 with
    | none => .error intervalRange
    | some days => .ok ⟨iv.months, days, iv.micros - extraDays * 86400000000⟩

def justifyInterval (iv : Interval) : Except String Interval :=
  match justifyHours iv with
  | .error e => .error e
  | .ok iv => justifyDays iv

/-- The bytes of an interval in a grouping or hash key. -/
def intervalKeyBytes (iv : Interval) : Bytes :=
  24 :: (be 16 ((intervalCmpKey iv).1 % 2 ^ 128).toNat ++ Put.i64 iv.micros)

/-! ## Spans -/

/-- The microseconds of an interval, with days of 24 hours and months of 30 days. -/
def intervalSpan (iv : Interval) : Int := dayCount iv * usecsPerDay + iv.micros.toInt

/-- Whichever has more days, the time of the other does not make up for them. -/
def DaysDecide (a b : Interval) : Prop :=
  (dayCount b < dayCount a → b.micros.toInt - a.micros.toInt < (dayCount a - dayCount b) * usecsPerDay) ∧
    (dayCount a < dayCount b → a.micros.toInt - b.micros.toInt < (dayCount b - dayCount a) * usecsPerDay)

instance (a b : Interval) : Decidable (DaysDecide a b) := inferInstanceAs (Decidable (_ ∧ _))

theorem intervalCmp_eq_iff (a b : Interval) :
    intervalCmp a b = .eq ↔ dayCount a = dayCount b ∧ a.micros = b.micros := by
  unfold intervalCmp intervalCmpKey
  rw [Ordering.then_eq_eq, compare_eq_iff_eq, compare_eq_iff_eq, Int64.toInt_inj]

theorem intervalSpan_sub (a b : Interval) : intervalSpan a - intervalSpan b
    = (dayCount a - dayCount b) * usecsPerDay + (a.micros.toInt - b.micros.toInt) := by
  unfold intervalSpan
  ring

/-- The comparison is the order of spans where the days decide. -/
theorem intervalCmp_span_iff (a b : Interval) :
    intervalCmp a b = compare (intervalSpan a) (intervalSpan b) ↔ DaysDecide a b := by
  have hsub := intervalSpan_sub a b
  unfold intervalCmp intervalCmpKey DaysDecide
  dsimp only
  rcases lt_trichotomy (dayCount a) (dayCount b) with h | h | h
  · rw [compare_lt_iff_lt.2 h]
    have hmul : (dayCount b - dayCount a) * usecsPerDay = -((dayCount a - dayCount b) * usecsPerDay) := by ring
    constructor
    · intro hcmp
      refine ⟨fun h' => absurd h' h.not_gt, fun _ => ?_⟩
      have hlt := compare_lt_iff_lt.1 hcmp.symm
      linarith
    · rintro ⟨-, hdecide⟩
      have := hdecide h
      show Ordering.lt = _
      symm
      apply compare_lt_iff_lt.2
      linarith
  · rw [compare_eq_iff_eq.2 h]
    refine ⟨fun _ => ⟨fun h' => absurd h h'.ne', fun h' => absurd h h'.ne⟩, fun _ => ?_⟩
    rw [h, sub_self, zero_mul, zero_add] at hsub
    show compare a.micros.toInt b.micros.toInt = _
    rcases lt_trichotomy a.micros.toInt b.micros.toInt with hm | hm | hm
    · rw [compare_lt_iff_lt.2 hm]
      symm
      apply compare_lt_iff_lt.2
      linarith
    · rw [compare_eq_iff_eq.2 hm]
      symm
      apply compare_eq_iff_eq.2
      linarith
    · rw [compare_gt_iff_gt.2 hm]
      symm
      apply compare_gt_iff_gt.2
      linarith
  · rw [compare_gt_iff_gt.2 h]
    constructor
    · intro hcmp
      refine ⟨fun _ => ?_, fun h' => absurd h' h.not_gt⟩
      have hlt := compare_gt_iff_gt.1 hcmp.symm
      linarith
    · rintro ⟨hdecide, -⟩
      have := hdecide h
      show Ordering.gt = _
      symm
      apply compare_gt_iff_gt.2
      linarith

/-! ## Justified intervals -/

/-- A truncated quotient and what is left have the sign of the dividend. -/
theorem tdiv_rest (x : Int) {k : Int} (hk : 0 < k) :
    ∃ r, x = x.tdiv k * k + r ∧ -k < r ∧ r < k ∧ (0 ≤ x → 0 ≤ r) ∧ (x ≤ 0 → r ≤ 0) := by
  refine ⟨x.tmod k, ?_, ?_, ?_, fun h => Int.tmod_nonneg k h, fun h => ?_⟩
  · rw [mul_comm]
    exact (Int.mul_tdiv_add_tmod x k).symm
  · exact Int.lt_tmod_of_pos x hk
  · exact Int.tmod_lt_of_pos x hk
  · have := Int.tmod_nonneg k (show 0 ≤ -x by omega)
    rw [Int.neg_tmod] at this
    omega

theorem toInt_i32_bounds (x : Int32) : -2 ^ 31 ≤ x.toInt ∧ x.toInt < 2 ^ 31 :=
  ⟨Int32.le_toInt x, Int32.toInt_lt x⟩

theorem checkedAddI32_some {a b s : Int32} (h : checkedAddI32 a b = some s) :
    s.toInt = a.toInt + b.toInt := by
  unfold checkedAddI32 at h
  dsimp only at h
  split at h
  · rename_i hrange
    cases h
    exact Int32.toInt_ofInt_of_le (by simpa using hrange.1) (by simpa using hrange.2)
  · cases h

/-- What is taken out of the days is what is put into the months. -/
theorem toInt_rest_days (d : Int32) : (d - d / 30 * 30).toInt = d.toInt - (d / 30).toInt * 30 := by
  have hd := toInt_i32_bounds d
  have hdiv : (d / 30).toInt = d.toInt.tdiv 30 := Int32.toInt_div_of_ne_right d 30 (by decide)
  obtain ⟨r, hr, hrlo, hrhi, hpos, hneg⟩ := tdiv_rest d.toInt (show (0 : Int) < 30 by decide)
  have hmul : (d / 30 * 30).toInt = (d / 30).toInt * 30 := by
    rw [Int32.toInt_mul, hdiv]
    have h30 : (30 : Int32).toInt = 30 := rfl
    rw [h30]
    apply Int.bmod_eq_of_le <;> omega
  rw [Int32.toInt_sub, hmul, hdiv]
  apply Int.bmod_eq_of_le <;> omega

theorem toInt_i64_bounds (x : Int64) : -2 ^ 63 ≤ x.toInt ∧ x.toInt < 2 ^ 63 :=
  ⟨Int64.le_toInt x, Int64.toInt_lt x⟩

theorem toInt_extraDays (m : Int64) :
    (m / 86400000000).toInt32.toInt = m.toInt.tdiv usecsPerDay := by
  have hm := toInt_i64_bounds m
  have hdiv : (m / 86400000000).toInt = m.toInt.tdiv usecsPerDay :=
    Int64.toInt_div_of_ne_right m 86400000000 (by decide)
  obtain ⟨r, hr, hrlo, hrhi, hpos, hneg⟩ := tdiv_rest m.toInt (show (0 : Int) < 86400000000 by decide)
  rw [Int64.toInt_toInt32, hdiv]
  unfold usecsPerDay
  apply Int.bmod_eq_of_le <;> omega

theorem toInt_rest_micros (m : Int64) :
    (m - m / 86400000000 * 86400000000).toInt = m.toInt - m.toInt.tdiv usecsPerDay * usecsPerDay := by
  have hm := toInt_i64_bounds m
  have hdiv : (m / 86400000000).toInt = m.toInt.tdiv usecsPerDay :=
    Int64.toInt_div_of_ne_right m 86400000000 (by decide)
  obtain ⟨r, hr, hrlo, hrhi, hpos, hneg⟩ := tdiv_rest m.toInt (show (0 : Int) < 86400000000 by decide)
  unfold usecsPerDay at hdiv ⊢
  have hday : (86400000000 : Int64).toInt = 86400000000 := by decide
  have hmul : (m / 86400000000 * 86400000000).toInt = m.toInt.tdiv 86400000000 * 86400000000 := by
    rw [Int64.toInt_mul, hdiv, hday]
    apply Int.bmod_eq_of_le <;> omega
  rw [Int64.toInt_sub, hmul]
  apply Int.bmod_eq_of_le <;> omega

/-- Justified days leave the days, with months as 30, and the time as they are. -/
theorem justifyDays_spec {iv j : Interval} (h : justifyDays iv = .ok j) :
    dayCount j = dayCount iv ∧ j.micros = iv.micros := by
  unfold justifyDays at h
  split at h
  · cases h
    exact ⟨rfl, rfl⟩
  · dsimp only at h
    split at h
    · cases h
    · rename_i months hmonths
      cases h
      refine ⟨?_, rfl⟩
      unfold dayCount
      dsimp only
      rw [checkedAddI32_some hmonths, toInt_rest_days]
      ring

/-- Justified hours move the whole days of the time. -/
theorem justifyHours_spec {iv j : Interval} (hfin : isFinite iv = true) (h : justifyHours iv = .ok j) :
    dayCount j = dayCount iv + iv.micros.toInt.tdiv usecsPerDay ∧
      j.micros.toInt = iv.micros.toInt - iv.micros.toInt.tdiv usecsPerDay * usecsPerDay := by
  unfold justifyHours at h
  rw [hfin, Bool.not_true, if_neg Bool.false_ne_true] at h
  dsimp only at h
  split at h
  · cases h
  · rename_i days hdays
    cases h
    refine ⟨?_, toInt_rest_micros iv.micros⟩
    unfold dayCount
    dsimp only
    rw [checkedAddI32_some hdays, toInt_extraDays]
    ring

/-- So the span stays the same. -/
theorem justifyHours_span {iv j : Interval} (h : justifyHours iv = .ok j) : intervalSpan j = intervalSpan iv := by
  cases hfin : isFinite iv with
  | true =>
      obtain ⟨hdays, hmicros⟩ := justifyHours_spec hfin h
      unfold intervalSpan
      rw [hdays, hmicros]
      ring
  | false =>
      unfold justifyHours at h
      rw [hfin, Bool.not_false, if_pos rfl] at h
      cases h
      rfl

theorem justifyHours_eq_iff {iv j : Interval} (hfin : isFinite iv = true) (h : justifyHours iv = .ok j) :
    intervalCmp j iv = .eq ↔ -usecsPerDay < iv.micros.toInt ∧ iv.micros.toInt < usecsPerDay := by
  obtain ⟨hdays, hmicros⟩ := justifyHours_spec hfin h
  obtain ⟨r, hr, hrlo, hrhi, hpos, hneg⟩ := tdiv_rest iv.micros.toInt (show (0 : Int) < 86400000000 by decide)
  rw [intervalCmp_eq_iff, hdays, ← Int64.toInt_inj, hmicros]
  unfold usecsPerDay
  constructor
  · rintro ⟨hzero, -⟩
    omega
  · rintro ⟨hlo, hhi⟩
    omega

/-! ## Keys -/

theorem be_inj {w m n : Nat} (hm : m < 256 ^ w) (hn : n < 256 ^ w) (h : be w m = be w n) : m = n := by
  have := congrArg ofBe h
  rwa [ofBe_be, ofBe_be, Nat.mod_eq_of_lt hm, Nat.mod_eq_of_lt hn] at this

theorem i64_inj {x y : Int64} (h : Put.i64 x = Put.i64 y) : x = y := by
  have hx := x.toUInt64.toNat_lt
  have hy := y.toUInt64.toNat_lt
  have := be_inj (by simpa using hx) (by simpa using hy) h
  have heq := congrArg UInt64.toInt64 (UInt64.toNat_inj.1 this)
  rwa [Int64.toInt64_toUInt64, Int64.toInt64_toUInt64] at heq

theorem dayCount_bounds (iv : Interval) : -2 ^ 127 ≤ dayCount iv ∧ dayCount iv < 2 ^ 127 := by
  have hm := toInt_i32_bounds iv.months
  have hd := toInt_i32_bounds iv.days
  unfold dayCount
  omega

/-- Keys are equal for equal intervals only. -/
theorem intervalKeyBytes_inj_iff (a b : Interval) :
    intervalKeyBytes a = intervalKeyBytes b ↔ intervalCmp a b = .eq := by
  rw [intervalCmp_eq_iff]
  unfold intervalKeyBytes intervalCmpKey
  dsimp only
  constructor
  · intro h
    have hlen : (be 16 (dayCount a % 2 ^ 128).toNat).length = (be 16 (dayCount b % 2 ^ 128).toNat).length := by
      rw [length_be, length_be]
    obtain ⟨hdays, hmicros⟩ := List.append_inj (List.cons.inj h).2 hlen
    refine ⟨?_, i64_inj hmicros⟩
    have hbound : ∀ z : Int, (z % 2 ^ 128).toNat < 256 ^ 16 := by
      intro z
      omega
    have hmod := be_inj (hbound _) (hbound _) hdays
    have ha := dayCount_bounds a
    have hb := dayCount_bounds b
    omega
  · rintro ⟨hdays, hmicros⟩
    rw [hdays, hmicros]

/-- There is no arm for intervals in the comparison of index keys. -/
theorem indexKeyCmp_interval (K : KeyOrders) (a b : Interval) :
    indexKeyCmp K (.interval a) (.interval b) = .eq := rfl

/-! ## The infinite ones -/

theorem dayCount_infinity : dayCount intervalInfinity = 2147483647 * 31 := by decide

theorem dayCount_negInfinity : dayCount intervalNegInfinity = -2147483648 * 31 := by decide

theorem lt_infinity {iv : Interval} (h : isFinite iv = true) : intervalCmp iv intervalInfinity = .lt := by
  have hm := toInt_i32_bounds iv.months
  have hd := toInt_i32_bounds iv.days
  have ht := toInt_i64_bounds iv.micros
  have hmax : intervalInfinity.micros.toInt = 2 ^ 63 - 1 := by decide
  have hdays : dayCount iv ≤ dayCount intervalInfinity := by
    rw [dayCount_infinity]
    unfold dayCount
    omega
  unfold intervalCmp intervalCmpKey
  dsimp only
  rcases lt_or_eq_of_le hdays with hlt | heq
  · rw [compare_lt_iff_lt.2 hlt]
    rfl
  · rw [compare_eq_iff_eq.2 heq]
    show compare iv.micros.toInt intervalInfinity.micros.toInt = .lt
    rw [compare_lt_iff_lt]
    apply lt_of_le_of_ne
    · omega
    · intro hmicros
      have heq' := heq
      rw [dayCount_infinity] at heq'
      unfold dayCount at heq'
      have hmonths : iv.months = Int32.maxValue := by
        rw [← Int32.toInt_inj]
        have : Int32.maxValue.toInt = 2147483647 := by decide
        omega
      have hdays' : iv.days = Int32.maxValue := by
        rw [← Int32.toInt_inj]
        have : Int32.maxValue.toInt = 2147483647 := by decide
        omega
      have hsame : iv = intervalInfinity := by
        obtain ⟨m, d, t⟩ := iv
        have hmicros' : t = Int64.maxValue := Int64.toInt_inj.1 hmicros
        cases hmonths; cases hdays'; cases hmicros'
        rfl
      rw [hsame] at h
      exact absurd h (by decide)

theorem negInfinity_lt {iv : Interval} (h : isFinite iv = true) :
    intervalCmp intervalNegInfinity iv = .lt := by
  have hm := toInt_i32_bounds iv.months
  have hd := toInt_i32_bounds iv.days
  have ht := toInt_i64_bounds iv.micros
  have hmin : intervalNegInfinity.micros.toInt = -2 ^ 63 := by decide
  have hdays : dayCount intervalNegInfinity ≤ dayCount iv := by
    rw [dayCount_negInfinity]
    unfold dayCount
    omega
  unfold intervalCmp intervalCmpKey
  dsimp only
  rcases lt_or_eq_of_le hdays with hlt | heq
  · rw [compare_lt_iff_lt.2 hlt]
    rfl
  · rw [compare_eq_iff_eq.2 heq]
    show compare intervalNegInfinity.micros.toInt iv.micros.toInt = .lt
    rw [compare_lt_iff_lt]
    apply lt_of_le_of_ne
    · omega
    · intro hmicros
      have heq' := heq
      rw [dayCount_negInfinity] at heq'
      unfold dayCount at heq'
      have hmonths : iv.months = Int32.minValue := by
        rw [← Int32.toInt_inj]
        have : Int32.minValue.toInt = -2147483648 := by decide
        omega
      have hdays' : iv.days = Int32.minValue := by
        rw [← Int32.toInt_inj]
        have : Int32.minValue.toInt = -2147483648 := by decide
        omega
      have hsame : iv = intervalNegInfinity := by
        obtain ⟨m, d, t⟩ := iv
        have hmicros' : t = Int64.minValue := (Int64.toInt_inj.1 hmicros).symm
        cases hmonths; cases hdays'; cases hmicros'
        rfl
      rw [hsame] at h
      exact absurd h (by decide)

/-! ## The order of intervals -/

/-- Where the comparison of two finite intervals is the order of spans, and which keys and justified forms agree
with it. -/
theorem interval_order (a b : Interval) (ha : isFinite a = true) :
    (intervalCmp a b = compare (intervalSpan a) (intervalSpan b) ↔ DaysDecide a b) ∧
    (∀ j, justifyDays a = .ok j → intervalCmp j a = .eq) ∧
    (∀ j, justifyHours a = .ok j →
      (intervalCmp j a = .eq ↔ -usecsPerDay < a.micros.toInt ∧ a.micros.toInt < usecsPerDay)) ∧
    (intervalKeyBytes a = intervalKeyBytes b ↔ intervalCmp a b = .eq) ∧
    (∀ K, (indexKeyCmp K (.interval a) (.interval b) = .eq ↔ intervalCmp a b = .eq) ↔
      dayCount a = dayCount b ∧ a.micros = b.micros) ∧
    intervalCmp intervalNegInfinity a = .lt ∧ intervalCmp a intervalInfinity = .lt := by
  refine ⟨intervalCmp_span_iff a b, fun j hj => ?_, fun j hj => justifyHours_eq_iff ha hj,
    intervalKeyBytes_inj_iff a b, fun K => ?_, negInfinity_lt ha, lt_infinity ha⟩
  · rw [intervalCmp_eq_iff]
    exact justifyDays_spec hj
  · rw [intervalCmp_eq_iff]
    exact ⟨fun h => h.1 (indexKeyCmp_interval K a b), fun h => ⟨fun _ => h, fun _ => indexKeyCmp_interval K a b⟩⟩

/-- A day, and 24 hours. -/
def oneDay : Interval := ⟨0, 1, 0⟩

def dayOfHours : Interval := ⟨0, 0, 86400000000⟩

theorem interval_order_day :
    (intervalCmp oneDay dayOfHours = compare (intervalSpan oneDay) (intervalSpan dayOfHours) ↔
      DaysDecide oneDay dayOfHours) ∧ intervalCmp intervalNegInfinity oneDay = .lt :=
  have h := interval_order oneDay dayOfHours (by decide)
  ⟨h.1, h.2.2.2.2.2.1⟩

theorem day_unequal :
    intervalSpan oneDay = intervalSpan dayOfHours ∧ intervalCmp oneDay dayOfHours = .gt ∧
      justifyHours dayOfHours = .ok oneDay ∧ intervalCmp oneDay dayOfHours ≠ .eq := by
  decide

end Values
