-- SUMMARY: The proleptic Gregorian calendar: civil dates, their day numbers, and that these count the days.
import Mathlib.Tactic.Common
import Mathlib.Tactic.IntervalCases
import Mathlib.Algebra.Group.Int.Defs
import Mathlib.Order.Monotone.Basic
import Mathlib.Algebra.Order.Group.Int
import Mathlib.Data.Int.ConditionallyCompleteOrder

/-!
# The Gregorian Calendar

The leap rule is extended to all years, with a year zero and negative years before it. A civil date has a number,
which counts the days from the first of January of the year one. Every whole number is the number of exactly one
civil date, and the numbers follow the order of the dates.
-/

namespace Gregorian

def IsLeap (y : Int) : Prop := y % 4 = 0 ∧ y % 100 ≠ 0 ∨ y % 400 = 0

instance (y : Int) : Decidable (IsLeap y) := inferInstanceAs (Decidable (_ ∨ _))

def monthLength (y m : Int) : Int :=
  if m = 2 then if IsLeap y then 29 else 28
  else if m = 4 ∨ m = 6 ∨ m = 9 ∨ m = 11 then 30
  else 31

def yearLength (y : Int) : Int := if IsLeap y then 366 else 365

/-- A date of the calendar. -/
structure CivilDate where
  year : Int
  month : Int
  day : Int
  one_le_month : 1 ≤ month
  month_le : month ≤ 12
  one_le_day : 1 ≤ day
  day_le : day ≤ monthLength year month
  deriving DecidableEq

/-! ## Day numbers -/

/-- The days from the year one up to the first day of the year `y`. -/
def daysBeforeYear (y : Int) : Int := 365 * (y - 1) + (y - 1) / 4 - (y - 1) / 100 + (y - 1) / 400

/-- The days of the year `y` before its month `m`. -/
def daysBeforeMonth (y m : Int) : Int :=
  ((List.range (m - 1).toNat).map fun i : Nat => monthLength y (i + 1)).sum

namespace CivilDate

def number (d : CivilDate) : Int := daysBeforeYear d.year + daysBeforeMonth d.year d.month + (d.day - 1)

end CivilDate

theorem daysBeforeYear_succ (y : Int) : daysBeforeYear (y + 1) = daysBeforeYear y + yearLength y := by
  unfold daysBeforeYear yearLength
  by_cases h : IsLeap y
  · rw [if_pos h]
    unfold IsLeap at h
    omega
  · rw [if_neg h]
    unfold IsLeap at h
    omega

theorem le_monthLength (y m : Int) : 28 ≤ monthLength y m := by
  unfold monthLength
  split_ifs <;> omega

theorem monthLength_le (y m : Int) : monthLength y m ≤ 31 := by
  unfold monthLength
  split_ifs <;> omega

theorem yearLength_eq (y : Int) : yearLength y = 337 + monthLength y 2 := by
  unfold yearLength monthLength
  split_ifs <;> omega

@[simp] theorem daysBeforeMonth_one (y : Int) : daysBeforeMonth y 1 = 0 := rfl

theorem daysBeforeMonth_succ {y m : Int} (hm : 1 ≤ m) :
    daysBeforeMonth y (m + 1) = daysBeforeMonth y m + monthLength y m := by
  obtain ⟨k, rfl⟩ : ∃ k : Nat, m = k + 1 := ⟨(m - 1).toNat, by omega⟩
  have hk : ((k : Int) + 1 + 1 - 1).toNat = k + 1 := by omega
  have hk' : ((k : Int) + 1 - 1).toNat = k := by omega
  unfold daysBeforeMonth
  rw [hk, hk', List.range_succ, List.map_append, List.sum_append]
  simp

/-- The days before a month, in closed form. -/
theorem daysBeforeMonth_eq {y m : Int} (hm : 1 ≤ m) (hm' : m ≤ 12) :
    daysBeforeMonth y m = (367 * m - 362) / 12 + if m ≤ 2 then 0 else monthLength y 2 - 30 := by
  interval_cases m <;> simp [daysBeforeMonth, List.range_succ, monthLength] <;> split <;> rfl

/-- A month ends where the next one starts, and the last one with the year. -/
theorem daysBeforeMonth_add_le {y m m' : Int} (hm : 1 ≤ m) (hlt : m < m') (hm' : m' ≤ 12) :
    daysBeforeMonth y m + monthLength y m ≤ daysBeforeMonth y m' := by
  induction m', Int.add_one_le_of_lt hlt using Int.leInduction with
  | base => exact (daysBeforeMonth_succ hm).ge
  | succ k hk ih =>
    rw [daysBeforeMonth_succ (by omega)]
    have := le_monthLength y k
    have := ih (by omega) (by omega)
    omega

theorem daysBeforeMonth_add_le_yearLength {y m : Int} (hm : 1 ≤ m) (hm' : m ≤ 12) :
    daysBeforeMonth y m + monthLength y m ≤ yearLength y := by
  have hlast : daysBeforeMonth y 12 + monthLength y 12 = yearLength y := by
    rw [daysBeforeMonth_eq (by decide) (by decide), yearLength_eq, show monthLength y 12 = 31 from rfl,
      if_neg (by decide)]
    omega
  rcases Int.lt_or_eq_of_le hm' with h | rfl
  · have := daysBeforeMonth_add_le (y := y) hm h le_rfl
    have := le_monthLength y 12
    omega
  · exact hlast.le

/-! ## The order of dates -/

namespace CivilDate

theorem ext {a b : CivilDate} (hy : a.year = b.year) (hm : a.month = b.month) (hd : a.day = b.day) : a = b := by
  cases a
  cases b
  subst hy hm hd
  rfl

theorem daysBeforeMonth_nonneg (d : CivilDate) : 0 ≤ daysBeforeMonth d.year d.month := by
  have hstart := daysBeforeMonth_one d.year
  rcases Int.lt_or_eq_of_le d.one_le_month with h | h
  · have := daysBeforeMonth_add_le (y := d.year) le_rfl h d.month_le
    have := le_monthLength d.year 1
    omega
  · rw [← h]
    exact hstart.ge

/-- A date lies in its year. -/
theorem number_bounds (d : CivilDate) :
    daysBeforeYear d.year ≤ d.number ∧ d.number < daysBeforeYear (d.year + 1) := by
  have hend := daysBeforeMonth_add_le_yearLength (y := d.year) d.one_le_month d.month_le
  have hstart := d.daysBeforeMonth_nonneg
  have := d.one_le_day
  have := d.day_le
  rw [daysBeforeYear_succ]
  unfold number
  omega

/-- The numbers of dates follow their order. -/
theorem number_lt {a b : CivilDate} (h : a.year < b.year ∨ a.year = b.year ∧ (a.month < b.month ∨
    a.month = b.month ∧ a.day < b.day)) : a.number < b.number := by
  rcases h with hy | ⟨hy, hm | ⟨hm, hd⟩⟩
  · have hmono : daysBeforeYear (a.year + 1) ≤ daysBeforeYear b.year := by
      unfold daysBeforeYear
      omega
    exact a.number_bounds.2.trans_le (hmono.trans b.number_bounds.1)
  · have hmonth := daysBeforeMonth_add_le (y := a.year) a.one_le_month hm b.month_le
    have := a.day_le
    have := b.one_le_day
    unfold number
    rw [← hy]
    omega
  · unfold number
    rw [← hy, ← hm]
    omega

theorem number_lt_iff {a b : CivilDate} : a.number < b.number ↔ a.year < b.year ∨ a.year = b.year ∧
    (a.month < b.month ∨ a.month = b.month ∧ a.day < b.day) := by
  refine ⟨fun h => ?_, number_lt⟩
  by_contra hnot
  have hother : b.number < a.number ∨ a = b := by
    by_cases hsame : a.year = b.year ∧ a.month = b.month ∧ a.day = b.day
    · exact .inr (ext hsame.1 hsame.2.1 hsame.2.2)
    · exact .inl (number_lt (by omega))
  rcases hother with hlt | rfl
  · exact absurd h hlt.asymm
  · exact absurd h (lt_irrefl _)

theorem number_injective {a b : CivilDate} (h : a.number = b.number) : a = b := by
  have hab := mt (@number_lt_iff a b).2 h.not_lt
  have hba := mt (@number_lt_iff b a).2 h.not_gt
  exact ext (by omega) (by omega) (by omega)

/-! ## Every day has a date -/

/-- The next day is in the same month, the next month or the next year. -/
theorem exists_next (d : CivilDate) : ∃ e : CivilDate, e.number = d.number + 1 ∧ (e.year, e.month, e.day) =
    if d.day < monthLength d.year d.month then (d.year, d.month, d.day + 1)
    else if d.month < 12 then (d.year, d.month + 1, 1) else (d.year + 1, 1, 1) := by
  obtain ⟨y, m, k, hm, hm', hk, hk'⟩ := d
  by_cases hday : k < monthLength y m
  · refine ⟨⟨y, m, k + 1, hm, hm', by omega, by omega⟩, ?_, (if_pos hday).symm⟩
    simp only [number]
    omega
  · have hlast : k = monthLength y m := by omega
    have := le_monthLength y (m + 1)
    have := le_monthLength (y + 1) 1
    dsimp only
    rw [if_neg hday]
    rcases Int.lt_or_eq_of_le hm' with h | rfl
    · refine ⟨⟨y, m + 1, 1, by omega, by omega, le_rfl, by omega⟩, ?_, (if_pos h).symm⟩
      simp only [number, daysBeforeMonth_succ hm]
      omega
    · refine ⟨⟨y + 1, 1, 1, le_rfl, by decide, le_rfl, by omega⟩, ?_, rfl⟩
      have hyear := daysBeforeMonth_eq (y := y) (m := 12) (by decide) le_rfl
      rw [if_neg (by decide)] at hyear
      simp only [number, daysBeforeYear_succ, yearLength_eq, daysBeforeMonth_one, hlast, hyear]
      rw [show monthLength y 12 = 31 from rfl]
      omega

theorem exists_prev (d : CivilDate) : ∃ e : CivilDate, e.number = d.number - 1 := by
  obtain ⟨y, m, k, hm, hm', hk, hk'⟩ := d
  by_cases hday : 1 < k
  · refine ⟨⟨y, m, k - 1, hm, hm', by omega, by omega⟩, ?_⟩
    simp only [number]
    omega
  · obtain rfl : k = 1 := by omega
    rcases Int.lt_or_eq_of_le hm with h | rfl
    · have := le_monthLength y (m - 1)
      refine ⟨⟨y, m - 1, monthLength y (m - 1), by omega, by omega, by omega, le_rfl⟩, ?_⟩
      have hmonth := daysBeforeMonth_succ (y := y) (m := m - 1) (by omega)
      rw [Int.sub_add_cancel] at hmonth
      simp only [number, hmonth]
      omega
    · refine ⟨⟨y - 1, 12, 31, by decide, le_rfl, by decide, le_rfl⟩, ?_⟩
      have hyear := daysBeforeMonth_eq (y := y - 1) (m := 12) (by decide) le_rfl
      have hsucc := daysBeforeYear_succ (y - 1)
      rw [if_neg (by decide)] at hyear
      rw [Int.sub_add_cancel, yearLength_eq] at hsucc
      simp only [number, hsucc, daysBeforeMonth_one, hyear]
      omega

/-- Every whole number is the number of a date. -/
theorem exists_number (n : Int) : ∃ d : CivilDate, d.number = n := by
  induction n using Int.induction_on with
  | zero => exact ⟨⟨1, 1, 1, le_rfl, by decide, le_rfl, by decide⟩, rfl⟩
  | succ n ih =>
    obtain ⟨d, hd⟩ := ih
    obtain ⟨e, he, -⟩ := d.exists_next
    exact ⟨e, by rw [he, hd]⟩
  | pred n ih =>
    obtain ⟨d, hd⟩ := ih
    rw [← hd]
    exact d.exists_prev

/-- The date of a day number. -/
noncomputable def ofNumber (n : Int) : CivilDate := (exists_number n).choose

@[simp] theorem number_ofNumber (n : Int) : (ofNumber n).number = n := (exists_number n).choose_spec

@[simp] theorem ofNumber_number (d : CivilDate) : ofNumber d.number = d := number_injective (number_ofNumber _)

/-! ## Months of a date -/

/-- The months from the start of the year zero. -/
def months (d : CivilDate) : Int := 12 * d.year + (d.month - 1)

/-- The date `n` months later, on the last day of a month that is too short. -/
def addMonths (d : CivilDate) (n : Int) : CivilDate where
  year := (d.months + n) / 12
  month := (d.months + n) % 12 + 1
  day := min d.day (monthLength ((d.months + n) / 12) ((d.months + n) % 12 + 1))
  one_le_month := by omega
  month_le := by omega
  one_le_day := by
    have := d.one_le_day
    have := le_monthLength ((d.months + n) / 12) ((d.months + n) % 12 + 1)
    omega
  day_le := min_le_right _ _

theorem addMonths_zero (d : CivilDate) : d.addMonths 0 = d := by
  have := d.one_le_month
  have := d.month_le
  have hyear : (d.months + 0) / 12 = d.year := by
    unfold months
    omega
  have hmonth : (d.months + 0) % 12 + 1 = d.month := by
    unfold months
    omega
  refine ext hyear hmonth ?_
  show min d.day _ = d.day
  rw [hyear, hmonth]
  exact min_eq_left d.day_le

/-- The number of the first day of the `n`-th month from the start of the year zero. -/
def firstOfMonth (n : Int) : Int := daysBeforeYear (n / 12) + daysBeforeMonth (n / 12) (n % 12 + 1)

theorem firstOfMonth_succ (n : Int) :
    firstOfMonth (n + 1) = firstOfMonth n + monthLength (n / 12) (n % 12 + 1) := by
  unfold firstOfMonth
  by_cases h : n % 12 = 11
  · have hyear := daysBeforeMonth_eq (y := n / 12) (m := 12) (by decide) le_rfl
    rw [if_neg (by decide)] at hyear
    rw [show (n + 1) / 12 = n / 12 + 1 by omega, show (n + 1) % 12 + 1 = 1 by omega, h, daysBeforeYear_succ,
      yearLength_eq, daysBeforeMonth_one, show (11 : Int) + 1 = 12 from rfl, hyear,
      show monthLength (n / 12) 12 = 31 from rfl]
    omega
  · rw [show (n + 1) / 12 = n / 12 by omega, show (n + 1) % 12 + 1 = n % 12 + 1 + 1 by omega,
      daysBeforeMonth_succ (by omega)]
    omega

theorem firstOfMonth_strictMono : StrictMono firstOfMonth := by
  refine strictMono_int_of_lt_succ fun n => ?_
  have := le_monthLength (n / 12) (n % 12 + 1)
  rw [firstOfMonth_succ]
  omega

/-- A month has at most 31 days. -/
theorem firstOfMonth_add_le (a : Int) (k : Nat) : firstOfMonth (a + k) ≤ firstOfMonth a + 31 * k := by
  induction k with
  | zero => simp
  | succ k ih =>
    have := monthLength_le ((a + k) / 12) ((a + k) % 12 + 1)
    rw [Nat.cast_succ, ← Int.add_assoc, firstOfMonth_succ]
    omega

/-- A date lies in its month. -/
theorem month_bounds (d : CivilDate) : firstOfMonth d.months ≤ d.number ∧ d.number < firstOfMonth (d.months + 1) := by
  have := d.one_le_month
  have := d.month_le
  have := d.one_le_day
  have := d.day_le
  have hyear : d.months / 12 = d.year := by
    unfold months
    omega
  have hmonth : d.months % 12 + 1 = d.month := by
    unfold months
    omega
  rw [firstOfMonth_succ, firstOfMonth, hyear, hmonth]
  unfold number
  omega

theorem number_first {y m : Int} (hm : 1 ≤ m) (hm' : m ≤ 12) :
    daysBeforeYear y + daysBeforeMonth y m = firstOfMonth (12 * y + (m - 1)) := by
  rw [firstOfMonth, show (12 * y + (m - 1)) / 12 = y by omega, show (12 * y + (m - 1)) % 12 + 1 = m by omega]

/-- A year has at least 365 days. -/
theorem year_bounds (d : CivilDate) {n : Int} (hlo : -n ≤ d.number) (hhi : d.number ≤ n) :
    -n ≤ 365 * d.year ∧ 365 * d.year ≤ n + 365 := by
  obtain ⟨hstart, hend⟩ := d.number_bounds
  unfold daysBeforeYear at hstart hend
  by_cases hy : 1 ≤ d.year
  · omega
  · omega

end CivilDate

end Gregorian
