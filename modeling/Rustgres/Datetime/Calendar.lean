-- SUMMARY: Civil dates and day numbers of the server: the era arithmetic both ways, against the calendar.
import Rustgres.Lib.Gregorian
import Rustgres.Lib.Machine

/-!
# The Civil Calendar

`days_from_civil` and `civil_from_days` count years from March in eras of 400 years. Divisions are those of the
machine, so a division of a negative number is rounded by hand.
-/

namespace Datetime

open Gregorian
open Machine (i32)

/-! ## The model -/

/-- Days since 1970-01-01 of a civil date. -/
def daysFromCivil (y m d : Int) : Int :=
  let y := if m ≤ 2 then y - 1 else y
  let era := (if y ≥ 0 then y else y - 399).tdiv 400
  let yoe := y - era * 400
  let mp := (m + 9).tmod 12
  let doy := (153 * mp + 2).tdiv 5 + d - 1
  let doe := yoe * 365 + yoe.tdiv 4 - yoe.tdiv 100 + doy
  era * 146097 + doe - 719468

def civilFromDays (z : Int) : Int × Int × Int :=
  let z := z + 719468
  let era := (if z ≥ 0 then z else z - 146096).tdiv 146097
  let doe := z - era * 146097
  let yoe := (doe - doe.tdiv 1460 + doe.tdiv 36524 - doe.tdiv 146096).tdiv 365
  let y := yoe + era * 400
  let doy := doe - (365 * yoe + yoe.tdiv 4 - yoe.tdiv 100)
  let mp := (5 * doy + 2).tdiv 153
  let d := doy - (153 * mp + 2).tdiv 5 + 1
  let m := if mp < 10 then mp + 3 else mp - 9
  (i32.wrap (if m ≤ 2 then y + 1 else y), m, d)

def isLeapYear (y : Int) : Bool := (y.tmod 4 = 0 && y.tmod 100 ≠ 0) || y.tmod 400 = 0

def daysInMonth (y m : Int) : Int :=
  if m ∈ [1, 3, 5, 7, 8, 10, 12] then 31
  else if m ∈ [4, 6, 9, 11] then 30
  else if m = 2 then if isLeapYear y then 29 else 28
  else 0

def julianUnixEpoch : Int := 2440588

def dateMinDays : Int := -julianUnixEpoch

def dateMaxDays : Int := daysFromCivil 5874897 12 31

def usecsPerDay : Int := 86400000000

def tsMinMicros : Int := dateMinDays * usecsPerDay

/-- The infinite timestamp, and the bound of the finite ones. -/
def tsInfinity : Int := 9223372036854775807

def tsNegInfinity : Int := -9223372036854775808

def isValidTsMicros (micros : Int) : Bool := decide (tsMinMicros ≤ micros ∧ micros < tsInfinity)

/-- The day and the time of day. -/
def splitMicros (micros : Int) : Int × Int :=
  let days := micros.tdiv usecsPerDay
  let tod := micros.tmod usecsPerDay
  if tod < 0 then (days - 1, tod + usecsPerDay) else (days, tod)

/-- Sunday is 0. -/
def dayOfWeek (days : Int) : Int := (days % 7 + 4) % 7

/-! ## Machine division -/

theorem tdiv_of_neg {n k : Int} (hn : n < 0) : n.tdiv k = -(-n / k) := by
  rw [← Int.tdiv_eq_ediv_of_nonneg (by omega), ← Int.neg_tdiv, Int.neg_neg]

/-- The hand-made rounding is that to the floor. -/
theorem tdiv_floor {n k : Int} (hk : 0 < k) : (if n ≥ 0 then n else n - (k - 1)).tdiv k = n / k := by
  split
  · rename_i h
    exact Int.tdiv_eq_ediv_of_nonneg h
  · rename_i h
    have hlt := Int.emod_lt_of_pos n hk
    have hpos := Int.emod_nonneg n hk.ne'
    have hsplit : -(n - (k - 1)) = (k - 1 - n % k) + k * -(n / k) := by
      have := Int.mul_ediv_add_emod n k
      rw [Int.mul_neg]
      omega
    rw [tdiv_of_neg (by omega), hsplit, Int.add_mul_ediv_left _ _ hk.ne', Int.ediv_eq_zero_of_lt (by omega) (by omega)]
    omega

theorem splitMicros_eq (micros : Int) : splitMicros micros = (micros / usecsPerDay, micros % usecsPerDay) := by
  unfold splitMicros usecsPerDay
  dsimp only
  by_cases h : 0 ≤ micros
  · rw [Int.tdiv_eq_ediv_of_nonneg h, Int.tmod_eq_emod_of_nonneg h, if_neg (by omega)]
  · rw [Int.tmod_def, tdiv_of_neg (by omega)]
    split
    · ext <;> dsimp only <;> omega
    · ext <;> dsimp only <;> omega

/-! ## Day numbers -/

/-- The day number of 1970-01-01. -/
def epochNumber : Int := 719162

theorem isLeapYear_iff (y : Int) : isLeapYear y = true ↔ IsLeap y := by
  have htmod : ∀ k : Int, y.tmod k = 0 ↔ y % k = 0 := fun k => by
    rw [← Int.dvd_iff_tmod_eq_zero, ← Int.dvd_iff_emod_eq_zero]
  simp [isLeapYear, IsLeap, htmod]

theorem daysInMonth_eq {y m : Int} (hm : 1 ≤ m) (hm' : m ≤ 12) : daysInMonth y m = monthLength y m := by
  have hleap : (if isLeapYear y = true then (29 : Int) else 28) = if IsLeap y then 29 else 28 :=
    if_congr (isLeapYear_iff y) rfl rfl
  unfold daysInMonth monthLength
  rw [hleap]
  interval_cases m <;> simp

/-- The day of a civil date, with years that start in March. -/
theorem daysFromCivil_eq {y m : Int} (d : Int) (hm : 1 ≤ m) :
    daysFromCivil y m d = (365 * (if m ≤ 2 then y - 1 else y) + (if m ≤ 2 then y - 1 else y) / 4
      - (if m ≤ 2 then y - 1 else y) / 100 + (if m ≤ 2 then y - 1 else y) / 400)
      + (153 * ((m + 9) % 12) + 2) / 5 + d - 719469 := by
  unfold daysFromCivil
  dsimp only
  generalize (if m ≤ 2 then y - 1 else y) = y'
  rw [show (399 : Int) = 400 - 1 from rfl, tdiv_floor (by decide), Int.tmod_eq_emod_of_nonneg (by omega),
    Int.tdiv_eq_ediv_of_nonneg (a := 153 * _ + 2) (by omega),
    Int.tdiv_eq_ediv_of_nonneg (a := y' - _) (b := 4) (by omega),
    Int.tdiv_eq_ediv_of_nonneg (a := y' - _) (b := 100) (by omega)]
  omega

theorem daysFromCivil_number (d : CivilDate) : daysFromCivil d.year d.month d.day = d.number - epochNumber := by
  obtain ⟨y, m, k, hm, hm', hk, hk'⟩ := d
  have hmonth := daysBeforeMonth_eq (y := y) hm hm'
  rw [daysFromCivil_eq k hm]
  unfold CivilDate.number epochNumber daysBeforeYear
  dsimp only
  rw [hmonth, show monthLength y 2 = if IsLeap y then 29 else 28 from if_pos rfl]
  clear hmonth
  by_cases h : m ≤ 2
  · rw [if_pos h, if_pos h]
    omega
  · rw [if_neg h, if_neg h]
    by_cases hleap : IsLeap y
    · rw [if_pos hleap]
      unfold IsLeap at hleap
      omega
    · rw [if_neg hleap]
      unfold IsLeap at hleap
      omega

/-! ## From days to dates -/

/-- The year of an era, from the day of the era. -/
theorem yearOfEra {yoe doy : Int} (hy : 0 ≤ yoe) (hy' : yoe ≤ 399) (hd : 0 ≤ doy)
    (hd' : doy ≤ 364 ∨ doy = 365 ∧ IsLeap (yoe + 1)) :
    let doe := yoe * 365 + yoe / 4 - yoe / 100 + doy
    (doe - doe / 1460 + doe / 36524 - doe / 146096) / 365 = yoe := by
  intro doe
  unfold IsLeap at hd'
  obtain ⟨b, q, k, hb, hb', hq, hq', hk, hk', rfl⟩ : ∃ b q k : Int, 0 ≤ b ∧ b ≤ 3 ∧ 0 ≤ q ∧ q ≤ 24 ∧ 0 ≤ k ∧ k ≤ 3 ∧
      yoe = 100 * b + 4 * q + k :=
    ⟨yoe / 100, yoe % 100 / 4, yoe % 4, by omega, by omega, by omega, by omega, by omega, by omega, by omega⟩
  have hdoe : doe = 36524 * b + 1461 * q + 365 * k + doy := by
    have h4 : (100 * b + 4 * q + k) / 4 = 25 * b + q := by omega
    have h100 : (100 * b + 4 * q + k) / 100 = b := by omega
    simp only [doe, h4, h100]
    omega
  have hleap : doy ≤ 364 ∨ doy = 365 ∧ k = 3 ∧ (q ≤ 23 ∨ b = 3) := by omega
  clear_value doe
  clear hd'
  -- the last day of an era is the only one at which a century seems to be over
  have hcentury : doe / 36524 - doe / 146096 = b := by
    by_cases hfull : doe = 146096
    · omega
    · have hrest : doe - 36524 * b ≤ 36523 := by omega
      have hzero : doe / 146096 = 0 := by omega
      have hcount : doe / 36524 = b := by omega
      omega
  have hshort : doe / 1460 = 25 * b + q ∧ 24 * b + q + 365 * k + doy < 1460 ∨
      doe / 1460 = 25 * b + q + 1 ∧ 1460 ≤ 24 * b + q + 365 * k + doy := by omega
  rcases hshort with ⟨h, hlt⟩ | ⟨h, hge⟩
  · have hdoy : doy ≤ 364 := by omega
    omega
  · have hdoy : 1 ≤ doy := by omega
    omega

/-- The month and the day, from the day of a year that starts in March. -/
theorem monthOfYear {mp d : Int} (hm : 0 ≤ mp) (hm' : mp ≤ 11) (hd : 1 ≤ d)
    (hd' : d ≤ 31 ∧ (mp = 1 ∨ mp = 3 ∨ mp = 6 ∨ mp = 8 → d ≤ 30) ∧ (mp = 11 → d ≤ 29)) :
    (5 * ((153 * mp + 2) / 5 + d - 1) + 2) / 153 = mp := by
  interval_cases mp <;> omega

/-- The steps of `civil_from_days`, with divisions to the floor. -/
theorem civilFromDays_eq {z era yoe doy mp d : Int}
    (hz : z + 719468 = era * 146097 + (yoe * 365 + yoe / 4 - yoe / 100 + doy))
    (hy : 0 ≤ yoe) (hy' : yoe ≤ 399) (hd : 0 ≤ doy) (hd' : doy ≤ 364 ∨ doy = 365 ∧ IsLeap (yoe + 1))
    (hm : 0 ≤ mp) (hm' : mp ≤ 11) (hdoy : doy = (153 * mp + 2) / 5 + d - 1) (hone : 1 ≤ d)
    (hlast : d ≤ 31 ∧ (mp = 1 ∨ mp = 3 ∨ mp = 6 ∨ mp = 8 → d ≤ 30) ∧ (mp = 11 → d ≤ 29)) :
    civilFromDays z = (i32.wrap (if mp < 10 then yoe + era * 400 else yoe + era * 400 + 1),
      if mp < 10 then mp + 3 else mp - 9, d) := by
  have hdoy' : doy ≤ 365 := by omega
  have hera : (if z + 719468 ≥ 0 then z + 719468 else z + 719468 - 146096).tdiv 146097 = era := by
    rw [show (146096 : Int) = 146097 - 1 from rfl, tdiv_floor (by decide)]
    omega
  have hdoe : z + 719468 - era * 146097 = yoe * 365 + yoe / 4 - yoe / 100 + doy := by omega
  have hyear := yearOfEra hy hy' hd hd'
  have hmonth := monthOfYear hm hm' hone hlast
  unfold civilFromDays
  dsimp only at hyear ⊢
  rw [hera, hdoe]
  rw [Int.tdiv_eq_ediv_of_nonneg (b := 1460) (by omega), Int.tdiv_eq_ediv_of_nonneg (b := 36524) (by omega),
    Int.tdiv_eq_ediv_of_nonneg (b := 146096) (by omega), Int.tdiv_eq_ediv_of_nonneg (b := 365) (by omega), hyear,
    Int.tdiv_eq_ediv_of_nonneg (b := 4) hy, Int.tdiv_eq_ediv_of_nonneg (b := 100) hy]
  have hdoy'' : yoe * 365 + yoe / 4 - yoe / 100 + doy - (365 * yoe + yoe / 4 - yoe / 100) = doy := by omega
  rw [hdoy'', Int.tdiv_eq_ediv_of_nonneg (b := 153) (by omega), hdoy, hmonth,
    Int.tdiv_eq_ediv_of_nonneg (b := 5) (by omega)]
  refine Prod.ext ?_ (Prod.ext rfl ?_)
  · dsimp only
    congr 1
    split_ifs <;> omega
  · dsimp only
    omega

theorem civilFromDays_number (d : CivilDate) :
    civilFromDays (d.number - epochNumber) = (i32.wrap d.year, d.month, d.day) := by
  have hnumber := daysFromCivil_number d
  obtain ⟨y, m, k, hm, hm', hk, hk'⟩ := d
  rw [daysFromCivil_eq k hm] at hnumber
  have hlength : monthLength y m ≤ 31 ∧ (m = 4 ∨ m = 6 ∨ m = 9 ∨ m = 11 → monthLength y m = 30) ∧
      (m = 2 → monthLength y m = 28 ∨ monthLength y m = 29 ∧ IsLeap y) := by
    refine ⟨monthLength_le y m, fun h => ?_, fun h => ?_⟩
    · rw [monthLength, if_neg (by omega), if_pos h]
    · rw [monthLength, if_pos h]
      split_ifs with hleap
      · exact .inr ⟨rfl, hleap⟩
      · exact .inl rfl
  have hleap : ∀ y' : Int, IsLeap (y' % 400 + 1) ↔ IsLeap (y' + 1) := by
    intro y'
    unfold IsLeap
    omega
  obtain ⟨y', hy'⟩ : ∃ y', y' = if m ≤ 2 then y - 1 else y := ⟨_, rfl⟩
  rw [← hy'] at hnumber
  have hdate := @civilFromDays_eq ((⟨y, m, k, hm, hm', hk, hk'⟩ : CivilDate).number - epochNumber) (y' / 400) (y' % 400)
    ((153 * ((m + 9) % 12) + 2) / 5 + k - 1) ((m + 9) % 12) k (by omega) (by omega) (by omega) (by omega)
    (by
      by_cases h2 : m = 2
      · rcases hlength.2.2 h2 with h | ⟨h, hl⟩
        · exact .inl (by omega)
        · rw [if_pos h2.le] at hy'
          rw [hleap, hy', Int.sub_add_cancel]
          by_cases h29 : k = 29
          · exact .inr ⟨by omega, hl⟩
          · exact .inl (by omega)
      · exact .inl (by omega))
    (by omega) (by omega) rfl hk (by omega)
  rw [hdate]
  refine Prod.ext ?_ (Prod.ext ?_ rfl)
  · dsimp only
    congr 1
    split_ifs at hy' ⊢ <;> omega
  · dsimp only
    split_ifs <;> omega

/-- Every day has its date, which the server finds if its year is an `i32`. -/
theorem civilFromDays_ofNumber (z : Int) : civilFromDays z = (i32.wrap (CivilDate.ofNumber (z + epochNumber)).year,
    (CivilDate.ofNumber (z + epochNumber)).month, (CivilDate.ofNumber (z + epochNumber)).day) := by
  rw [← civilFromDays_number, CivilDate.number_ofNumber, Int.add_sub_cancel]

theorem year_holds {z : Int} (hlo : -700000000000 ≤ z) (hhi : z ≤ 700000000000) :
    i32.Holds (CivilDate.ofNumber (z + epochNumber)).year := by
  have hbounds := @CivilDate.year_bounds (CivilDate.ofNumber (z + epochNumber)) 700000719162
  rw [CivilDate.number_ofNumber, epochNumber] at hbounds
  have := hbounds (by omega) (by omega)
  unfold i32
  constructor <;> dsimp only <;> unfold epochNumber <;> omega

theorem civilFromDays_valid {z : Int} (hlo : -700000000000 ≤ z) (hhi : z ≤ 700000000000) :
    civilFromDays z = ((CivilDate.ofNumber (z + epochNumber)).year, (CivilDate.ofNumber (z + epochNumber)).month,
      (CivilDate.ofNumber (z + epochNumber)).day) := by
  rw [civilFromDays_ofNumber, Machine.IntType.wrap_of_holds (year_holds hlo hhi)]

theorem daysFromCivil_ofNumber (z : Int) : daysFromCivil (CivilDate.ofNumber (z + epochNumber)).year
    (CivilDate.ofNumber (z + epochNumber)).month (CivilDate.ofNumber (z + epochNumber)).day = z := by
  rw [daysFromCivil_number, CivilDate.number_ofNumber, Int.add_sub_cancel]

/-! ## The bijection -/

/-- Months and days that a date can have. -/
def ValidYmd (y m d : Int) : Prop := 1 ≤ m ∧ m ≤ 12 ∧ 1 ≤ d ∧ d ≤ daysInMonth y m

instance (y m d : Int) : Decidable (ValidYmd y m d) := inferInstanceAs (Decidable (_ ∧ _ ∧ _ ∧ _))

/-- One date is before another. -/
def YmdLt (y m d y' m' d' : Int) : Prop := y < y' ∨ y = y' ∧ (m < m' ∨ m = m' ∧ d < d')

/-- The date of the next day. -/
def nextDay (y m d : Int) : Int × Int × Int :=
  if d < daysInMonth y m then (y, m, d + 1) else if m < 12 then (y, m + 1, 1) else (y + 1, 1, 1)

theorem exists_civilDate {y m d : Int} (h : ValidYmd y m d) :
    ∃ c : CivilDate, c.year = y ∧ c.month = m ∧ c.day = d := by
  obtain ⟨hm, hm', hd, hd'⟩ := h
  rw [daysInMonth_eq hm hm'] at hd'
  exact ⟨⟨y, m, d, hm, hm', hd, hd'⟩, rfl, rfl, rfl⟩

theorem validYmd_civilDate (c : CivilDate) : ValidYmd c.year c.month c.day := by
  refine ⟨c.one_le_month, c.month_le, c.one_le_day, ?_⟩
  rw [daysInMonth_eq c.one_le_month c.month_le]
  exact c.day_le

theorem civilFromDays_daysFromCivil {y m d : Int} (hy : i32.Holds y) (h : ValidYmd y m d) :
    civilFromDays (daysFromCivil y m d) = (y, m, d) := by
  obtain ⟨c, rfl, rfl, rfl⟩ := exists_civilDate h
  rw [daysFromCivil_number, civilFromDays_number, Machine.IntType.wrap_of_holds hy]

theorem daysFromCivil_lt_iff {y m d y' m' d' : Int} (h : ValidYmd y m d) (h' : ValidYmd y' m' d') :
    daysFromCivil y m d < daysFromCivil y' m' d' ↔ YmdLt y m d y' m' d' := by
  obtain ⟨c, rfl, rfl, rfl⟩ := exists_civilDate h
  obtain ⟨c', rfl, rfl, rfl⟩ := exists_civilDate h'
  rw [daysFromCivil_number, daysFromCivil_number, YmdLt, ← CivilDate.number_lt_iff]
  omega

/-- The days of the years that an `i32` holds. -/
def IsDay (z : Int) : Prop := daysFromCivil i32.lo 1 1 ≤ z ∧ z ≤ daysFromCivil i32.hi 12 31

instance (z : Int) : Decidable (IsDay z) := inferInstanceAs (Decidable (_ ∧ _))

theorem isDay_of_valid {z : Int} (hlo : dateMinDays ≤ z) (hhi : z ≤ dateMaxDays) : IsDay z := by
  have hfirst : daysFromCivil i32.lo 1 1 ≤ dateMinDays := by decide +kernel
  have hlast : dateMaxDays ≤ daysFromCivil i32.hi 12 31 := by decide +kernel
  exact ⟨hfirst.trans hlo, hhi.trans hlast⟩

/-- The year of such a day is an `i32`: the days before and after it have other years. -/
theorem year_of_isDay {z : Int} (h : IsDay z) : i32.Holds (CivilDate.ofNumber (z + epochNumber)).year := by
  have hdays := daysFromCivil_ofNumber z
  have hvalid := validYmd_civilDate (CivilDate.ofNumber (z + epochNumber))
  generalize CivilDate.ofNumber (z + epochNumber) = c at *
  obtain ⟨hlo, hhi⟩ := h
  rw [← hdays] at hlo hhi
  have hfirst : ValidYmd i32.lo 1 1 := by decide +kernel
  have hlast : ValidYmd i32.hi 12 31 := by decide +kernel
  constructor
  · by_contra hlt
    exact absurd hlo (not_le.2 ((daysFromCivil_lt_iff hvalid hfirst).2 (.inl (not_le.1 hlt))))
  · by_contra hlt
    exact absurd hhi (not_le.2 ((daysFromCivil_lt_iff hlast hvalid).2 (.inl (not_le.1 hlt))))

theorem daysFromCivil_civilFromDays {z : Int} (h : IsDay z) :
    ∃ y m d, civilFromDays z = (y, m, d) ∧ ValidYmd y m d ∧ daysFromCivil y m d = z := by
  refine ⟨_, _, _, ?_, validYmd_civilDate (CivilDate.ofNumber (z + epochNumber)), daysFromCivil_ofNumber z⟩
  rw [civilFromDays_ofNumber, Machine.IntType.wrap_of_holds (year_of_isDay h)]

theorem daysFromCivil_nextDay {y m d : Int} (h : ValidYmd y m d) :
    ∃ y' m' d', nextDay y m d = (y', m', d') ∧ ValidYmd y' m' d' ∧
      daysFromCivil y' m' d' = daysFromCivil y m d + 1 := by
  obtain ⟨c, rfl, rfl, rfl⟩ := exists_civilDate h
  obtain ⟨e, hnumber, hfields⟩ := c.exists_next
  refine ⟨e.year, e.month, e.day, ?_, validYmd_civilDate e, ?_⟩
  · rw [nextDay, daysInMonth_eq c.one_le_month c.month_le, hfields]
  · rw [daysFromCivil_number, daysFromCivil_number, hnumber]
    omega

/-- Day numbers and dates are the same, in the same order and without gaps. -/
theorem civil_calendar :
    (∀ y m d, i32.Holds y → ValidYmd y m d → civilFromDays (daysFromCivil y m d) = (y, m, d)) ∧
    (∀ z, IsDay z → ∃ y m d, civilFromDays z = (y, m, d) ∧ ValidYmd y m d ∧ daysFromCivil y m d = z) ∧
    (∀ y m d y' m' d', ValidYmd y m d → ValidYmd y' m' d' →
      (daysFromCivil y m d < daysFromCivil y' m' d' ↔ YmdLt y m d y' m' d')) ∧
    (∀ y m d, ValidYmd y m d → ∃ y' m' d', nextDay y m d = (y', m', d') ∧ ValidYmd y' m' d' ∧
      daysFromCivil y' m' d' = daysFromCivil y m d + 1) ∧
    ∀ z, dateMinDays ≤ z → z ≤ dateMaxDays → IsDay z :=
  ⟨fun _ _ _ hy h => civilFromDays_daysFromCivil hy h, fun _ h => daysFromCivil_civilFromDays h,
    fun _ _ _ _ _ _ h h' => daysFromCivil_lt_iff h h', fun _ _ _ h => daysFromCivil_nextDay h,
    fun _ hlo hhi => isDay_of_valid hlo hhi⟩

theorem civil_calendar_leap : civilFromDays (daysFromCivil (-4) 2 29) = (-4, 2, 29) ∧
    (∃ y m d, civilFromDays dateMinDays = (y, m, d) ∧ ValidYmd y m d ∧ daysFromCivil y m d = dateMinDays) ∧
    (daysFromCivil (-4) 2 29 < daysFromCivil 1 1 1 ↔ YmdLt (-4) 2 29 1 1 1) ∧
    ∃ y m d, nextDay (-4) 2 29 = (y, m, d) ∧ ValidYmd y m d ∧ daysFromCivil y m d = daysFromCivil (-4) 2 29 + 1 :=
  ⟨civil_calendar.1 (-4) 2 29 (by decide) (by decide),
    civil_calendar.2.1 dateMinDays (civil_calendar.2.2.2.2 dateMinDays le_rfl (by decide +kernel)),
    civil_calendar.2.2.1 (-4) 2 29 1 1 1 (by decide) (by decide), civil_calendar.2.2.2.1 (-4) 2 29 (by decide)⟩

end Datetime
