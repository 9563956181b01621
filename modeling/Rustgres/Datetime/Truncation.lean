-- SUMMARY: date_trunc and date_bin against the greatest start of a unit, or of a bin, that is not after a timestamp.
import Rustgres.Datetime.Arithmetic
import Rustgres.Lib.Grid

/-!
# Truncation

The starts of each unit are the points of a grid: the first days of every so many months, or every so many
microseconds. Truncation is the greatest point that is not after the timestamp, except for decades before the year
zero, which are rounded towards it.
-/

namespace Datetime

open Gregorian (CivilDate)
open Gregorian.CivilDate (firstOfMonth firstOfMonth_strictMono)
open Machine (i32 i64)
open Encoding (Interval)
open Values (isFinite intervalRange)
open Grid (Cell Points)

/-! ## The model -/

inductive TruncUnit where
  | millennium | century | decade | year | quarter | month | week | day | hour | minute | second | milliseconds
  | microseconds
  deriving DecidableEq

def TruncUnit.ofField : String → Option TruncUnit
  | "millennium" => some .millennium
  | "century" => some .century
  | "decade" => some .decade
  | "year" => some .year
  | "quarter" => some .quarter
  | "month" => some .month
  | "week" => some .week
  | "day" => some .day
  | "hour" => some .hour
  | "minute" => some .minute
  | "second" => some .second
  | "milliseconds" | "millisecond" => some .milliseconds
  | "microseconds" | "microsecond" => some .microseconds
  | _ => none

/-- The number of the period of `n` years around `y`. There is no period zero. -/
def periodOf (n y : Int) : Int :=
  if y > 0 then (y - 1).tdiv n + 1
  else
    let bc := 1 - y; -((bc - 1).tdiv n + 1)

/-- The first year of the period of `n` years around `y`. -/
def periodStart (n y : Int) : Int :=
  let c := periodOf n y
  if c > 0 then i32.wrap ((c - 1) * n + 1) else i32.wrap (1 - ((-c - 1) * n + n))

def centuryStart : Int → Int := periodStart 100

def millenniumStart : Int → Int := periodStart 1000

def dayMicros (y m d : Int) : Int := daysFromCivil y m d * usecsPerDay

def atHms (base h mi s : Int) : Int := base + (h * 3600 + mi * 60 + s) * 1000000

def TruncUnit.truncate (u : TruncUnit) (micros : Int) : Int :=
  let (days, tod) := splitMicros micros
  let (y, m, _) := civilFromDays days
  let hh := tod.tdiv 3600000000
  let mm := (tod.tdiv 60000000).tmod 60
  let ss := (tod.tdiv 1000000).tmod 60
  match u with
  | millennium => dayMicros (millenniumStart y) 1 1
  | century => dayMicros (centuryStart y) 1 1
  | decade => dayMicros (y.tdiv 10 * 10) 1 1
  | year => dayMicros y 1 1
  | quarter => dayMicros y ((m - 1).tdiv 3 * 3 + 1) 1
  | month => dayMicros y m 1
  | week => (days - (dayOfWeek days + 6) % 7) * usecsPerDay
  | day => days * usecsPerDay
  | hour => atHms (days * usecsPerDay) hh 0 0
  | minute => atHms (days * usecsPerDay) hh mm 0
  | second => atHms (days * usecsPerDay) hh mm ss
  | milliseconds => days * usecsPerDay + tod.tdiv 1000 * 1000
  | microseconds => micros

inductive TruncError where
  | unsupported (field : String)
  deriving DecidableEq

def dateTrunc (field : String) (micros : Int) : Except TruncError Int :=
  match TruncUnit.ofField field with
  | none => .error (.unsupported field)
  | some u => if micros = tsInfinity ∨ micros = tsNegInfinity then .ok micros else .ok (u.truncate micros)

/-- The width of the bins, once the stride is accepted. -/
def strideMicros (stride : Interval) : Except String Int :=
  if !isFinite stride then .error "timestamps cannot be binned into infinite intervals"
  else if stride.months.toInt ≠ 0 then
    .error "timestamps cannot be binned into intervals containing months or years"
  else
    match (i64.checked (stride.days.toInt * usecsPerDay)).bind fun d => i64.checked (d + stride.micros.toInt) with
    | none => .error intervalRange
    | some strideUs => if strideUs ≤ 0 then .error "stride must be greater than zero" else .ok strideUs

def dateBin (stride : Interval) (source origin : Int) : Except String Int := do
  let strideUs ← strideMicros stride
  if source = tsInfinity ∨ source = tsNegInfinity then return source
  match i64.checked (source - origin) with
  | none => .error intervalRange
  | some diff =>
    let bins := diff / strideUs
    match i64.checked (origin + bins * strideUs) with
    | none => .error timestampRange
    | some out => if !isValidTsMicros out then .error timestampRange else .ok out

/-! ## The starts of the units -/

/-- The first day of the month `r` and of every `k`-th month around it. -/
def monthPoint (k r n : Int) : Int := (firstOfMonth (r + k * n) - epochNumber) * usecsPerDay

/-- The time `r` and every multiple of `k` around it. -/
def evenPoint (k r n : Int) : Int := r + k * n

/-- The starts of the unit, numbered. Weeks start on Mondays, and the fourth day was one. -/
def TruncUnit.point : TruncUnit → Int → Int
  | millennium => monthPoint 12000 12
  | century => monthPoint 1200 12
  | decade => monthPoint 120 0
  | year => monthPoint 12 0
  | quarter => monthPoint 3 0
  | month => monthPoint 1 0
  | week => evenPoint (7 * usecsPerDay) (4 * usecsPerDay)
  | day => evenPoint usecsPerDay 0
  | hour => evenPoint 3600000000 0
  | minute => evenPoint 60000000 0
  | second => evenPoint 1000000 0
  | milliseconds => evenPoint 1000 0
  | microseconds => evenPoint 1 0

theorem monthPoint_strictMono {k : Int} (r : Int) (hk : 0 < k) : StrictMono (monthPoint k r) := by
  intro a b hab
  have hlt : firstOfMonth (r + k * a) < firstOfMonth (r + k * b) := by
    apply firstOfMonth_strictMono
    have := Int.mul_lt_mul_of_pos_left hab hk
    omega
  unfold monthPoint usecsPerDay
  omega

theorem evenPoint_strictMono {k : Int} (r : Int) (hk : 0 < k) : StrictMono (evenPoint k r) := by
  intro a b hab
  have := Int.mul_lt_mul_of_pos_left hab hk
  unfold evenPoint
  omega

theorem TruncUnit.point_strictMono (u : TruncUnit) : StrictMono u.point := by
  cases u with
  | millennium | century | decade | year | quarter | month => exact monthPoint_strictMono _ (by decide)
  | week | day | hour | minute | second | milliseconds | microseconds => exact evenPoint_strictMono _ (by decide)

/-- The months of a timestamp, from the start of the year zero. -/
noncomputable def monthsOf (t : Int) : Int := (CivilDate.ofNumber (t / usecsPerDay + epochNumber)).months

theorem cell_monthPoint {k r : Int} (hk : 0 < k) (t : Int) : Cell (monthPoint k r) ((monthsOf t - r) / k) t := by
  have hmonth := (CivilDate.ofNumber (t / usecsPerDay + epochNumber)).month_bounds
  rw [CivilDate.number_ofNumber] at hmonth
  change firstOfMonth (monthsOf t) ≤ _ ∧ _ < firstOfMonth (monthsOf t + 1) at hmonth
  have hle : firstOfMonth (r + k * ((monthsOf t - r) / k)) ≤ firstOfMonth (monthsOf t) :=
    firstOfMonth_strictMono.monotone (by have := Int.mul_ediv_self_le (x := monthsOf t - r) hk.ne'; omega)
  have hlt : firstOfMonth (monthsOf t + 1) ≤ firstOfMonth (r + k * ((monthsOf t - r) / k + 1)) :=
    firstOfMonth_strictMono.monotone (by
      have := Int.lt_mul_ediv_self_add (x := monthsOf t - r) hk
      rw [Int.mul_add]
      omega)
  unfold Cell monthPoint
  unfold usecsPerDay at *
  omega

theorem cell_evenPoint {k r : Int} (hk : 0 < k) (t : Int) : Cell (evenPoint k r) ((t - r) / k) t := by
  have := Int.mul_ediv_self_le (x := t - r) hk.ne'
  have := Int.lt_mul_ediv_self_add (x := t - r) hk
  unfold Cell evenPoint
  rw [Int.mul_add]
  omega

/-! ## Truncation to a point -/

theorem dayMicros_first {y m : Int} (hm : 1 ≤ m) (hm' : m ≤ 12) :
    dayMicros y m 1 = (firstOfMonth (12 * y + (m - 1)) - epochNumber) * usecsPerDay := by
  have hdate := daysFromCivil_number ⟨y, m, 1, hm, hm', le_rfl, by have := Gregorian.le_monthLength y m; omega⟩
  rw [CivilDate.number, Int.sub_self, Int.add_zero, CivilDate.number_first hm hm'] at hdate
  rw [dayMicros, hdate]

/-- Periods before the year one end in years that are multiples of their length. -/
theorem periodStart_eq {n y : Int} (hn : n = 100 ∨ n = 1000) (hlo : -1000000 ≤ y) (hhi : y ≤ 1000000) :
    periodStart n y = 1 + n * ((y - 1) / n) := by
  have hdiv : (-y) / n = -((y - 1) / n) - 1 := by rcases hn with rfl | rfl <;> omega
  have hbound : -2000000 ≤ n * ((y - 1) / n) ∧ n * ((y - 1) / n) ≤ 2000000 := by rcases hn with rfl | rfl <;> omega
  have hsign : 0 ≤ (y - 1) / n ↔ 0 < y := by rcases hn with rfl | rfl <;> omega
  have hperiod : periodOf n y = if y > 0 then (y - 1) / n + 1 else (y - 1) / n := by
    unfold periodOf
    split
    · rw [Int.tdiv_eq_ediv_of_nonneg (by omega)]
    · dsimp only
      rw [show (1 - y - 1 : Int) = -y by omega, Int.tdiv_eq_ediv_of_nonneg (by omega), hdiv]
      omega
  have hfit : ∀ k : Int, -2000000 ≤ k → k ≤ 2000001 → i32.wrap k = k := fun k hk hk' =>
    Machine.IntType.wrap_of_holds (by unfold i32; constructor <;> dsimp only <;> omega)
  unfold periodStart
  rw [hperiod]
  dsimp only
  by_cases hy : y > 0
  · have hzero := hsign.2 hy
    rw [if_pos hy, if_pos (by omega), Int.add_sub_cancel, Int.mul_comm, hfit _ (by omega) (by omega), Int.add_comm]
  · have hneg : ¬0 ≤ (y - 1) / n := fun h => hy (hsign.1 h)
    have hstart : 1 - ((-((y - 1) / n) - 1) * n + n) = 1 + n * ((y - 1) / n) := by
      rw [Int.sub_mul, Int.neg_mul, Int.mul_comm]
      omega
    rw [if_neg hy, if_neg (by omega), hstart, hfit _ (by omega) (by omega)]

/-- A decade before the year zero that is cut at its end. -/
def CutsLate (u : TruncUnit) (t : Int) : Prop :=
  u = .decade ∧ (civilFromDays (splitMicros t).1).1 < 0 ∧ (civilFromDays (splitMicros t).1).1 % 10 ≠ 0

instance (u : TruncUnit) (t : Int) : Decidable (CutsLate u t) := inferInstanceAs (Decidable (_ ∧ _))

/-- The timestamps whose dates are looked at: the valid ones and the starts of units before them. -/
def Near (t : Int) : Prop := -9000000000000000000 ≤ t ∧ t < 9223372036854775807

/-- The date of a timestamp, and its time of day. -/
theorem truncate_date {t : Int} (ht : Near t) :
    ∃ c : CivilDate, (-1000000 ≤ c.year ∧ c.year ≤ 1000000) ∧ monthsOf t = 12 * c.year + (c.month - 1) ∧
      civilFromDays (splitMicros t).1 = (c.year, c.month, c.day) ∧ splitMicros t = (t / usecsPerDay, t % usecsPerDay) := by
  refine ⟨CivilDate.ofNumber (t / usecsPerDay + epochNumber), ?_, rfl, ?_, splitMicros_eq t⟩
  · have hbounds := @CivilDate.year_bounds (CivilDate.ofNumber (t / usecsPerDay + epochNumber)) 200000000
    rw [CivilDate.number_ofNumber] at hbounds
    unfold Near at ht
    unfold usecsPerDay epochNumber at *
    omega
  · unfold Near at ht
    rw [splitMicros_eq]
    unfold usecsPerDay
    exact civilFromDays_valid (by omega) (by omega)

theorem dayMicros_point {k r y month : Int} (hm : 1 ≤ month) (hm' : month ≤ 12) (n : Int)
    (h : 12 * y + (month - 1) = r + k * n) : dayMicros y month 1 = monthPoint k r n := by
  rw [dayMicros_first hm hm', h]
  rfl

/-- Truncation finds the start of the cell, and a decade that cuts late the start of the next. -/
theorem truncate_cell {t : Int} (ht : Near t) (u : TruncUnit) : ∃ n, Cell u.point n t ∧
    u.truncate t = u.point (if CutsLate u t then n + 1 else n) := by
  obtain ⟨c, ⟨hlo, hhi⟩, hmonths, hdate, hsplit⟩ := truncate_date ht
  have hm := c.one_le_month
  have hm' := c.month_le
  have hkeeps : u ≠ .decade → ¬CutsLate u t := fun hu h => hu h.1
  unfold TruncUnit.truncate
  rw [hsplit] at hdate ⊢
  dsimp only at hdate ⊢
  rw [hdate]
  dsimp only
  cases u with
  | millennium =>
    refine ⟨_, cell_monthPoint (by decide) t, ?_⟩
    rw [if_neg (hkeeps (by decide)), millenniumStart, periodStart_eq (.inr rfl) hlo hhi]
    exact dayMicros_point le_rfl (by decide) _ (by omega)
  | century =>
    refine ⟨_, cell_monthPoint (by decide) t, ?_⟩
    rw [if_neg (hkeeps (by decide)), centuryStart, periodStart_eq (.inl rfl) hlo hhi]
    exact dayMicros_point le_rfl (by decide) _ (by omega)
  | decade =>
    refine ⟨_, cell_monthPoint (by decide) t, ?_⟩
    have hlate : CutsLate .decade t ↔ c.year < 0 ∧ c.year % 10 ≠ 0 := by
      rw [CutsLate, hsplit]
      dsimp only
      rw [hdate]
      exact and_iff_right rfl
    by_cases hneg : c.year < 0 ∧ c.year % 10 ≠ 0
    · rw [if_pos (hlate.2 hneg), tdiv_of_neg hneg.1]
      exact dayMicros_point le_rfl (by decide) _ (by omega)
    · rw [if_neg fun h => hneg (hlate.1 h)]
      have hdiv : c.year.tdiv 10 = c.year / 10 := by
        by_cases hc : c.year < 0
        · rw [tdiv_of_neg hc]
          omega
        · exact Int.tdiv_eq_ediv_of_nonneg (by omega)
      rw [hdiv]
      exact dayMicros_point le_rfl (by decide) _ (by omega)
  | year =>
    refine ⟨_, cell_monthPoint (by decide) t, ?_⟩
    rw [if_neg (hkeeps (by decide))]
    exact dayMicros_point le_rfl (by decide) _ (by omega)
  | quarter =>
    refine ⟨_, cell_monthPoint (by decide) t, ?_⟩
    rw [if_neg (hkeeps (by decide)), Int.tdiv_eq_ediv_of_nonneg (a := c.month - 1) (by omega)]
    exact dayMicros_point (by omega) (by omega) _ (by omega)
  | month =>
    refine ⟨_, cell_monthPoint (by decide) t, ?_⟩
    rw [if_neg (hkeeps (by decide))]
    exact dayMicros_point hm hm' _ (by omega)
  | week =>
    refine ⟨_, cell_evenPoint (by decide) t, ?_⟩
    rw [if_neg (hkeeps (by decide))]
    dsimp only [TruncUnit.point]
    unfold evenPoint dayOfWeek usecsPerDay
    omega
  | day =>
    refine ⟨_, cell_evenPoint (by decide) t, ?_⟩
    rw [if_neg (hkeeps (by decide))]
    dsimp only [TruncUnit.point]
    unfold evenPoint usecsPerDay
    omega
  | hour =>
    refine ⟨_, cell_evenPoint (by decide) t, ?_⟩
    rw [if_neg (hkeeps (by decide))]
    dsimp only [TruncUnit.point]
    unfold evenPoint atHms usecsPerDay
    rw [Int.tdiv_eq_ediv_of_nonneg (by omega)]
    omega
  | minute =>
    refine ⟨_, cell_evenPoint (by decide) t, ?_⟩
    rw [if_neg (hkeeps (by decide))]
    dsimp only [TruncUnit.point]
    unfold evenPoint atHms usecsPerDay
    rw [Int.tdiv_eq_ediv_of_nonneg (by omega), Int.tdiv_eq_ediv_of_nonneg (by omega),
      Int.tmod_eq_emod_of_nonneg (by omega)]
    omega
  | second =>
    refine ⟨_, cell_evenPoint (by decide) t, ?_⟩
    rw [if_neg (hkeeps (by decide))]
    dsimp only [TruncUnit.point]
    unfold evenPoint atHms usecsPerDay
    rw [Int.tdiv_eq_ediv_of_nonneg (by omega), Int.tdiv_eq_ediv_of_nonneg (by omega),
      Int.tdiv_eq_ediv_of_nonneg (by omega), Int.tmod_eq_emod_of_nonneg (by omega), Int.tmod_eq_emod_of_nonneg (by omega)]
    omega
  | milliseconds =>
    refine ⟨_, cell_evenPoint (by decide) t, ?_⟩
    rw [if_neg (hkeeps (by decide))]
    dsimp only [TruncUnit.point]
    unfold evenPoint usecsPerDay
    rw [Int.tdiv_eq_ediv_of_nonneg (by omega)]
    omega
  | microseconds =>
    refine ⟨_, cell_evenPoint (by decide) t, ?_⟩
    rw [if_neg (hkeeps (by decide))]
    dsimp only [TruncUnit.point]
    unfold evenPoint
    omega

theorem monthPoint_next (r n : Int) (k : Nat) :
    monthPoint k r (n + 1) ≤ monthPoint k r n + 31 * k * usecsPerDay := by
  have := CivilDate.firstOfMonth_add_le (r + k * n) k
  unfold monthPoint usecsPerDay
  rw [Int.mul_add, Int.mul_one, ← Int.add_assoc]
  omega

/-- No unit is longer than twelve thousand months. -/
theorem TruncUnit.point_next (u : TruncUnit) (n : Int) : u.point (n + 1) ≤ u.point n + 40000000000000000 := by
  have hmonth : ∀ (k : Nat) (r : Int), k ≤ 12000 → monthPoint k r (n + 1) ≤ monthPoint k r n + 40000000000000000 := by
    intro k r hk
    have := monthPoint_next r n k
    unfold usecsPerDay at this
    omega
  have heven : ∀ k r : Int, k ≤ 40000000000000000 → evenPoint k r (n + 1) ≤ evenPoint k r n + 40000000000000000 := by
    intro k r hk
    unfold evenPoint
    rw [Int.mul_add]
    omega
  cases u with
  | millennium => exact hmonth 12000 _ (by decide)
  | century => exact hmonth 1200 _ (by decide)
  | decade => exact hmonth 120 _ (by decide)
  | year => exact hmonth 12 _ (by decide)
  | quarter => exact hmonth 3 _ (by decide)
  | month => exact hmonth 1 _ (by decide)
  | week | day | hour | minute | second | milliseconds | microseconds => exact heven _ _ (by decide)

theorem near_of_valid {t : Int} (ht : isValidTsMicros t = true) : Near t := by
  obtain ⟨hlo, hhi⟩ := valid_bounds ht
  unfold Near
  omega

/-- The start of a unit around a timestamp may be before the first one, but not by much. -/
theorem near_start {u : TruncUnit} {t n : Int} (ht : isValidTsMicros t = true) (hn : Cell u.point n t) :
    Near (u.point n) := by
  obtain ⟨hlo, hhi⟩ := valid_bounds ht
  have := u.point_next n
  have := hn.1
  have := hn.2
  unfold Near
  omega

/-- The start of a decade is not cut. -/
theorem not_cutsLate_start {u : TruncUnit} {n : Int} (hn : Near (u.point n)) : ¬CutsLate u (u.point n) := by
  rintro ⟨rfl, -, hrest⟩
  obtain ⟨c, -, hmonths, hdate, -⟩ := truncate_date hn
  have hpoint : TruncUnit.decade.point n = monthPoint 1 0 (120 * n) := by
    dsimp only [TruncUnit.point]
    unfold monthPoint
    rw [Int.one_mul]
  have hcell := @cell_monthPoint 1 0 (by decide) (TruncUnit.decade.point n)
  have hstart := Grid.cell_point (monthPoint_strictMono 0 (by decide : (0 : Int) < 1)) (120 * n)
  rw [← hpoint] at hstart
  have hindex := hcell.eq (monthPoint_strictMono 0 (by decide)) hstart
  have := c.one_le_month
  have := c.month_le
  rw [hdate] at hrest
  dsimp only at hrest
  omega

/-- The result is the last start of the unit that is not after `t`. It is less than a unit before `t`, truncated
already, and not after that of a later timestamp. -/
structure Floors (field : String) (u : TruncUnit) (t r : Int) : Prop where
  result : dateTrunc field t = .ok r
  greatest : IsGreatest {s | s ∈ Points u.point ∧ s ≤ t} r
  within : ∀ next, IsLeast {s | s ∈ Points u.point ∧ r < s} next → t < next
  idempotent : dateTrunc field r = .ok r
  monotone : ∀ t', isValidTsMicros t' = true → t ≤ t' → ∃ r', dateTrunc field t' = .ok r' ∧ r ≤ r'

theorem dateTrunc_near {field : String} {u : TruncUnit} (hfield : TruncUnit.ofField field = some u) {t : Int}
    (ht : Near t) : dateTrunc field t = .ok (u.truncate t) := by
  unfold Near at ht
  rw [dateTrunc, hfield]
  exact if_neg (by unfold tsInfinity tsNegInfinity; omega)

theorem floors_iff {field : String} {u : TruncUnit} (hfield : TruncUnit.ofField field = some u) {t : Int}
    (ht : isValidTsMicros t = true) : (∃ r, Floors field u t r) ↔ ¬CutsLate u t := by
  obtain ⟨n, hcell, htrunc⟩ := truncate_cell (near_of_valid ht) u
  constructor
  · rintro ⟨r, h⟩ hlate
    rw [if_pos hlate] at htrunc
    have hr := (dateTrunc_near hfield (near_of_valid ht)).symm.trans h.result
    rw [Except.ok.injEq, htrunc] at hr
    have hle := h.greatest.1.2
    rw [← hr] at hle
    exact absurd hcell.2 (not_lt.2 hle)
  · intro hkeeps
    rw [if_neg hkeeps] at htrunc
    refine ⟨u.point n, ?_, hcell.isGreatest u.point_strictMono, ?_, ?_, ?_⟩
    · rw [dateTrunc_near hfield (near_of_valid ht), htrunc]
    · intro next hnext
      rw [hnext.unique (Grid.isLeast_next u.point_strictMono n)]
      exact hcell.2
    · obtain ⟨m, hm, hstart⟩ := truncate_cell (near_start ht hcell) u
      rw [if_neg (not_cutsLate_start (near_start ht hcell)),
        hm.eq u.point_strictMono (Grid.cell_point u.point_strictMono n)] at hstart
      rw [dateTrunc_near hfield (near_start ht hcell), hstart]
    · intro t' ht' hle
      obtain ⟨m, hm, hlater⟩ := truncate_cell (near_of_valid ht') u
      refine ⟨_, dateTrunc_near hfield (near_of_valid ht'), ?_⟩
      rw [hlater]
      apply u.point_strictMono.monotone
      have := hcell.le u.point_strictMono hm hle
      split <;> omega

/-! ## Bins -/

/-- The result is the last start of a bin that is not after `t`, or an error where that is no timestamp. -/
def Bins (stride : Interval) (w t origin : Int) : Prop :=
  ∃ r, IsGreatest {s | s ∈ Points (evenPoint w origin) ∧ s ≤ t} r ∧
    (isValidTsMicros r = true → dateBin stride t origin = .ok r) ∧
    (isValidTsMicros r = false →
      dateBin stride t origin = .error intervalRange ∨ dateBin stride t origin = .error timestampRange)

theorem strideMicros_pos {stride : Interval} {w : Int} (h : strideMicros stride = .ok w) : 0 < w := by
  unfold strideMicros at h
  split at h
  · cases h
  · split at h
    · cases h
    · split at h
      · cases h
      · split at h
        · cases h
        · cases h
          omega

theorem dateBin_eq {stride : Interval} {w t origin : Int} (hw : strideMicros stride = .ok w)
    (ht : isValidTsMicros t = true) : dateBin stride t origin =
      if i64.Holds (t - origin) then
        if isValidTsMicros (evenPoint w origin ((t - origin) / w)) then .ok (evenPoint w origin ((t - origin) / w))
        else .error timestampRange
      else .error intervalRange := by
  obtain ⟨hlo, hhi⟩ := valid_bounds ht
  unfold dateBin
  rw [hw]
  show (if t = tsInfinity ∨ t = tsNegInfinity then _ else _) = _
  rw [if_neg (by unfold tsInfinity tsNegInfinity; omega)]
  by_cases hdiff : i64.Holds (t - origin)
  · rw [Machine.IntType.checked_of_holds hdiff, if_pos hdiff]
    dsimp only
    rw [Int.mul_comm, ← evenPoint]
    by_cases hout : i64.Holds (evenPoint w origin ((t - origin) / w))
    · rw [Machine.IntType.checked_of_holds hout]
      dsimp only
      cases isValidTsMicros (evenPoint w origin ((t - origin) / w)) with
      | true => rfl
      | false => rfl
    · have hinvalid : ¬isValidTsMicros (evenPoint w origin ((t - origin) / w)) = true := fun h => hout (holds_of_valid h)
      rw [Machine.IntType.checked_of_not_holds hout, if_neg hinvalid]
  · rw [Machine.IntType.checked_of_not_holds hdiff, if_neg hdiff]

/-- The start of the bin of `t`. -/
theorem binStart_eq {w origin t : Int} : evenPoint w origin ((t - origin) / w) = t - (t - origin) % w := by
  have := Int.mul_ediv_add_emod (t - origin) w
  unfold evenPoint
  omega

theorem bins_iff {stride : Interval} {w t origin : Int} (hw : strideMicros stride = .ok w)
    (ht : isValidTsMicros t = true) :
    Bins stride w t origin ↔ i64.Holds (t - origin) ∨ t - tsMinMicros < (t - origin) % w := by
  have hpos := strideMicros_pos hw
  have hgreatest := (cell_evenPoint (r := origin) hpos t).isGreatest (evenPoint_strictMono origin hpos)
  have hbin := @dateBin_eq _ _ _ origin hw ht
  have hvalid : isValidTsMicros (evenPoint w origin ((t - origin) / w)) = false ↔
      t - tsMinMicros < (t - origin) % w := by
    have hlast : evenPoint w origin ((t - origin) / w) < tsInfinity :=
      lt_of_le_of_lt hgreatest.1.2 (of_decide_eq_true ht).2
    rw [isValidTsMicros, decide_eq_false_iff_not, and_iff_left hlast, binStart_eq]
    omega
  constructor
  · rintro ⟨r, hr, hok, -⟩
    by_cases hdiff : i64.Holds (t - origin)
    · exact .inl hdiff
    · right
      rw [← hvalid]
      rw [hr.unique hgreatest] at hok
      rw [hbin, if_neg hdiff] at hok
      by_contra hne
      cases hok (Bool.eq_true_of_not_eq_false hne)
  · intro h
    refine ⟨_, hgreatest, ?_, ?_⟩
    · intro hok
      rw [hbin, if_pos hok]
      exact if_pos (h.resolve_right fun hlt => by rw [hvalid.2 hlt] at hok; cases hok)
    · intro hbad
      rw [hbin, hbad]
      split
      · exact .inr rfl
      · exact .inl rfl

/-- Truncation is to the floor except for late decades, and bins are found where the difference from the origin fits
or where there is none to find. -/
theorem truncation_floor (field : String) (u : TruncUnit) (t : Int) (stride : Interval) (w origin : Int)
    (hfield : TruncUnit.ofField field = some u) (ht : isValidTsMicros t = true)
    (hw : strideMicros stride = .ok w) :
    ((∃ r, Floors field u t r) ↔ ¬CutsLate u t) ∧
      (Bins stride w t origin ↔ i64.Holds (t - origin) ∨ t - tsMinMicros < (t - origin) % w) :=
  ⟨floors_iff hfield ht, bins_iff hw ht⟩

theorem truncation_floor_epoch : (∃ r, Floors "decade" .decade (-1) r) ∧ Bins ⟨0, 1, 0⟩ 86400000000 (-1) 0 :=
  have h := truncation_floor "decade" .decade (-1) ⟨0, 1, 0⟩ 86400000000 0 rfl rfl (by decide)
  ⟨h.1.2 (by decide), h.2.2 (.inl (by decide))⟩

/-- The first day of the year -1 is cut to the year zero, and the day after that of the first timestamp is not found
from the last one. -/
theorem truncation_late :
    dateTrunc "decade" (-62198755200000000) = .ok (-62167219200000000) ∧
      ¬(-62167219200000000 ≤ (-62198755200000000 : Int)) ∧
      dateBin ⟨0, 1, 0⟩ (tsMinMicros + 86400000000) 9223372036854775806 = .error intervalRange ∧
      isValidTsMicros (evenPoint 86400000000 9223372036854775806
        ((tsMinMicros + 86400000000 - 9223372036854775806) / 86400000000)) = true := by
  refine ⟨by decide +kernel, by decide, by decide +kernel, by decide +kernel⟩

end Datetime
