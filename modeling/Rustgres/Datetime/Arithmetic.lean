-- SUMMARY: Timestamps plus intervals and differences of timestamps, against the sum in whole numbers.
import Rustgres.Datetime.Calendar
import Rustgres.Values.Interval

/-!
# Timestamp Arithmetic

An interval is added in three steps: its months move the date, its days the day number, and its microseconds the time.
The day and the time are put together first, so a sum that is in range may be lost on the way.
-/

namespace Datetime

open Gregorian (CivilDate)
open Machine (i32 i64 Failure)
open Encoding (Interval)
open Values (isFinite intervalInfinity intervalNegInfinity intervalRange)

/-! ## The model -/

def timestampRange : String := "timestamp out of range"

def rangeError {α : Type} : Option α → Except Failure α
  | some a => .ok a
  | none => .error (.message timestampRange)

/-- The day, the time of day and the microseconds put together. The last sum is not reached when one before it is out
of range. -/
def joinMicros (days tod micros sign : Int) : Except Failure Int :=
  match (i64.checked (days * usecsPerDay)).bind fun x => i64.checked (x + tod) with
  | none => .error (.message timestampRange)
  | some x => do
    let step ← i64.op (micros * sign)
    rangeError (i64.checked (x + step))

def inRange (micros : Int) : Except Failure Int :=
  if !isValidTsMicros micros then .error (.message timestampRange) else .ok micros

def timestampAddInterval (ts : Int) (iv : Interval) (sign : Int) : Except Failure Int :=
  if ts = tsInfinity ∨ ts = tsNegInfinity then
    if !isFinite iv then .error (.message intervalRange) else .ok ts
  else if iv = intervalInfinity then .ok (if sign > 0 then tsInfinity else tsNegInfinity)
  else if iv = intervalNegInfinity then .ok (if sign > 0 then tsNegInfinity else tsInfinity)
  else do
    let (days, tod) := splitMicros ts
    let (y, m, d) := civilFromDays days
    let monthsDelta ← i64.op (iv.months.toInt * sign)
    let totalMonths ← i64.op (y * 12 + (m - 1) + monthsDelta)
    let ny ← rangeError (i32.checked (totalMonths / 12))
    let nm := totalMonths % 12 + 1
    let nd := min d (daysInMonth ny nm)
    let daysDelta ← i64.op (iv.days.toInt * sign)
    let days2 ← i64.op (daysFromCivil ny nm nd + daysDelta)
    let micros ← joinMicros days2 tod iv.micros.toInt sign
    inRange micros

def timestampDiff (ts1 ts2 : Int) : Except Failure Interval :=
  if ts1 = tsInfinity ∨ ts1 = tsNegInfinity ∨ ts2 = tsInfinity ∨ ts2 = tsNegInfinity then
    if ts1 = ts2 then .error (.message intervalRange)
    else if ts1 = tsInfinity ∨ ts2 = tsNegInfinity then .ok intervalInfinity
    else .ok intervalNegInfinity
  else
    let diff := ts1 - ts2
    let days := diff / usecsPerDay
    let micros := diff % usecsPerDay
    let (days, micros) := if diff < 0 ∧ micros ≠ 0 then (days + 1, micros - usecsPerDay) else (days, micros)
    match i32.checked days with
    | none => .error (.message intervalRange)
    | some days => .ok ⟨0, Int32.ofInt days, Int64.ofInt micros⟩

/-! ## The exact sum -/

/-- The day on which `iv` puts `t`, before its microseconds are added. -/
noncomputable def movedDay (t : Int) (iv : Interval) (sign : Int) : Int :=
  ((CivilDate.ofNumber (t / usecsPerDay + epochNumber)).addMonths (sign * iv.months.toInt)).number - epochNumber
    + sign * iv.days.toInt

/-- The sum in whole numbers. -/
noncomputable def exactSum (t : Int) (iv : Interval) (sign : Int) : Int :=
  movedDay t iv sign * usecsPerDay + t % usecsPerDay + sign * iv.micros.toInt

/-- A result is exact if it is the sum where that is a timestamp, and an error where not. -/
def Exact (t : Int) (iv : Interval) (sign : Int) (r : Except Failure Int) : Prop :=
  (isValidTsMicros (exactSum t iv sign) = true → r = .ok (exactSum t iv sign)) ∧
    (isValidTsMicros (exactSum t iv sign) = false → ∃ text, r = .error (.message text))

/-- The moved day with the time of day of `t` fits in 64 bits. -/
def DayFits (t : Int) (iv : Interval) (sign : Int) : Prop :=
  i64.Holds (movedDay t iv sign * usecsPerDay) ∧ i64.Holds (movedDay t iv sign * usecsPerDay + t % usecsPerDay)

/-- The microseconds whose opposite is out of range are subtracted. -/
def NegatesLeast (iv : Interval) (sign : Int) : Prop := sign = -1 ∧ iv.micros = Int64.minValue

theorem joinMicros_eq (days tod micros sign : Int) : joinMicros days tod micros sign =
    if i64.Holds (days * usecsPerDay) ∧ i64.Holds (days * usecsPerDay + tod) then
      if i64.Holds (micros * sign) then rangeError (i64.checked (days * usecsPerDay + tod + micros * sign))
      else .error .overflow
    else .error (.message timestampRange) := by
  unfold joinMicros
  by_cases hday : i64.Holds (days * usecsPerDay)
  · rw [Machine.IntType.checked_of_holds hday, Option.bind_some]
    by_cases htod : i64.Holds (days * usecsPerDay + tod)
    · rw [Machine.IntType.checked_of_holds htod, if_pos ⟨hday, htod⟩]
      by_cases hstep : i64.Holds (micros * sign)
      · rw [if_pos hstep, Machine.IntType.op_of_holds hstep]
        rfl
      · rw [if_neg hstep, Machine.IntType.op_of_not_holds hstep]
        rfl
    · rw [Machine.IntType.checked_of_not_holds htod, if_neg fun h => htod h.2]
  · rw [Machine.IntType.checked_of_not_holds hday, if_neg fun h => hday h.1]
    rfl

theorem valid_bounds {t : Int} (ht : isValidTsMicros t = true) :
    -2440588 * 86400000000 ≤ t ∧ t < 9223372036854775807 := by
  have h := of_decide_eq_true ht
  unfold tsMinMicros dateMinDays julianUnixEpoch usecsPerDay tsInfinity at h
  omega

theorem field_bounds (n : Int32) {sign : Int} (hsign : sign = 1 ∨ sign = -1) :
    -2147483648 ≤ n.toInt * sign ∧ n.toInt * sign ≤ 2147483648 := by
  have := n.le_toInt
  have := n.toInt_lt
  rcases hsign with rfl | rfl <;> omega

theorem holds_i64 {n : Int} (hlo : -9000000000000000000 ≤ n) (hhi : n ≤ 9000000000000000000) : i64.Holds n := by
  unfold i64
  constructor <;> dsimp only <;> omega

/-- The date of a timestamp, moved by months, keeps a small day. -/
theorem moved_bounds {c : CivilDate} (hlo : -108000000 ≤ c.number) (hhi : c.number ≤ 108000000) {n : Int}
    (hn : -2147483648 ≤ n) (hn' : n ≤ 2147483648) : (-300000 ≤ c.year ∧ c.year ≤ 300000) ∧
      i32.Holds (c.addMonths n).year ∧ -80000000000 ≤ (c.addMonths n).number ∧ (c.addMonths n).number ≤ 80000000000 := by
  have hyear := c.year_bounds hlo hhi
  have := c.one_le_month
  have := c.month_le
  have hmoved : -180000000 ≤ (c.addMonths n).year ∧ (c.addMonths n).year ≤ 180000000 := by
    show -180000000 ≤ (c.months + n) / 12 ∧ (c.months + n) / 12 ≤ 180000000
    unfold CivilDate.months
    omega
  have hnumber := (c.addMonths n).number_bounds
  unfold Gregorian.daysBeforeYear at hnumber
  refine ⟨by omega, ?_, by omega, by omega⟩
  unfold i32
  constructor <;> dsimp only <;> omega

/-- Every step before the last ones is within its range. -/
theorem timestampAddInterval_eq {t : Int} {iv : Interval} {sign : Int} (ht : isValidTsMicros t = true)
    (hiv : isFinite iv = true) (hsign : sign = 1 ∨ sign = -1) : timestampAddInterval t iv sign =
      (joinMicros (movedDay t iv sign) (t % usecsPerDay) iv.micros.toInt sign).bind inRange := by
  obtain ⟨hlo, hhi⟩ := valid_bounds ht
  have hfinite := of_decide_eq_true (Bool.and_eq_true_iff.1 hiv).1
  have hfinite' := of_decide_eq_true (Bool.and_eq_true_iff.1 hiv).2
  have hday : -2440588 ≤ t / usecsPerDay ∧ t / usecsPerDay ≤ 106751991 := by
    unfold usecsPerDay
    omega
  have hmonths := field_bounds iv.months hsign
  have hdays := field_bounds iv.days hsign
  have hnumber := CivilDate.number_ofNumber (t / usecsPerDay + epochNumber)
  unfold timestampAddInterval movedDay
  rw [if_neg (by unfold tsInfinity tsNegInfinity; omega), if_neg hfinite, if_neg hfinite', splitMicros_eq,
    Int.mul_comm sign, Int.mul_comm sign]
  dsimp only
  rw [civilFromDays_valid (by omega) (by omega)]
  generalize CivilDate.ofNumber (t / usecsPerDay + epochNumber) = c at *
  unfold epochNumber at hnumber
  obtain ⟨hsmall, hyear, hmoved, hmoved'⟩ := @moved_bounds c (by omega) (by omega) _ hmonths.1 hmonths.2
  have := c.one_le_month
  have := c.month_le
  have htotal : c.year * 12 + (c.month - 1) + iv.months.toInt * sign = c.months + iv.months.toInt * sign := by
    unfold CivilDate.months
    omega
  have hdate := daysFromCivil_number (c.addMonths (iv.months.toInt * sign))
  have hmonth : daysInMonth ((c.months + iv.months.toInt * sign) / 12) ((c.months + iv.months.toInt * sign) % 12 + 1)
      = Gregorian.monthLength ((c.months + iv.months.toInt * sign) / 12)
        ((c.months + iv.months.toInt * sign) % 12 + 1) := daysInMonth_eq (by omega) (by omega)
  dsimp only
  rw [Machine.IntType.op_bind (holds_i64 (by omega) (by omega)),
    Machine.IntType.op_bind (holds_i64 (by omega) (by omega)), htotal,
    Machine.IntType.checked_of_holds (show i32.Holds ((c.months + iv.months.toInt * sign) / 12) from hyear)]
  show (i64.op (iv.days.toInt * sign) >>= _) = _
  rw [Machine.IntType.op_bind (holds_i64 (by omega) (by omega)), hmonth]
  show (i64.op (daysFromCivil (c.addMonths (iv.months.toInt * sign)).year (c.addMonths (iv.months.toInt * sign)).month
    (c.addMonths (iv.months.toInt * sign)).day + iv.days.toInt * sign) >>= _) = _
  rw [hdate, Machine.IntType.op_bind (holds_i64 (by unfold epochNumber; omega) (by unfold epochNumber; omega))]
  rfl

theorem micros_holds {iv : Interval} {sign : Int} (hsign : sign = 1 ∨ sign = -1) :
    i64.Holds (iv.micros.toInt * sign) ↔ ¬NegatesLeast iv sign := by
  have hlo := iv.micros.le_toInt
  have hhi := iv.micros.toInt_lt
  have hleast : iv.micros = Int64.minValue ↔ iv.micros.toInt = -9223372036854775808 := by
    rw [← Int64.toInt_inj]
    rfl
  unfold NegatesLeast i64 Machine.IntType.Holds
  rw [hleast]
  dsimp only
  rcases hsign with rfl | rfl <;> omega

theorem holds_of_valid {t : Int} (ht : isValidTsMicros t = true) : i64.Holds t := by
  obtain ⟨hlo, hhi⟩ := valid_bounds ht
  unfold i64
  constructor <;> dsimp only <;> omega

theorem exact_of_checked {t : Int} {iv : Interval} {sign : Int} :
    Exact t iv sign ((rangeError (i64.checked (exactSum t iv sign))).bind inRange) := by
  constructor
  · intro hvalid
    rw [Machine.IntType.checked_of_holds (holds_of_valid hvalid)]
    show inRange (exactSum t iv sign) = _
    rw [inRange, hvalid]
    rfl
  · intro hinvalid
    by_cases hholds : i64.Holds (exactSum t iv sign)
    · rw [Machine.IntType.checked_of_holds hholds]
      show ∃ text, inRange (exactSum t iv sign) = _
      rw [inRange, hinvalid]
      exact ⟨_, rfl⟩
    · rw [Machine.IntType.checked_of_not_holds hholds]
      exact ⟨_, rfl⟩

/-- The sum is exact unless a step before the last one is out of range, or an operation overflows. -/
theorem exact_iff {t : Int} {iv : Interval} {sign : Int} (ht : isValidTsMicros t = true)
    (hiv : isFinite iv = true) (hsign : sign = 1 ∨ sign = -1) :
    Exact t iv sign (timestampAddInterval t iv sign) ↔ (DayFits t iv sign ∧ ¬NegatesLeast iv sign) ∨
      (¬DayFits t iv sign ∧ isValidTsMicros (exactSum t iv sign) = false) := by
  rw [timestampAddInterval_eq ht hiv hsign, joinMicros_eq]
  by_cases hday : DayFits t iv sign
  · rw [if_pos (show i64.Holds _ ∧ i64.Holds _ from hday)]
    by_cases hleast : NegatesLeast iv sign
    · rw [if_neg (mt (micros_holds hsign).1 (not_not.2 hleast))]
      refine iff_of_false ?_ (by tauto)
      rintro ⟨hok, herr⟩
      cases hvalid : isValidTsMicros (exactSum t iv sign) with
      | true => cases hok hvalid
      | false =>
        obtain ⟨text, htext⟩ := herr hvalid
        cases htext
    · rw [if_pos ((micros_holds hsign).2 hleast), Int.mul_comm iv.micros.toInt]
      exact iff_of_true exact_of_checked (.inl ⟨hday, hleast⟩)
  · rw [if_neg (show ¬(i64.Holds _ ∧ i64.Holds _) from hday)]
    constructor
    · rintro ⟨hok, -⟩
      refine .inr ⟨hday, ?_⟩
      cases hvalid : isValidTsMicros (exactSum t iv sign) with
      | true => cases hok hvalid
      | false => rfl
    · rintro (⟨h, -⟩ | ⟨-, hinvalid⟩)
      · exact absurd h hday
      · refine ⟨fun hvalid => ?_, fun _ => ⟨_, rfl⟩⟩
        rw [hinvalid] at hvalid
        cases hvalid

/-! ## Differences -/

theorem movedDay_days {t : Int} {iv : Interval} {sign : Int} (h : iv.months.toInt = 0) :
    movedDay t iv sign = t / usecsPerDay + sign * iv.days.toInt := by
  unfold movedDay
  rw [h, Int.mul_zero, CivilDate.addMonths_zero, CivilDate.number_ofNumber]
  omega

theorem exactSum_days {t : Int} {iv : Interval} {sign : Int} (h : iv.months.toInt = 0) :
    exactSum t iv sign = t + sign * (iv.days.toInt * usecsPerDay + iv.micros.toInt) := by
  unfold exactSum
  rw [movedDay_days h, Int.add_mul, Int.mul_add, Int.mul_assoc]
  have := Int.mul_ediv_add_emod t usecsPerDay
  rw [Int.mul_comm] at this
  omega

/-- A difference of timestamps: days and microseconds of one sign. -/
theorem timestampDiff_spec {t1 t2 : Int} (h1 : isValidTsMicros t1 = true) (h2 : isValidTsMicros t2 = true) :
    ∃ iv, timestampDiff t1 t2 = .ok iv ∧ isFinite iv = true ∧ iv.months.toInt = 0 ∧
      iv.days.toInt * usecsPerDay + iv.micros.toInt = t1 - t2 ∧
      (0 ≤ t1 - t2 → 0 ≤ iv.micros.toInt ∧ 0 ≤ iv.days.toInt) ∧
      (t1 - t2 < 0 → -usecsPerDay < iv.micros.toInt ∧ iv.micros.toInt ≤ 0 ∧ iv.days.toInt ≤ 0) := by
  obtain ⟨hlo1, hhi1⟩ := valid_bounds h1
  obtain ⟨hlo2, hhi2⟩ := valid_bounds h2
  obtain ⟨days, micros, hsplit, hsum, hsign⟩ : ∃ days micros,
      (if t1 - t2 < 0 ∧ (t1 - t2) % usecsPerDay ≠ 0 then
        ((t1 - t2) / usecsPerDay + 1, (t1 - t2) % usecsPerDay - usecsPerDay)
      else ((t1 - t2) / usecsPerDay, (t1 - t2) % usecsPerDay)) = (days, micros) ∧
      days * usecsPerDay + micros = t1 - t2 ∧ ((0 ≤ t1 - t2 ∧ 0 ≤ days ∧ 0 ≤ micros ∧ micros < usecsPerDay) ∨
        (t1 - t2 < 0 ∧ days ≤ 0 ∧ -usecsPerDay < micros ∧ micros ≤ 0)) := by
    unfold usecsPerDay
    split
    · exact ⟨_, _, rfl, by omega, by omega⟩
    · exact ⟨_, _, rfl, by omega, by omega⟩
  have hday : i32.Holds days := by
    unfold usecsPerDay at hsum hsign
    unfold i32
    constructor <;> dsimp only <;> omega
  have htoDays : (Int32.ofInt days).toInt = days :=
    Int32.toInt_ofInt_of_le hday.1 (Int.lt_add_one_of_le hday.2)
  have htoMicros : (Int64.ofInt micros).toInt = micros := by
    unfold usecsPerDay at hsum hsign
    exact Int64.toInt_ofInt_of_le (by omega) (by omega)
  refine ⟨⟨0, Int32.ofInt days, Int64.ofInt micros⟩, ?_, ?_, rfl, ?_, ?_, ?_⟩
  · unfold timestampDiff
    rw [if_neg (by unfold tsInfinity tsNegInfinity; omega)]
    dsimp only
    rw [hsplit]
    dsimp only
    rw [Machine.IntType.checked_of_holds hday]
  · rfl
  · dsimp only
    rw [htoDays, htoMicros, hsum]
  · dsimp only
    rw [htoDays, htoMicros]
    omega
  · dsimp only
    rw [htoDays, htoMicros]
    omega

/-- A difference of timestamps leads from the one to the other. -/
theorem timestampAddInterval_diff {t1 t2 : Int} (h1 : isValidTsMicros t1 = true) (h2 : isValidTsMicros t2 = true) :
    ∃ iv, timestampDiff t1 t2 = .ok iv ∧ timestampAddInterval t2 iv 1 = .ok t1 := by
  obtain ⟨iv, hiv, hfinite, hmonths, hsum, hpos, hneg⟩ := timestampDiff_spec h1 h2
  obtain ⟨hlo1, hhi1⟩ := valid_bounds h1
  obtain ⟨hlo2, hhi2⟩ := valid_bounds h2
  refine ⟨iv, hiv, ?_⟩
  have hexact : exactSum t2 iv 1 = t1 := by
    rw [exactSum_days hmonths, hsum]
    omega
  have hday : DayFits t2 iv 1 := by
    unfold DayFits i64 Machine.IntType.Holds
    rw [movedDay_days hmonths, Int.add_mul, Int.one_mul]
    unfold usecsPerDay at *
    dsimp only
    omega
  have hleast : ¬NegatesLeast iv 1 := fun h => by cases h.1
  have h := (exact_iff h2 hfinite (.inl rfl)).2 (.inl ⟨hday, hleast⟩)
  rw [← hexact]
  exact h.1 (by rw [hexact]; exact h1)

/-- Sums are exact where the day and the time of day fit and no least number is negated, or where there is no sum to
lose, and a difference is always the way between its timestamps. -/
theorem timestamp_arithmetic (t t1 t2 : Int) (iv : Interval) (sign : Int) (ht : isValidTsMicros t = true)
    (hiv : isFinite iv = true) (hsign : sign = 1 ∨ sign = -1) (h1 : isValidTsMicros t1 = true)
    (h2 : isValidTsMicros t2 = true) :
    (Exact t iv sign (timestampAddInterval t iv sign) ↔ (DayFits t iv sign ∧ ¬NegatesLeast iv sign) ∨
      (¬DayFits t iv sign ∧ isValidTsMicros (exactSum t iv sign) = false)) ∧
    ∃ step, timestampDiff t1 t2 = .ok step ∧ timestampAddInterval t2 step 1 = .ok t1 :=
  ⟨exact_iff ht hiv hsign, timestampAddInterval_diff h1 h2⟩

theorem timestamp_arithmetic_epoch : Exact 0 ⟨0, 1, 5⟩ 1 (timestampAddInterval 0 ⟨0, 1, 5⟩ 1) ∧
    ∃ step, timestampDiff 5 (-5) = .ok step ∧ timestampAddInterval (-5) step 1 = .ok 5 := by
  have h := timestamp_arithmetic 0 5 (-5) ⟨0, 1, 5⟩ 1 rfl rfl (.inl rfl) rfl rfl
  refine ⟨h.1.2 (.inl ⟨?_, fun h => by cases h.1⟩), h.2⟩
  unfold DayFits
  rw [movedDay_days rfl]
  decide

/-- The microseconds before the epoch that cannot be negated, and a sum that comes back from the day after the last. -/
theorem sums_lost :
    timestampAddInterval (-86400000000) ⟨0, 0, Int64.minValue⟩ (-1) = .error .overflow ∧
      isValidTsMicros (exactSum (-86400000000) ⟨0, 0, Int64.minValue⟩ (-1)) = true ∧
      timestampAddInterval 9223372036854775806 ⟨0, 1, -86400000000⟩ 1 = .error (.message timestampRange) ∧
      exactSum 9223372036854775806 ⟨0, 1, -86400000000⟩ 1 = 9223372036854775806 := by
  refine ⟨by decide +kernel, ?_, by decide +kernel, ?_⟩
  · rw [exactSum_days rfl]
    rfl
  · rw [exactSum_days rfl]
    rfl

end Datetime
