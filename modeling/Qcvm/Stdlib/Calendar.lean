import Mathlib.Tactic.Linarith
import Qcvm.Lib.Gregorian
import Qcvm.Num

/-!
# Calendar times

`calendar_from_unix`, which finds the date of a number of seconds, and from `stdlib/strftime.rs` the way
back (`days_from_civil` and the seconds that `%s` prints) and the weeks of ISO 8601. Both conversions
count years from 1 March, in cycles of 400 years: `marchStart` is where such a year starts.
-/

namespace Qcvm.Stdlib

open Lib

/-- The value fits an `i32`. -/
def InI32 (z : Int) : Prop := -2 ^ 31 ≤ z ∧ z ≤ 2 ^ 31 - 1

instance (z : Int) : Decidable (InI32 z) := inferInstanceAs (Decidable (_ ∧ _))

/-- `u32::try_from(z).unwrap_or(other)`. -/
def u32Or (z : Int) (other : Nat) : Nat := if 0 ≤ z ∧ z ≤ u32Max then z.toNat else other

/-- `CalendarTime`: months and days of the week and of the year count from 0, days from 1. -/
structure CalendarTime where
  year : Int
  month : Nat
  day : Nat
  hour : Nat
  minute : Nat
  second : Nat
  weekday : Nat
  yearday : Nat
  utcOffset : Int
  zone : Option String
  deriving Repr, DecidableEq

/-- `is_leap`. -/
def isLeap (year : Int) : Bool :=
  (year.tmod 4 = 0 && year.tmod 100 ≠ 0) || year.tmod 400 = 0

/-- `START`: the days of a common year before each month. -/
def monthStart : List Int := [0, 31, 59, 90, 120, 151, 181, 212, 243, 273, 304, 334]

/-- The year, the month from 1 and the day that `calendar_from_unix` finds for a day. -/
def civilFromDays (days : Int) : Int × Int × Int :=
  let z := addI64 days 719468
  let era := z / 146097
  let doe := z % 146097
  let yoe := (doe - doe.tdiv 1460 + doe.tdiv 36524 - doe.tdiv 146096).tdiv 365
  let doy := doe - (365 * yoe + yoe.tdiv 4 - yoe.tdiv 100)
  let mp := (5 * doy + 2).tdiv 153
  let day := doy - (153 * mp + 2).tdiv 5 + 1
  let month := if mp < 10 then mp + 3 else mp - 9
  let year := yoe + era * 400 + if month ≤ 2 then 1 else 0
  (year, month, day)

/-- `calendar_from_unix`. -/
def calendarFromUnix (secs : Int) : CalendarTime :=
  let days := secs / 86400
  let rem := secs % 86400
  let (year, month, day) := civilFromDays days
  let yearday := monthStart.getD (month - 1).toNat 0 + day - 1
    + if isLeap year && decide (month > 2) then 1 else 0
  { year := if InI32 year then year else 2 ^ 31 - 1
    month := u32Or (month - 1) 0
    day := u32Or day 1
    hour := u32Or (rem.tdiv 3600) 0
    minute := u32Or ((rem.tmod 3600).tdiv 60) 0
    second := u32Or (rem.tmod 60) 0
    weekday := u32Or (addI64 days 4 % 7) 0
    yearday := u32Or yearday 0
    utcOffset := 0
    zone := some "UTC" }

/-- `days_from_civil`; the month counts from 1. -/
def daysFromCivil (year month day : Int) : Int :=
  let y := if month ≤ 2 then subI64 year 1 else year
  let era := y / 400
  let yoe := y % 400
  let mp := addI64 month 9 % 12
  let doy := addI64 ((addI64 (mulI64 153 mp) 2).tdiv 5) (subI64 day 1)
  let doe := addI64 (subI64 (addI64 (mulI64 yoe 365) (yoe.tdiv 4)) (yoe.tdiv 100)) doy
  subI64 (addI64 (mulI64 era 146097) doe) 719468

/-- The seconds that `%s` prints. -/
def unixSeconds (t : CalendarTime) : Int :=
  let days := daysFromCivil t.year (addI64 t.month 1) t.day
  subI64 (addI64 (addI64 (addI64 (mulI64 days 86400) (mulI64 t.hour 3600)) (mulI64 t.minute 60))
    t.second) t.utcOffset

/-- `iso_week_days`. -/
def isoWeekDays (yday wday : Int) : Int :=
  let shift := addI64 (subI64 yday wday) (4 + 378) % 7
  addI64 (subI64 yday shift) 3

/-- `iso_week`: the year and the week. -/
def isoWeekOf (t : CalendarTime) : Int × Int :=
  let days := isoWeekDays t.yearday t.weekday
  if days < 0 then
    let year := subI64 t.year 1
    let len := if isLeap year then 366 else 365
    (year, addI64 ((isoWeekDays (addI64 t.yearday len) t.weekday).tdiv 7) 1)
  else
    let len := if isLeap t.year then 366 else 365
    let next := isoWeekDays (subI64 t.yearday len) t.weekday
    if next ≥ 0 then (addI64 t.year 1, addI64 (next.tdiv 7) 1)
    else (t.year, addI64 (days.tdiv 7) 1)

variable {y z secs : Int} {m i : Nat} {d : Date} {t : CalendarTime}

/-! ## Years from March -/

lemma isLeap_eq (y : Int) : isLeap y = leapYear y := by
  have mod (k : Int) : y.tmod k = 0 ↔ y % k = 0 := by
    rw [← Int.dvd_iff_tmod_eq_zero, Int.dvd_iff_emod_eq_zero]
  unfold isLeap leapYear
  simp only [mod, ne_eq]
  rw [Bool.eq_iff_iff]
  simp only [Bool.and_eq_true, Bool.or_eq_true, decide_eq_true_eq]
  omega

/-- The number of 1 March of a year. -/
def marchStart (y : Int) : Int := yearStart (y + 1) - 306

/-- The years from March in cycles of 400. -/
lemma marchStart_eq (y : Int) : marchStart y
    = y / 400 * 146097 + (y % 400 * 365 + y % 400 / 4 - y % 400 / 100) - 719468 := by
  unfold marchStart yearStart
  omega

/-- The days of a year before a month, from the table. -/
lemma daysBefore_eq (leap : Bool) (lt : m < 12) :
    (daysBefore leap m : Int) = monthStart.getD m 0 + if leap && decide (2 ≤ m) then 1 else 0 := by
  have table : ∀ m < 12, ∀ leap : Bool, (daysBefore leap m : Int)
      = monthStart.getD m 0 + if leap && decide (2 ≤ m) then 1 else 0 := by decide
  exact table m lt leap

/-- The days from 1 March to a month, 306 of them to January. -/
lemma monthStart_march (lt : m < 12) : monthStart.getD m 0
    = (153 * (((m : Int) + 10) % 12) + 2) / 5 + if m < 2 then -306 else 59 := by
  have table : ∀ m < 12, monthStart.getD m 0
      = (153 * (((m : Int) + 10) % 12) + 2) / 5 + if m < 2 then -306 else 59 := by decide
  exact table m lt

/-- A date's number from the start of its year from March. -/
lemma number_march (y : Int) (lt : m < 12) (pos : 1 ≤ i) : (⟨y, m, i⟩ : Date).number
    = marchStart (if m < 2 then y - 1 else y) + (153 * (((m : Int) + 10) % 12) + 2) / 5 + i - 1 := by
  rw [Date.number_mk y m pos, daysBefore_eq _ lt, monthStart_march lt]
  unfold marchStart
  by_cases winter : m < 2
  · rw [if_pos winter, if_pos winter, decide_eq_false (by omega), Bool.and_false,
      if_neg Bool.false_ne_true, Int.sub_add_cancel]
    omega
  · have step := yearStart_succ y
    unfold yearLength at step
    rw [if_neg winter, if_neg winter, decide_eq_true (by omega), Bool.and_true, step]
    split
    all_goals omega

/-- `days_from_civil` gives the number of a date. -/
lemma daysFromCivil_eq (valid : d.Valid) (fits : InI32 d.year) :
    daysFromCivil d.year (d.month + 1) d.day = d.number := by
  obtain ⟨y, m, i⟩ := d
  obtain ⟨lt, pos, inside⟩ := valid
  obtain ⟨low, high⟩ := fits
  have small : i ≤ 31 := Nat.le_trans inside (monthLength_pos _ _).2
  dsimp only at *
  rw [number_march y lt pos, marchStart_eq]
  have month : ((m : Int) + 1 ≤ 2) ↔ m < 2 := by omega
  unfold daysFromCivil
  simp only [month]
  rw [subI64_eq (a := y) (b := 1) (by omega) (by omega)]
  have bounds : -2 ^ 31 - 1 ≤ (if m < 2 then y - 1 else y) ∧ (if m < 2 then y - 1 else y) < 2 ^ 31 := by
    split <;> omega
  revert bounds
  generalize (if m < 2 then y - 1 else y) = march
  intro bounds
  have cycle := Int.emod_nonneg march (by decide : (400 : Int) ≠ 0)
  have cycle' := Int.emod_lt_of_pos march (by decide : (0 : Int) < 400)
  simp (disch := omega) only [addI64_eq, subI64_eq, mulI64_eq, Int.tdiv_eq_ediv_of_nonneg]
  omega

/-! ## The date of a day -/

/-- A day of a cycle of 400 years, which start with March, lies in one of them: year `4 * p + t` of
century `q`, day `u`. Day 365 exists where the year ends in a leap day. -/
lemma year_of_cycle {doe : Int} (low : 0 ≤ doe) (high : doe < 146097) : ∃ q p t u : Int,
    (0 ≤ q ∧ q ≤ 3) ∧ (0 ≤ p ∧ p ≤ 24) ∧ (0 ≤ t ∧ t ≤ 3) ∧ (0 ≤ u ∧ u ≤ 365) ∧
      doe = 36524 * q + 1461 * p + 365 * t + u ∧ (u = 365 → t = 3 ∧ (p ≠ 24 ∨ q = 3)) := by
  obtain ⟨q, r, century, inside, start, cut⟩ : ∃ q r : Int, (0 ≤ q ∧ q ≤ 3) ∧
      (r < 36524 ∨ q = 3 ∧ r = 36524) ∧ 0 ≤ r ∧ doe = 36524 * q + r := by
    by_cases last : doe = 146096
    · exact ⟨3, 36524, by omega, by omega, by omega, by omega⟩
    · exact ⟨doe / 36524, doe % 36524, by omega, by omega, by omega, by omega⟩
  obtain ⟨t, u, year, inside', start', cut'⟩ : ∃ t u : Int, (0 ≤ t ∧ t ≤ 3) ∧
      (u < 365 ∨ t = 3 ∧ u = 365) ∧ 0 ≤ u ∧ r % 1461 = 365 * t + u := by
    by_cases last : r % 1461 = 1460
    · exact ⟨3, 365, by omega, by omega, by omega, by omega⟩
    · exact ⟨r % 1461 / 365, r % 1461 % 365, by omega, by omega, by omega, by omega⟩
  exact ⟨q, r / 1461, t, u, century, by omega, year, by omega, by omega, by omega⟩

/-- The year of the cycle that `calendar_from_unix` finds. -/
lemma yearOfEra_eq {q p t u doe : Int} (century : 0 ≤ q ∧ q ≤ 3) (four : 0 ≤ p ∧ p ≤ 24)
    (year : 0 ≤ t ∧ t ≤ 3) (day : 0 ≤ u ∧ u ≤ 365) (cut : doe = 36524 * q + 1461 * p + 365 * t + u)
    (long : u = 365 → t = 3 ∧ (p ≠ 24 ∨ q = 3)) :
    (doe - doe / 1460 + doe / 36524 - doe / 146096) / 365 = 100 * q + 4 * p + t := by
  have olympiads : doe / 1460 = 25 * q + p + (24 * q + p + 365 * t + u) / 1460 := by omega
  have centuries : doe / 36524 - doe / 146096 = q := by
    rcases (by omega : q = 0 ∨ q = 1 ∨ q = 2 ∨ q = 3) with rfl | rfl | rfl | rfl
    all_goals omega
  -- The leap day before day `u` is counted out when the year is full.
  obtain ⟨w, spent⟩ : ∃ w, (24 * q + p + 365 * t + u) / 1460 = w := ⟨_, rfl⟩
  have rest : 0 ≤ u - w ∧ u - w < 365 := by
    clear olympiads centuries
    omega
  have days : doe - doe / 1460 + doe / 36524 - doe / 146096 =
      365 * (100 * q + 4 * p + t) + (u - w) := by
    rw [olympiads, spent]
    linarith only [centuries, cut]
  rw [days, Int.mul_add_ediv_left _ _ (by decide), Int.ediv_eq_zero_of_lt rest.1 rest.2, add_zero]

/-- A month other than February ends where the next starts, counted from March. -/
lemma monthLength_march (leap : Bool) (lt : m < 12) (other : m ≠ 1) : (monthLength leap m : Int)
    = (153 * (((m : Int) + 10) % 12 + 1) + 2) / 5 - (153 * (((m : Int) + 10) % 12) + 2) / 5 := by
  have table : ∀ m < 12, m ≠ 1 → ∀ leap : Bool, (monthLength leap m : Int)
      = (153 * (((m : Int) + 10) % 12 + 1) + 2) / 5 - (153 * (((m : Int) + 10) % 12) + 2) / 5 := by
    decide
  exact table m lt other leap

/-- The date of day `u` of a year from March. -/
lemma date_of_march {march u mp month : Int} (day : 0 ≤ u ∧ u ≤ 365)
    (long : u = 365 → leapYear (march + 1) = true) (e : (5 * u + 2) / 153 = mp)
    (e' : (if mp < 10 then mp + 3 else mp - 9) = month) :
    ∃ d : Date, d.Valid ∧ d.number = marchStart march + u ∧
      d.year = march + (if month ≤ 2 then 1 else 0) ∧ (d.month : Int) + 1 = month ∧
      (d.day : Int) = u - (153 * mp + 2) / 5 + 1 := by
  have range : 1 ≤ month ∧ month ≤ 12 ∧ (month + 9) % 12 = mp := by
    split at e'
    all_goals omega
  obtain ⟨m, rfl⟩ : ∃ m : Nat, month = m + 1 := ⟨(month - 1).toNat, by omega⟩
  obtain ⟨i, day'⟩ : ∃ i : Nat, (i : Int) = u - (153 * mp + 2) / 5 + 1 :=
    ⟨(u - (153 * mp + 2) / 5 + 1).toNat, by omega⟩
  have lt : m < 12 := by omega
  have cycle : ((m : Int) + 10) % 12 = mp := by
    rw [← range.2.2]
    congr 1
  have winter : ((m : Int) + 1 ≤ 2) ↔ m < 2 := by omega
  have pos : 1 ≤ i := by omega
  refine ⟨⟨march + (if m < 2 then 1 else 0), m, i⟩, ⟨lt, pos, ?_⟩, ?_, ?_, rfl, day'⟩
  · unfold Date.monthDays
    dsimp only
    by_cases february : m = 1
    · subst february
      rw [if_pos (by decide)]
      unfold monthLength
      rw [if_pos rfl]
      split
      next => omega
      next common =>
        have short : u ≠ 365 := fun full => common (long full)
        omega
    · have length := monthLength_march (leapYear (march + (if m < 2 then 1 else 0))) lt february
      rw [cycle] at length
      omega
  · rw [number_march _ lt pos, cycle]
    have year : (if m < 2 then march + (if m < 2 then 1 else 0) - 1
        else march + (if m < 2 then 1 else 0)) = march := by
      split
      all_goals omega
    rw [year]
    omega
  · simp only [winter]

/-- The year of the cycle that ends in a leap day. -/
lemma leap_of_cycle {q p t era : Int} (four : 0 ≤ p ∧ p ≤ 24)
    (last : t = 3 ∧ (p ≠ 24 ∨ q = 3)) :
    leapYear (100 * q + 4 * p + t + era * 400 + 1) = true := by
  unfold leapYear
  simp only [Bool.and_eq_true, Bool.or_eq_true, decide_eq_true_eq]
  omega

/-- Where a year stands in its cycle of 400 years. -/
lemma year_in_cycle {q p t : Int} (era : Int) (century : 0 ≤ q ∧ q ≤ 3) (four : 0 ≤ p ∧ p ≤ 24)
    (year : 0 ≤ t ∧ t ≤ 3) : 0 ≤ 100 * q + 4 * p + t ∧
      (100 * q + 4 * p + t) / 4 = 25 * q + p ∧ (100 * q + 4 * p + t) / 100 = q ∧
      (100 * q + 4 * p + t + era * 400) / 400 = era ∧
      (100 * q + 4 * p + t + era * 400) % 400 = 100 * q + 4 * p + t := by
  have low : 0 ≤ 100 * q + 4 * p + t := by omega
  have high : 100 * q + 4 * p + t < 400 := by omega
  refine ⟨low, by omega, by omega, ?_, ?_⟩
  · rw [Int.add_mul_ediv_right _ _ (by decide), Int.ediv_eq_zero_of_lt low high, zero_add]
  · rw [Int.add_mul_emod_self_right, Int.emod_eq_of_lt low high]

/-- `calendar_from_unix` finds the date of the day. -/
lemma civilFromDays_spec (days : Int) (low : -2 ^ 62 ≤ days) (high : days ≤ 2 ^ 62) :
    ∃ d : Date, d.Valid ∧ d.number = days ∧
      civilFromDays days = (d.year, (d.month : Int) + 1, (d.day : Int)) := by
  have start := Int.emod_nonneg (days + 719468) (by decide : (146097 : Int) ≠ 0)
  have inside := Int.emod_lt_of_pos (days + 719468) (by decide : (0 : Int) < 146097)
  have whole := Int.mul_ediv_add_emod (days + 719468) 146097
  unfold civilFromDays
  rw [addI64_eq (by omega) (by omega)]
  dsimp only
  revert start inside whole
  generalize (days + 719468) / 146097 = era
  generalize (days + 719468) % 146097 = doe
  intro start inside whole
  have shrinks : 0 ≤ doe - doe / 1460 + doe / 36524 - doe / 146096 := by omega
  obtain ⟨q, p, t, u, century, four, year, day, cut, long⟩ := year_of_cycle start inside
  obtain ⟨yoe, fours, hundreds, quotient, rest⟩ := year_in_cycle era century four year
  have olympiad := Int.tdiv_eq_ediv_of_nonneg (b := 1460) start
  have centuries := Int.tdiv_eq_ediv_of_nonneg (b := 36524) start
  have last := Int.tdiv_eq_ediv_of_nonneg (b := 146096) start
  have found : (doe - doe / 1460 + doe / 36524 - doe / 146096).tdiv 365 = 100 * q + 4 * p + t :=
    (Int.tdiv_eq_ediv_of_nonneg shrinks).trans (yearOfEra_eq century four year day cut long)
  have leaps : (100 * q + 4 * p + t).tdiv 4 = 25 * q + p :=
    (Int.tdiv_eq_ediv_of_nonneg yoe).trans fours
  have skipped : (100 * q + 4 * p + t).tdiv 100 = q :=
    (Int.tdiv_eq_ediv_of_nonneg yoe).trans hundreds
  have left : doe - (365 * (100 * q + 4 * p + t) + (25 * q + p) - q) = u := by
    linarith only [cut]
  obtain ⟨mp, e⟩ : ∃ mp, (5 * u + 2) / 153 = mp := ⟨_, rfl⟩
  have month : (5 * u + 2).tdiv 153 = mp := (Int.tdiv_eq_ediv_of_nonneg (by omega)).trans e
  have before : (153 * mp + 2).tdiv 5 = (153 * mp + 2) / 5 := Int.tdiv_eq_ediv_of_nonneg (by omega)
  simp only [olympiad, centuries, last, found, leaps, skipped, left, month, before]
  have leap : u = 365 → leapYear (100 * q + 4 * p + t + era * 400 + 1) = true :=
    fun full => leap_of_cycle four (long full)
  obtain ⟨d, valid, number, year', month', day'⟩ := date_of_march day leap e rfl
  refine ⟨d, valid, ?_, ?_⟩
  · rw [number, marchStart_eq, quotient, rest, fours, hundreds]
    linarith only [whole, left]
  · rw [year', month', day']

/-! ## Calendar times and seconds -/

lemma u32Or_eq {z : Int} (low : 0 ≤ z) (high : z ≤ 4294967295) (other : Nat) :
    u32Or z other = z.toNat := if_pos ⟨low, high⟩

/-- The days of the years of an `i32`. -/
lemma number_bounds (valid : d.Valid) (fits : InI32 d.year) :
    -2 ^ 40 ≤ d.number ∧ d.number ≤ 2 ^ 40 := by
  have inside := valid.yearday_lt
  have length := (yearLength_pos d.year).2
  obtain ⟨low, high⟩ := fits
  unfold Date.number yearStart
  omega

/-- The calendar time of a second of the day of a date. -/
lemma calendarFromUnix_eq (valid : d.Valid) (fits : InI32 d.year) (low : i64Min ≤ secs)
    (high : secs ≤ i64Max) (number : d.number = secs / 86400) : calendarFromUnix secs
      = ⟨d.year, d.month, d.day, (secs % 86400 / 3600).toNat, (secs % 86400 % 3600 / 60).toNat,
          (secs % 86400 % 60).toNat, weekday (secs / 86400), d.yearday, 0, some "UTC"⟩ := by
  unfold i64Min at low
  unfold i64Max at high
  obtain ⟨e, valid', number', found⟩ := civilFromDays_spec (secs / 86400) (by omega) (by omega)
  cases valid'.number_injective valid (number'.trans number.symm)
  have small : d.day ≤ 31 := Nat.le_trans valid.day (monthLength_pos _ _).2
  have last := valid.month
  have pos := valid.pos
  have inside := valid.yearday_lt
  have length := (yearLength_pos d.year).2
  have rest := Int.emod_nonneg secs (by decide : (86400 : Int) ≠ 0)
  have rest' := Int.emod_lt_of_pos secs (by decide : (0 : Int) < 86400)
  have yearday : monthStart.getD d.month 0 + d.day - 1
      + (if isLeap d.year && decide ((d.month : Int) + 1 > 2) then 1 else 0) = d.yearday := by
    have table := daysBefore_eq (leapYear d.year) valid.month
    have eq := valid.yearday_eq
    have late : ((d.month : Int) + 1 > 2) ↔ 2 ≤ d.month := by omega
    simp only [isLeap_eq, late]
    omega
  have hour : (secs % 86400).tdiv 3600 = secs % 86400 / 3600 := Int.tdiv_eq_ediv_of_nonneg rest
  have minutes : (secs % 86400).tmod 3600 = secs % 86400 % 3600 := Int.tmod_eq_emod_of_nonneg rest
  have minute : (secs % 86400 % 3600).tdiv 60 = secs % 86400 % 3600 / 60 :=
    Int.tdiv_eq_ediv_of_nonneg (by omega)
  have second : (secs % 86400).tmod 60 = secs % 86400 % 60 := Int.tmod_eq_emod_of_nonneg rest
  have month : (d.month : Int) + 1 - 1 = d.month := Int.add_sub_cancel _ _
  unfold calendarFromUnix weekday
  simp only [found, month, Int.toNat_natCast, hour, minutes, minute, second]
  rw [yearday, if_pos fits, addI64_eq (by omega) (by omega), u32Or_eq (by omega) (by omega),
    u32Or_eq (by omega) (by omega), u32Or_eq (by omega) (by omega), u32Or_eq (by omega) (by omega),
    u32Or_eq (by omega) (by omega), u32Or_eq (by omega) (by omega), u32Or_eq (by omega) (by omega)]
  rfl

/-- The calendar time of a number of seconds is the date of its day and the time within it, and `%s` gives
the seconds back. -/
theorem calendar_roundTrip (secs : Int) (range : i64Min ≤ secs ∧ secs ≤ i64Max)
    (fits : InI32 (Date.onDay (secs / 86400)).year) :
    let t := calendarFromUnix secs
    let d := Date.onDay (secs / 86400)
    d.Valid ∧ t.year = d.year ∧ t.month = d.month ∧ t.day = d.day ∧
      t.weekday = weekday (secs / 86400) ∧ t.yearday = d.yearday ∧
      t.hour < 24 ∧ t.minute < 60 ∧ t.second < 60 ∧
      secs % 86400 = t.hour * 3600 + t.minute * 60 + t.second ∧
      unixSeconds t = secs := by
  obtain ⟨valid, number⟩ := Date.onDay_spec (secs / 86400)
  dsimp only
  rw [calendarFromUnix_eq valid fits range.1 range.2 number]
  refine ⟨valid, rfl, rfl, rfl, rfl, rfl, ?_⟩
  have civil := daysFromCivil_eq valid fits
  have bounds := number_bounds valid fits
  rw [number] at bounds
  have last := valid.month
  obtain ⟨low, high⟩ := range
  unfold i64Min at low
  unfold i64Max at high
  have rest := Int.emod_nonneg secs (by decide : (86400 : Int) ≠ 0)
  have rest' := Int.emod_lt_of_pos secs (by decide : (0 : Int) < 86400)
  dsimp only
  refine ⟨by omega, by omega, by omega, by omega, ?_⟩
  unfold unixSeconds
  dsimp only
  rw [addI64_eq (a := (Date.onDay (secs / 86400)).month) (by omega) (by omega), civil, number]
  simp (disch := omega) only [addI64_eq, subI64_eq, mulI64_eq]
  omega

/-- The last second of 1969. -/
theorem calendar_roundTrip_before_epoch : (calendarFromUnix (-1)).year = 1969 ∧
    (calendarFromUnix (-1)).month = 11 ∧ (calendarFromUnix (-1)).day = 31 ∧
      unixSeconds (calendarFromUnix (-1)) = -1 := by
  obtain ⟨_, year, month, day, _, _, _, _, _, _, back⟩ :=
    calendar_roundTrip (-1) (by decide) (by decide)
  exact ⟨year, month, day, back⟩

/-! ## Weeks -/

/-- `iso_week_days` counts from the Monday of the first Thursday of the year that the day of the year
counts from. -/
lemma isoWeekDays_eq (n start yday : Int) (e : yday = n - yearStart start) (low : -1000 ≤ yday)
    (high : yday ≤ 1000) : isoWeekDays yday (weekday n) = n - (firstThursday start - 3) := by
  unfold isoWeekDays
  have day : weekday n < 7 := by
    unfold weekday
    omega
  simp (disch := omega) only [addI64_eq, subI64_eq]
  unfold weekday firstThursday
  omega

/-- The week of a day in the year of its Thursday. -/
lemma isoWeek_eq (n start : Int) (low : yearStart start ≤ thursday n)
    (high : thursday n < yearStart start + yearLength start) :
    isoYear n = start ∧ isoWeek n = (n - (firstThursday start - 3)).tdiv 7 + 1 ∧
      1 ≤ isoWeek n ∧ isoWeek n ≤ 53 := by
  have year : isoYear n = start := Date.onDay_year low high
  obtain ⟨is, near, _, _⟩ := thursday_spec n
  obtain ⟨is', first, least⟩ := firstThursday_spec start
  have after := least _ low is
  have length := (yearLength_pos start).2
  have week : (n - (firstThursday start - 3)).tdiv 7 = (thursday n - firstThursday start) / 7 := by
    rw [Int.tdiv_eq_ediv_of_nonneg (by unfold thursday at *; omega)]
    unfold thursday firstThursday
    omega
  unfold isoWeek
  rw [year, week]
  exact ⟨rfl, rfl, by omega, by omega⟩

/-- `iso_week` gives the year and the number of the week that ISO 8601 gives a date. -/
theorem isoWeekOf_spec (valid : d.Valid) (fits : InI32 d.year) (year : t.year = d.year)
    (yearday : t.yearday = d.yearday) (wday : t.weekday = weekday d.number) :
    isoWeekOf t = (isoYear d.number, isoWeek d.number) ∧
      1 ≤ (isoWeekOf t).2 ∧ (isoWeekOf t).2 ≤ 53 := by
  have inside := valid.yearday_lt
  have start := yearStart_succ d.year
  have start' := yearStart_succ (d.year - 1)
  have start'' := yearStart_succ (d.year + 1)
  rw [Int.sub_add_cancel] at start'
  have length := yearLength_pos d.year
  have length' := yearLength_pos (d.year - 1)
  have length'' := yearLength_pos (d.year + 1)
  obtain ⟨low, high⟩ := fits
  obtain ⟨is, near, near', _⟩ := thursday_spec d.number
  obtain ⟨_, first, least⟩ := firstThursday_spec d.year
  obtain ⟨_, first', least'⟩ := firstThursday_spec (d.year + 1)
  have number : d.number = yearStart d.year + d.yearday := rfl
  suffices found : isoWeekOf t = (isoYear d.number, isoWeek d.number) ∧
      1 ≤ isoWeek d.number ∧ isoWeek d.number ≤ 53 by
    obtain ⟨e, bounds⟩ := found
    rw [e]
    exact ⟨rfl, bounds⟩
  have len (y : Int) : (if leapYear y = true then (366 : Int) else 365) = yearLength y := rfl
  have days := isoWeekDays_eq d.number d.year d.yearday
    (by omega) (by omega) (by omega)
  have before := isoWeekDays_eq d.number (d.year - 1)
    (d.yearday + yearLength (d.year - 1)) (by omega) (by omega) (by omega)
  have after := isoWeekDays_eq d.number (d.year + 1)
    (d.yearday - yearLength d.year) (by omega) (by omega) (by omega)
  unfold isoWeekOf
  rw [year, yearday, wday, subI64_eq (a := d.year) (b := 1) (by omega) (by omega),
    addI64_eq (a := d.year) (b := 1) (by omega) (by omega)]
  simp only [isLeap_eq, len]
  rw [addI64_eq (a := d.yearday) (by omega) (by omega), subI64_eq (by omega) (by omega), days, before,
    after]
  split
  next early =>
    -- The Thursday lies before the first of the year.
    have gone : thursday d.number < yearStart d.year := by
      by_contra reached
      have late := least _ (by omega) is
      omega
    obtain ⟨found, week, bounds⟩ := isoWeek_eq d.number (d.year - 1)
      (by omega) (by omega)
    rw [addI64_eq (by omega) (by omega), ← week, found]
    exact ⟨rfl, bounds⟩
  next =>
    split
    next late =>
      -- The Thursday is one of the year after.
      obtain ⟨found, week, bounds⟩ := isoWeek_eq d.number (d.year + 1)
        (first'.trans (firstThursday_le (by omega))) (by omega)
      rw [addI64_eq (by omega) (by omega), ← week, found]
      exact ⟨rfl, bounds⟩
    next =>
      have inYear : thursday d.number < yearStart (d.year + 1) := by
        by_contra reached
        have late := least' _ (by omega) is
        omega
      obtain ⟨found, week, bounds⟩ := isoWeek_eq d.number d.year
        (first.trans (firstThursday_le (by omega))) (by omega)
      rw [addI64_eq (by omega) (by omega), ← week, found]
      exact ⟨rfl, bounds⟩

/-- 1 January 1971, a Friday, was in week 53 of 1970. -/
theorem isoWeekOf_spec_newYear : isoWeekOf (calendarFromUnix 31536000) = (1970, 53) := by
  have found := (isoWeekOf_spec (d := ⟨1971, 0, 1⟩) (t := calendarFromUnix 31536000)
    ⟨by decide, by decide, by decide⟩ (by decide) (by decide +kernel) (by decide +kernel)
    (by decide +kernel)).1
  rw [found]
  decide +kernel

end Qcvm.Stdlib
