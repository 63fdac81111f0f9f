import Mathlib.Logic.Function.Iterate
import Mathlib.Tactic.Common

/-!
# The proleptic Gregorian calendar

Dates, the day after and the day before a date, and the date of a day: that reached from 1 January 1970,
which is day 0, by counting days. `Date.number` counts the days the other way around in closed form: the date
of a day has that number (`Date.onDay_spec`), and no other valid date has it (`Date.Valid.number_injective`).
The weeks of ISO 8601 start on a Monday and belong to the year of their Thursday.
-/

namespace Qcvm.Lib

/-- Whether a year has 366 days. -/
def leapYear (y : Int) : Bool := y % 4 = 0 && (y % 100 ≠ 0 || y % 400 = 0)

/-- The days of a month, from 0 for January, in a leap year or another. -/
def monthLength (leap : Bool) (month : Nat) : Nat :=
  if month = 1 then if leap then 29 else 28
  else if month = 3 ∨ month = 5 ∨ month = 8 ∨ month = 10 then 30
  else 31

/-- The days of a year before a month. -/
def daysBefore (leap : Bool) : Nat → Nat
  | 0 => 0
  | m + 1 => daysBefore leap m + monthLength leap m

/-- The days of a year. -/
def yearLength (y : Int) : Int := if leapYear y then 366 else 365

/-- The number of the first day of a year. -/
def yearStart (y : Int) : Int := 365 * y + (y - 1) / 4 - (y - 1) / 100 + (y - 1) / 400 - 719527

/-- A date; months count from 0 and days from 1. -/
structure Date where
  year : Int
  month : Nat
  day : Nat
  deriving Repr, DecidableEq

namespace Date

/-- 1 January 1970. -/
def epoch : Date := ⟨1970, 0, 1⟩

/-- The days of the date's month. -/
def monthDays (d : Date) : Nat := monthLength (leapYear d.year) d.month

/-- The date exists. -/
structure Valid (d : Date) : Prop where
  month : d.month < 12
  pos : 1 ≤ d.day
  day : d.day ≤ d.monthDays

/-- The day after. -/
def next (d : Date) : Date :=
  if d.day < d.monthDays then { d with day := d.day + 1 }
  else if d.month < 11 then ⟨d.year, d.month + 1, 1⟩
  else ⟨d.year + 1, 0, 1⟩

/-- The day before. -/
def prev (d : Date) : Date :=
  if 1 < d.day then { d with day := d.day - 1 }
  else if 0 < d.month then ⟨d.year, d.month - 1, monthLength (leapYear d.year) (d.month - 1)⟩
  else ⟨d.year - 1, 11, 31⟩

/-- The date reached by counting days from 1 January 1970. -/
def onDay : Int → Date
  | .ofNat n => next^[n] epoch
  | .negSucc n => prev^[n + 1] epoch

/-- The days of the year before the date. -/
def yearday (d : Date) : Nat := daysBefore (leapYear d.year) d.month + d.day - 1

/-- The number of a date's day. -/
def number (d : Date) : Int := yearStart d.year + d.yearday

end Date

/-- The day of the week, from 0 for Sunday: day 0 was a Thursday. -/
def weekday (z : Int) : Nat := ((z + 4) % 7).toNat

/-! ## Years and months -/

variable {y z n : Int} {leap : Bool} {m k : Nat} {d e : Date}

@[simp] lemma yearStart_epoch : yearStart 1970 = 0 := by decide

/-- A year starts when the year before is over. -/
lemma yearStart_succ (y : Int) : yearStart (y + 1) = yearStart y + yearLength y := by
  unfold yearStart yearLength leapYear
  rw [Int.add_sub_cancel]
  by_cases leap : (y % 4 = 0 && (y % 100 ≠ 0 || y % 400 = 0)) = true
  · rw [if_pos leap]
    simp only [Bool.and_eq_true, Bool.or_eq_true, decide_eq_true_eq] at leap
    omega
  · rw [if_neg leap]
    simp only [Bool.and_eq_true, Bool.or_eq_true, decide_eq_true_eq] at leap
    omega

lemma yearLength_pos (y : Int) : 365 ≤ yearLength y ∧ yearLength y ≤ 366 := by
  unfold yearLength
  split <;> omega

/-- A later year starts after the year is over. -/
lemma yearStart_le (lt : y < z) : yearStart y + yearLength y ≤ yearStart z := by
  obtain ⟨k, rfl⟩ : ∃ k : Nat, z = y + 1 + k := ⟨(z - (y + 1)).toNat, by omega⟩
  clear lt
  rw [← yearStart_succ]
  induction k with
  | zero => exact Int.le_of_eq (congrArg yearStart (Int.add_zero _).symm)
  | succ k ih =>
    have pos := (yearLength_pos (y + 1 + k)).1
    have step := yearStart_succ (y + 1 + k)
    rw [Int.natCast_succ, ← Int.add_assoc]
    omega

/-- A day belongs to one year. -/
lemma year_unique (low : yearStart y ≤ n) (high : n < yearStart y + yearLength y)
    (low' : yearStart z ≤ n) (high' : n < yearStart z + yearLength z) : y = z := by
  rcases Int.lt_trichotomy y z with lt | rfl | gt
  · have after := yearStart_le lt
    omega
  · rfl
  · have after := yearStart_le gt
    omega

lemma monthLength_pos (leap : Bool) (m : Nat) : 28 ≤ monthLength leap m ∧ monthLength leap m ≤ 31 := by
  unfold monthLength
  split_ifs <;> omega

/-- A later month starts after the month is over. -/
lemma daysBefore_le (leap : Bool) (lt : m < k) :
    daysBefore leap m + monthLength leap m ≤ daysBefore leap k := by
  induction k with
  | zero => exact absurd lt (Nat.not_lt_zero m)
  | succ k ih =>
    rcases Nat.lt_succ_iff_lt_or_eq.mp lt with before | rfl
    · exact Nat.le_trans (ih before) (Nat.le_add_right _ _)
    · exact Nat.le_refl _

/-- The months fill the year. -/
lemma daysBefore_year (y : Int) : (daysBefore (leapYear y) 12 : Int) = yearLength y := by
  unfold yearLength
  cases leapYear y with
  | false => rfl
  | true => rfl

/-! ## The number of a date -/

namespace Date

/-- The days of the year up to the date. -/
lemma Valid.yearday_eq (h : d.Valid) :
    d.yearday + 1 = daysBefore (leapYear d.year) d.month + d.day := by
  have pos := h.pos
  unfold yearday
  omega

lemma Valid.yearday_lt (h : d.Valid) : (d.yearday : Int) < yearLength d.year := by
  have eq := h.yearday_eq
  have inside := h.day
  have fill := daysBefore_le (leapYear d.year) h.month
  have whole := daysBefore_year d.year
  unfold monthDays at inside
  omega

/-- Two dates of one day are the same. -/
lemma Valid.number_injective (hd : d.Valid) (he : e.Valid) (same : d.number = e.number) : d = e := by
  obtain ⟨y, m, i⟩ := d
  obtain ⟨z, k, j⟩ := e
  have eqD := hd.yearday_eq
  have eqE := he.yearday_eq
  have ltD := hd.yearday_lt
  have ltE := he.yearday_lt
  unfold number at same
  dsimp only at *
  have year : y = z := by
    refine year_unique (n := yearStart y + (⟨y, m, i⟩ : Date).yearday) ?_ ?_ ?_ ?_
    all_goals omega
  subst year
  have inD := hd.day
  have inE := he.day
  have posD := hd.pos
  have posE := he.pos
  unfold monthDays at inD inE
  dsimp only at *
  have month : m = k := by
    rcases Nat.lt_trichotomy m k with lt | rfl | gt
    · have after := daysBefore_le (leapYear y) lt
      omega
    · rfl
    · have after := daysBefore_le (leapYear y) gt
      omega
  subst month
  have day : i = j := by omega
  rw [day]

lemma epoch_valid : epoch.Valid := ⟨by decide, by decide, by decide⟩

lemma number_mk (y : Int) (m : Nat) {i : Nat} (pos : 1 ≤ i) :
    (⟨y, m, i⟩ : Date).number = yearStart y + daysBefore (leapYear y) m + i - 1 := by
  unfold number yearday
  dsimp only
  omega

/-- Where the day after lies. -/
lemma next_cases (y : Int) (m i : Nat) :
    i < monthLength (leapYear y) m ∧ next ⟨y, m, i⟩ = ⟨y, m, i + 1⟩ ∨
    monthLength (leapYear y) m ≤ i ∧ m < 11 ∧ next ⟨y, m, i⟩ = ⟨y, m + 1, 1⟩ ∨
    monthLength (leapYear y) m ≤ i ∧ 11 ≤ m ∧ next ⟨y, m, i⟩ = ⟨y + 1, 0, 1⟩ := by
  unfold next monthDays
  dsimp only
  split_ifs with inside month
  · exact .inl ⟨inside, rfl⟩
  · exact .inr (.inl ⟨Nat.le_of_not_lt inside, month, rfl⟩)
  · exact .inr (.inr ⟨Nat.le_of_not_lt inside, Nat.le_of_not_lt month, rfl⟩)

/-- The day after exists and has the number after. -/
lemma Valid.next (h : d.Valid) : d.next.Valid ∧ d.next.number = d.number + 1 := by
  obtain ⟨y, m, i⟩ := d
  obtain ⟨last, pos, inside⟩ := h
  unfold monthDays at inside
  dsimp only at last pos inside
  have first (leap : Bool) (k : Nat) := Nat.le_trans (by decide : 1 ≤ 28) (monthLength_pos leap k).1
  rw [number_mk y m pos]
  rcases next_cases y m i with ⟨lt, e⟩ | ⟨full, month, e⟩ | ⟨full, month, e⟩
  · rw [e, number_mk y m (Nat.le_add_left 1 i)]
    exact ⟨⟨last, Nat.le_add_left 1 i, lt⟩, by omega⟩
  · have step : daysBefore (leapYear y) (m + 1)
      = daysBefore (leapYear y) m + monthLength (leapYear y) m := rfl
    rw [e, number_mk y _ (Nat.le_refl 1)]
    exact ⟨⟨Nat.succ_lt_succ month, Nat.le_refl 1, first _ _⟩, by omega⟩
  · have december : m = 11 := by omega
    subst december
    have step : daysBefore (leapYear y) 12
      = daysBefore (leapYear y) 11 + monthLength (leapYear y) 11 := rfl
    have fill := daysBefore_year y
    have none : daysBefore (leapYear (y + 1)) 0 = 0 := rfl
    rw [e, number_mk _ _ (Nat.le_refl 1), yearStart_succ]
    exact ⟨⟨(by decide : 0 < 12), Nat.le_refl 1, first _ _⟩, by omega⟩

/-- Where the day before lies. -/
lemma prev_cases (y : Int) (m i : Nat) :
    1 < i ∧ prev ⟨y, m, i⟩ = ⟨y, m, i - 1⟩ ∨
    i ≤ 1 ∧ 0 < m ∧ prev ⟨y, m, i⟩ = ⟨y, m - 1, monthLength (leapYear y) (m - 1)⟩ ∨
    i ≤ 1 ∧ m = 0 ∧ prev ⟨y, m, i⟩ = ⟨y - 1, 11, 31⟩ := by
  unfold prev
  dsimp only
  split_ifs with inside month
  · exact .inl ⟨inside, rfl⟩
  · exact .inr (.inl ⟨Nat.le_of_not_lt inside, month, rfl⟩)
  · exact .inr (.inr ⟨Nat.le_of_not_lt inside, Nat.eq_zero_of_not_pos month, rfl⟩)

/-- The day before exists and has the number before. -/
lemma Valid.prev (h : d.Valid) : d.prev.Valid ∧ d.prev.number = d.number - 1 := by
  obtain ⟨y, m, i⟩ := d
  obtain ⟨last, pos, inside⟩ := h
  unfold monthDays at inside
  dsimp only at last pos inside
  have first (leap : Bool) (k : Nat) := Nat.le_trans (by decide : 1 ≤ 28) (monthLength_pos leap k).1
  rw [number_mk y m pos]
  rcases prev_cases y m i with ⟨lt, e⟩ | ⟨start, month, e⟩ | ⟨start, rfl, e⟩
  · have low : 1 ≤ i - 1 := Nat.le_sub_one_of_lt lt
    rw [e, number_mk y m low]
    exact ⟨⟨last, low, Nat.le_trans (Nat.sub_le i 1) inside⟩, by omega⟩
  · obtain ⟨k, rfl⟩ := Nat.exists_eq_add_one.mpr month
    have step : daysBefore (leapYear y) (k + 1)
      = daysBefore (leapYear y) k + monthLength (leapYear y) k := rfl
    rw [e, Nat.add_sub_cancel, number_mk y k (first _ _)]
    exact ⟨⟨by dsimp only; omega, first _ _, Nat.le_refl _⟩, by omega⟩
  · have step : daysBefore (leapYear (y - 1)) 12
      = daysBefore (leapYear (y - 1)) 11 + 31 := rfl
    have fill := daysBefore_year (y - 1)
    have start' := yearStart_succ (y - 1)
    rw [Int.sub_add_cancel] at start'
    have none : daysBefore (leapYear y) 0 = 0 := rfl
    rw [e, number_mk _ _ (by decide : 1 ≤ 31)]
    exact ⟨⟨(by decide : 11 < 12), (by decide : 1 ≤ 31), Nat.le_refl _⟩, by omega⟩

/-- Counting days reaches the date of the day. -/
lemma onDay_spec (z : Int) : (onDay z).Valid ∧ (onDay z).number = z := by
  have start : epoch.number = 0 := by decide
  cases z with
  | ofNat n =>
    show (Date.next^[n] epoch).Valid ∧ (Date.next^[n] epoch).number = n
    induction n with
    | zero => exact ⟨epoch_valid, start⟩
    | succ n ih =>
      rw [Function.iterate_succ_apply']
      exact ⟨ih.1.next.1, ih.1.next.2.trans (by rw [ih.2]; rfl)⟩
  | negSucc n =>
    show (Date.prev^[n + 1] epoch).Valid ∧ (Date.prev^[n + 1] epoch).number = Int.negSucc n
    induction n with
    | zero => exact ⟨epoch_valid.prev.1, epoch_valid.prev.2.trans (by rw [start]; rfl)⟩
    | succ n ih =>
      rw [Function.iterate_succ_apply']
      exact ⟨ih.1.prev.1, ih.1.prev.2.trans (by rw [ih.2]; rfl)⟩

/-- The year of a day is the one it falls into. -/
lemma onDay_year (low : yearStart y ≤ z) (high : z < yearStart y + yearLength y) :
    (onDay z).year = y := by
  obtain ⟨valid, number⟩ := onDay_spec z
  have lt := valid.yearday_lt
  unfold Date.number at number
  refine year_unique (n := z) ?_ ?_ low high
  all_goals omega

end Date

/-! ## Weeks -/

/-- The Thursday of a day's week, which starts on Monday. -/
def thursday (z : Int) : Int := z - (z + 3) % 7 + 3

/-- The first Thursday of a year. -/
def firstThursday (y : Int) : Int := yearStart y + -yearStart y % 7

/-- The year of a day's week. -/
def isoYear (z : Int) : Int := (Date.onDay (thursday z)).year

/-- The number of a day's week: 1 for that of the year's first Thursday. -/
def isoWeek (z : Int) : Int := (thursday z - firstThursday (isoYear z)) / 7 + 1

/-- The Thursday lies between the Monday and the Sunday of the week. -/
lemma thursday_spec (z : Int) : weekday (thursday z) = 4 ∧
    thursday z - 3 ≤ z ∧ z ≤ thursday z + 3 ∧ weekday (thursday z - 3) = 1 := by
  unfold weekday thursday
  omega

/-- The first Thursday is the first of them. -/
lemma firstThursday_spec (y : Int) : weekday (firstThursday y) = 4 ∧ yearStart y ≤ firstThursday y ∧
    ∀ z, yearStart y ≤ z → weekday z = 4 → firstThursday y ≤ z := by
  unfold weekday firstThursday
  refine ⟨?_, ?_, fun z low => ?_⟩
  all_goals omega

/-- A week that does not start before that of the first Thursday has its own at or after it. -/
lemma firstThursday_le (h : firstThursday y - 3 ≤ z) : firstThursday y ≤ thursday z := by
  unfold firstThursday thursday at *
  omega

end Qcvm.Lib
