import Mathlib.Algebra.Order.Ring.Int
import Mathlib.Data.Nat.Basic

/-!
The Gregorian calendar and the time of day. A date stands for the number of
days before it, and a date with a time of day for a number of seconds since the
epoch; a date that does not exist and an hour beyond 23 cannot be built.
-/

namespace TAlib.Foundation

def isLeap (year : Nat) : Bool := year % 4 = 0 && (year % 100 ≠ 0 || year % 400 = 0)

/-- The days of a month, counted from January as zero. -/
def daysIn (year : Nat) : Nat → Nat
  | 1 => if isLeap year then 29 else 28
  | 3 | 5 | 8 | 10 => 30
  | _ => 31

/-- The days of a year before a month. -/
def monthStart (year : Nat) : Nat → Nat
  | 0 => 0
  | month + 1 => monthStart year month + daysIn year month

/-- The days before a year. -/
def yearStart : Nat → Nat
  | 0 => 0
  | year + 1 => yearStart year + monthStart year 12

structure Date where
  year : Nat
  month : Nat
  day : Nat
  month_lt : month < 12
  day_pos : 1 ≤ day
  day_le : day ≤ daysIn year month
  deriving DecidableEq, Repr

structure TimeOfDay where
  hour : Nat
  minute : Nat
  second : Nat
  hour_lt : hour < 24
  minute_lt : minute < 60
  second_lt : second < 60
  deriving DecidableEq, Repr

theorem daysIn_pos (year month : Nat) : 1 ≤ daysIn year month := by
  unfold daysIn
  split
  · split <;> decide
  all_goals decide

theorem daysIn_le (year month : Nat) : daysIn year month ≤ 31 := by
  unfold daysIn
  split
  · split <;> decide
  all_goals decide

theorem monthStart_mono (year : Nat) {m n : Nat} (h : m ≤ n) :
    monthStart year m ≤ monthStart year n := by
  induction h with
  | refl => exact Nat.le_refl _
  | step _ ih => exact Nat.le_add_right_of_le ih

@[simp] theorem monthStart_zero (year : Nat) : monthStart year 0 = 0 := rfl

theorem yearStart_mono {y z : Nat} (h : y ≤ z) : yearStart y ≤ yearStart z := by
  induction h with
  | refl => exact Nat.le_refl _
  | step _ ih => exact Nat.le_add_right_of_le ih

theorem yearLength (year : Nat) : monthStart year 12 = if isLeap year then 366 else 365 := by
  simp only [monthStart, daysIn]
  split <;> rfl

/-- Rounded up, a quotient grows behind a multiple. -/
theorem succ_div_up (n : Nat) {k : Nat} (hk : 0 < k) :
    (n + 1 + (k - 1)) / k = (n + (k - 1)) / k + if n % k = 0 then 1 else 0 := by
  have hsum : n + 1 + (k - 1) = n + (k - 1) + 1 := by omega
  have hmultiple : k ∣ n + (k - 1) + 1 ↔ n % k = 0 := by
    rw [show n + (k - 1) + 1 = n + k by omega, Nat.dvd_add_self_right, Nat.dvd_iff_mod_eq_zero]
  rw [hsum, Nat.succ_div]
  simp only [hmultiple]

/-- The leap days before a year. -/
theorem yearStart_eq (year : Nat) :
    yearStart year + (year + 99) / 100 = 365 * year + (year + 3) / 4 + (year + 399) / 400 := by
  induction year with
  | zero => rfl
  | succ year ih =>
      have h4 := @succ_div_up year 4 (by decide)
      have h100 := @succ_div_up year 100 (by decide)
      have h400 := @succ_div_up year 400 (by decide)
      have h4_of_100 : year % 100 = 0 → year % 4 = 0 := by omega
      have h100_of_400 : year % 400 = 0 → year % 100 = 0 := by omega
      rw [yearStart, yearLength, h4, h100, h400]
      simp only [isLeap, Bool.and_eq_true, Bool.or_eq_true, decide_eq_true_eq]
      by_cases hr4 : year % 4 = 0
      · by_cases hr100 : year % 100 = 0
        · by_cases hr400 : year % 400 = 0
          · simp only [hr4, hr100, hr400, ne_eq, not_true_eq_false, false_or, and_self, if_true]
            omega
          · simp only [hr4, hr100, hr400, ne_eq, not_true_eq_false, or_self, and_false, if_true,
              if_false]
            omega
        · have hr400 : year % 400 ≠ 0 := fun h => hr100 (h100_of_400 h)
          simp only [hr4, hr100, hr400, ne_eq, not_false_eq_true, true_or, and_self, if_true,
            if_false]
          omega
      · have hr100 : year % 100 ≠ 0 := fun h => hr4 (h4_of_100 h)
        have hr400 : year % 400 ≠ 0 := fun h => hr100 (h100_of_400 h)
        simp only [hr4, hr100, hr400, false_and, if_false]
        omega

namespace Date

/-- The days before this one. -/
def number (d : Date) : Nat := yearStart d.year + monthStart d.year d.month + (d.day - 1)

/-- The day after. -/
def next (d : Date) : Date :=
  if hday : d.day < daysIn d.year d.month then
    { d with day := d.day + 1, day_pos := Nat.le_add_left _ _, day_le := hday }
  else if hmonth : d.month + 1 < 12 then
    { year := d.year, month := d.month + 1, day := 1, month_lt := hmonth,
      day_pos := Nat.le_refl _, day_le := daysIn_pos _ _ }
  else
    { year := d.year + 1, month := 0, day := 1, month_lt := by decide,
      day_pos := Nat.le_refl _, day_le := daysIn_pos _ _ }

theorem number_next (d : Date) : d.next.number = d.number + 1 := by
  have hpos := d.day_pos
  have hle := d.day_le
  have hlt := d.month_lt
  unfold next number
  split
  · simp only
    omega
  · split
    · simp only [monthStart]
      omega
    · have hlast : monthStart d.year (d.month + 1) =
          monthStart d.year d.month + daysIn d.year d.month := rfl
      rw [show d.month + 1 = 12 by omega] at hlast
      simp only [yearStart, hlast, monthStart_zero]
      omega

theorem number_lt (d : Date) : d.number < yearStart (d.year + 1) := by
  have hmonth : monthStart d.year (d.month + 1) ≤ monthStart d.year 12 :=
    monthStart_mono d.year d.month_lt
  have hpos := d.day_pos
  have hle := d.day_le
  rw [monthStart] at hmonth
  rw [number, yearStart]
  omega

/-- The year of a day lies between those whose first days lie around it. -/
theorem year_bounds {d : Date} {y z : Nat} (hlow : yearStart y ≤ d.number)
    (hhigh : d.number < yearStart z) : y ≤ d.year ∧ d.year < z := by
  constructor
  · by_contra hlt
    have := yearStart_mono (show d.year + 1 ≤ y by omega)
    have := d.number_lt
    omega
  · by_contra hge
    have := yearStart_mono (show z ≤ d.year by omega)
    have : yearStart d.year ≤ d.number := Nat.le_add_right_of_le (Nat.le_add_right _ _)
    omega

def epoch : Date := ⟨1970, 0, 1, by decide, by decide, by decide⟩

/-- The day this many days after the epoch. -/
def sinceEpoch : Nat → Date
  | 0 => epoch
  | days + 1 => (sinceEpoch days).next

theorem number_sinceEpoch (days : Nat) : (sinceEpoch days).number = epoch.number + days := by
  induction days with
  | zero => rw [sinceEpoch, Nat.add_zero]
  | succ days ih => rw [sinceEpoch, number_next, ih, Nat.add_assoc]

theorem number_newYear (year : Nat) :
    number ⟨year, 0, 1, by decide, Nat.le_refl 1, daysIn_pos year 0⟩ = yearStart year := by
  simp only [number, monthStart_zero, Nat.add_zero, Nat.sub_self]

theorem number_epoch : epoch.number = yearStart 1970 := number_newYear 1970

end Date

namespace TimeOfDay

/-- The seconds of the day before this one. -/
def number (t : TimeOfDay) : Nat := 3600 * t.hour + 60 * t.minute + t.second

/-- The time of day with this many seconds before it. -/
def ofNumber (n : Nat) (h : n < 86400) : TimeOfDay :=
  ⟨n / 3600, n / 60 % 60, n % 60, by omega, Nat.mod_lt _ (by decide), Nat.mod_lt _ (by decide)⟩

theorem number_ofNumber (n : Nat) (h : n < 86400) : (ofNumber n h).number = n := by
  simp only [number, ofNumber]
  omega

theorem number_lt (t : TimeOfDay) : t.number < 86400 := by
  have := t.hour_lt
  have := t.minute_lt
  have := t.second_lt
  rw [number]
  omega

end TimeOfDay

/-- A time of the calendar, without a zone. -/
structure CivilTime where
  date : Date
  time : TimeOfDay
  deriving DecidableEq, Repr

namespace CivilTime

/-- The seconds from the epoch to this time. -/
def seconds (c : CivilTime) : Int :=
  86400 * ((c.date.number : Int) - Date.epoch.number) + c.time.number

/-- The time this many seconds after the epoch. -/
def ofSeconds (n : Nat) : CivilTime :=
  ⟨Date.sinceEpoch (n / 86400), TimeOfDay.ofNumber (n % 86400) (Nat.mod_lt _ (by decide))⟩

theorem seconds_ofSeconds (n : Nat) : (ofSeconds n).seconds = n := by
  simp only [seconds, ofSeconds, Date.number_sinceEpoch, TimeOfDay.number_ofNumber]
  omega

/-- The hour is that of the seconds since midnight. -/
theorem hour_eq (c : CivilTime) : c.seconds % 86400 / 3600 = c.time.hour := by
  have hlt := c.time.number_lt
  have hminute := c.time.minute_lt
  have hsecond := c.time.second_lt
  have hmod : c.seconds % 86400 = c.time.number := by
    rw [seconds, Int.mul_add_emod_self_left]
    omega
  rw [hmod, TimeOfDay.number]
  omega

/-- Between the epoch and the end of the year 9999 the year has four digits. -/
theorem year_bounds {c : CivilTime} (hlow : 0 ≤ c.seconds) (hhigh : c.seconds < 253402300800) :
    1970 ≤ c.date.year ∧ c.date.year < 10000 := by
  have hlt := c.time.number_lt
  have h1970 := yearStart_eq 1970
  have h10000 := yearStart_eq 10000
  rw [seconds, Date.number_epoch] at hlow hhigh
  apply Date.year_bounds
  · omega
  · omega

end CivilTime
end TAlib.Foundation
