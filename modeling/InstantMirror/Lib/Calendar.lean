import Mathlib.Order.Monotone.Basic
import Mathlib.Tactic.IntervalCases
import InstantMirror.Lib.Decimal

/-!
# Dates

The calendar as `gmtime` reads it: a number of seconds, counted from the beginning of 1970,
taken apart into year, month, day, hour and minute. The two directions are defined one
without the other. A broken-down date says when it begins (`InstantMirror.Tm.time`), by
adding up years and months; and `InstantMirror.calendar` finds the date of a moment as the C
library does, by guessing the year and looking for the month from December down. That the
date found is the one that the moment lies in is `InstantMirror.isTm_calendar`, and there is
no other (`InstantMirror.IsTm.eq`).

`gmtime` is that, where the year is one that an `int` can hold; and `strftime` puts a date
into a buffer if there is room for it.
-/

namespace InstantMirror

/-! ### Years -/

/-- The rule for leap years. -/
def isLeap (year : ℤ) : Bool := year % 4 = 0 ∧ (year % 100 ≠ 0 ∨ year % 400 = 0)

/-- How many days the year has. -/
def yearLength (year : ℤ) : ℕ := if isLeap year then 366 else 365

/-- The day on which the year begins, counted from 1 January 1970. -/
def firstDay (year : ℤ) : ℤ :=
  365 * (year - 1970) + ((year - 1) / 4 - (year - 1) / 100 + (year - 1) / 400 - 477)

/-- **The year of a moment.** -/
def InYear (t year : ℤ) : Prop :=
  firstDay year ≤ t / 86400 ∧ t / 86400 < firstDay (year + 1)

/-- The year that a day lies in: a guess, corrected by one. -/
def yearOf (day : ℤ) : ℤ :=
  let guess := day * 400 / 146097 + 1970
  if day < firstDay guess then guess - 1
  else if firstDay (guess + 1) ≤ day then guess + 1
  else guess

/-- Each year begins where the one before it ends. -/
theorem firstDay_succ (year : ℤ) : firstDay (year + 1) = firstDay year + yearLength year := by
  rw [firstDay, firstDay, yearLength, isLeap]
  split <;> rename_i hleap <;>
    simp only [decide_eq_true_eq, not_and_or, not_or, not_not] at hleap <;> omega

theorem firstDay_mono {year year' : ℤ} (h : year ≤ year') : firstDay year ≤ firstDay year' := by
  rw [firstDay, firstDay]
  omega

/-- The guess is at most one year off. -/
theorem inYear_yearOf (t : ℤ) : InYear t (yearOf (t / 86400)) := by
  rw [InYear, yearOf]
  generalize t / 86400 = day
  split_ifs with hbefore hafter
  · refine ⟨?_, by rwa [sub_add_cancel]⟩
    rw [firstDay] at hbefore ⊢
    omega
  · refine ⟨hafter, ?_⟩
    rw [firstDay] at hafter ⊢
    omega
  · exact ⟨not_lt.mp hbefore, not_le.mp hafter⟩

/-- Every moment has a year. -/
theorem exists_inYear (t : ℤ) : ∃ year, InYear t year := ⟨_, inYear_yearOf t⟩

/-- A moment has one year. -/
theorem InYear.eq {t year year' : ℤ} (h : InYear t year) (h' : InYear t year') : year = year' := by
  rcases lt_trichotomy year year' with hlt | heq | hlt
  · exact absurd (h'.1.trans_lt h.2) (not_lt.mpr (firstDay_mono (by omega)))
  · exact heq
  · exact absurd (h.1.trans_lt h'.2) (not_lt.mpr (firstDay_mono (by omega)))

/-- The years of four characters. -/
theorem InYear.bounds {t year : ℤ} (h : InYear t year) :
    (-999 ≤ year ∧ year ≤ 9999) ↔ (-93692592000 ≤ t ∧ t < 253402300800) := by
  have hlow : firstDay (-999) = -1084405 := by decide
  have hhigh : firstDay 10000 = 2932897 := by decide
  obtain ⟨hfirst, hnext⟩ := h
  constructor
  · rintro ⟨hge, hle⟩
    have h₁ := firstDay_mono hge
    have h₂ := firstDay_mono (show year + 1 ≤ 10000 by omega)
    omega
  · rintro ⟨hge, hlt⟩
    constructor
    · by_contra hnot
      have := firstDay_mono (show year + 1 ≤ -999 by omega)
      omega
    · by_contra hnot
      have := firstDay_mono (show 10000 ≤ year by omega)
      omega

/-! ### Months -/

/-- How many days a month has, January being month `0`. -/
def monthLength (year : ℤ) : ℕ → ℕ
  | 1 => if isLeap year then 29 else 28
  | 3 | 5 | 8 | 10 => 30
  | _ => 31

/-- How many days of the year come before the month. -/
def daysBefore (year : ℤ) : ℕ → ℕ
  | 0 => 0
  | month + 1 => daysBefore year month + monthLength year month

/-- The last month, up to this one, that begins no later than the day of the year. -/
def monthOf (year : ℤ) (yday : ℕ) : ℕ → ℕ
  | 0 => 0
  | month + 1 => if daysBefore year (month + 1) ≤ yday then month + 1 else monthOf year yday month

theorem daysBefore_mono (year : ℤ) : Monotone (daysBefore year) :=
  monotone_nat_of_le_succ fun _ => Nat.le_add_right _ _

/-- The months make up the year. -/
theorem daysBefore_twelve (year : ℤ) : daysBefore year 12 = yearLength year := by
  simp only [daysBefore, monthLength, yearLength]
  split <;> rfl

/-- **The month that is found is the one that the day lies in.** -/
theorem monthOf_spec {year : ℤ} {yday month : ℕ} (h : yday < daysBefore year (month + 1)) :
    monthOf year yday month ≤ month ∧ daysBefore year (monthOf year yday month) ≤ yday ∧
      yday < daysBefore year (monthOf year yday month + 1) := by
  induction month with
  | zero => exact ⟨le_rfl, Nat.zero_le _, h⟩
  | succ month ih =>
    rw [monthOf]
    split
    · rename_i hle
      exact ⟨le_rfl, hle, h⟩
    · rename_i hgt
      obtain ⟨hmonth, hspec⟩ := ih (Nat.lt_of_not_le hgt)
      exact ⟨Nat.le_succ_of_le hmonth, hspec⟩

/-! ### Broken-down dates -/

/-- **A broken-down date**, a `struct tm`: a minute of a day that the calendar has. -/
@[ext] structure Tm where
  /-- The minute, `tm_min`. -/
  min : ℕ
  /-- The hour, `tm_hour`. -/
  hour : ℕ
  /-- The day of the month, `tm_mday`. -/
  mday : ℕ
  /-- The month, `tm_mon`. -/
  mon : ℕ
  /-- The year, `tm_year + 1900`. -/
  year : ℤ
  /-- An hour has 60 minutes. -/
  min_lt : min < 60
  /-- A day has 24 hours. -/
  hour_lt : hour < 24
  /-- A year has 12 months. -/
  mon_lt : mon < 12
  /-- Days of a month are counted from one. -/
  mday_pos : 0 < mday
  /-- The month has the day. -/
  mday_le : mday ≤ monthLength year mon

/-- The day, counted from 1 January 1970. -/
def Tm.day (tm : Tm) : ℤ := firstDay tm.year + (daysBefore tm.year tm.mon + tm.mday - 1)

/-- The moment at which the minute begins, in seconds from the beginning of 1970. -/
def Tm.time (tm : Tm) : ℤ := ((tm.day * 24 + tm.hour) * 60 + tm.min) * 60

/-- **The date is that of the moment.** -/
def IsTm (t : ℤ) (tm : Tm) : Prop := tm.time ≤ t ∧ t < tm.time + 60

/-- A date lies in its month. -/
theorem Tm.day_bounds (tm : Tm) :
    firstDay tm.year + daysBefore tm.year tm.mon ≤ tm.day ∧
      tm.day < firstDay tm.year + daysBefore tm.year (tm.mon + 1) := by
  have hpos := tm.mday_pos
  have hle := tm.mday_le
  rw [Tm.day, daysBefore]
  omega

/-- What a moment says about its date. -/
theorem isTm_iff {t : ℤ} {tm : Tm} :
    IsTm t tm ↔ t / 86400 = tm.day ∧ t % 86400 / 3600 = tm.hour ∧ t % 3600 / 60 = tm.min := by
  have hmin := tm.min_lt
  have hhour := tm.hour_lt
  rw [IsTm, Tm.time]
  omega

/-- The date of a moment lies in the year of the moment. -/
theorem IsTm.inYear {t : ℤ} {tm : Tm} (h : IsTm t tm) : InYear t tm.year := by
  obtain ⟨hge, hlt⟩ := tm.day_bounds
  have hyear := daysBefore_mono tm.year (show tm.mon + 1 ≤ 12 from tm.mon_lt)
  rw [daysBefore_twelve] at hyear
  rw [InYear, (isTm_iff.mp h).1, firstDay_succ]
  omega

/-- **A moment has one date.** -/
theorem IsTm.eq {t : ℤ} {tm tm' : Tm} (h : IsTm t tm) (h' : IsTm t tm') : tm = tm' := by
  have hyear := h.inYear.eq h'.inYear
  obtain ⟨hday, hhour, hmin⟩ := isTm_iff.mp h
  obtain ⟨hday', hhour', hmin'⟩ := isTm_iff.mp h'
  have hb := tm.day_bounds
  have hb' := tm'.day_bounds
  rw [← hday, hyear] at hb
  rw [← hday'] at hb'
  have hmon : tm.mon = tm'.mon := by
    -- of two months, the earlier one is over when the later one begins
    rcases lt_trichotomy tm.mon tm'.mon with hlt | heq | hlt
    · have := daysBefore_mono tm'.year (show tm.mon + 1 ≤ tm'.mon from hlt)
      omega
    · exact heq
    · have := daysBefore_mono tm'.year (show tm'.mon + 1 ≤ tm.mon from hlt)
      omega
  have hmday : tm.mday = tm'.mday := by
    have hsame := hday.symm.trans hday'
    rw [Tm.day, Tm.day, hyear, hmon] at hsame
    omega
  exact Tm.ext (by omega) (by omega) hmday hmon hyear

/-! ### The C library -/

/-- The day of the year of a moment. -/
def ydayOf (t : ℤ) : ℕ := (t / 86400 - firstDay (yearOf (t / 86400))).toNat

theorem ydayOf_eq (t : ℤ) : firstDay (yearOf (t / 86400)) + ydayOf t = t / 86400 := by
  have := (inYear_yearOf t).1
  rw [ydayOf]
  omega

theorem ydayOf_lt (t : ℤ) : ydayOf t < daysBefore (yearOf (t / 86400)) 12 := by
  have h := (inYear_yearOf t).2
  have heq := ydayOf_eq t
  rw [firstDay_succ] at h
  rw [daysBefore_twelve]
  omega

/-- **The date of a moment.** -/
def calendar (t : ℤ) : Tm where
  min := (t % 3600 / 60).toNat
  hour := (t % 86400 / 3600).toNat
  mday :=
    ydayOf t - daysBefore (yearOf (t / 86400)) (monthOf (yearOf (t / 86400)) (ydayOf t) 11) + 1
  mon := monthOf (yearOf (t / 86400)) (ydayOf t) 11
  year := yearOf (t / 86400)
  min_lt := by omega
  hour_lt := by omega
  mon_lt := Nat.lt_succ_of_le (monthOf_spec (ydayOf_lt t)).1
  mday_pos := Nat.succ_pos _
  mday_le := by
    obtain ⟨-, hge, hlt⟩ := monthOf_spec (ydayOf_lt t)
    rw [daysBefore] at hlt
    omega

/-- **The date of a moment is the date of the moment.** -/
theorem isTm_calendar (t : ℤ) : IsTm t (calendar t) := by
  obtain ⟨-, hge, -⟩ := monthOf_spec (ydayOf_lt t)
  have heq := ydayOf_eq t
  rw [isTm_iff]
  refine ⟨?_, ?_, ?_⟩
  · rw [Tm.day, calendar]
    simp only
    omega
  · rw [calendar]
    simp only
    omega
  · rw [calendar]
    simp only
    omega

/-- **`gmtime`**: a null pointer where `tm_year` cannot hold the year. -/
def gmtime (t : ℤ) : Option Tm :=
  if (calendar t).year - 1900 < 0x80000000 ∧ -0x80000000 ≤ (calendar t).year - 1900 then
    some (calendar t)
  else none

/-- **What `gmtime` returns is the date of the moment.** -/
theorem gmtime_eq_some_iff {t : ℤ} {tm : Tm} :
    gmtime t = some tm ↔
      IsTm t tm ∧ tm.year - 1900 < 0x80000000 ∧ -0x80000000 ≤ tm.year - 1900 := by
  rw [gmtime]
  constructor
  · intro h
    split at h
    · rename_i hyear
      obtain rfl := Option.some.inj h
      exact ⟨isTm_calendar t, hyear⟩
    · cases h
  · rintro ⟨htm, hyear⟩
    obtain rfl := htm.eq (isTm_calendar t)
    exact if_pos hyear

/-- A number in two digits, `"%02d"`. -/
def twoDigits (n : ℕ) : Bytes := [UInt8.ofNat (48 + n / 10 % 10), UInt8.ofNat (48 + n % 10)]

/-- The abbreviated names of the months, in the locale `"C"`. -/
def monthName (mon : ℕ) : Bytes :=
  ([ascii "Jan", ascii "Feb", ascii "Mar", ascii "Apr", ascii "May", ascii "Jun", ascii "Jul",
    ascii "Aug", ascii "Sep", ascii "Oct", ascii "Nov", ascii "Dec"])[mon]?.getD (ascii "?")

/-- The date in the format `"%d-%b-%Y %H:%M"`. -/
def Tm.text (tm : Tm) : Bytes :=
  twoDigits tm.mday ++ ascii "-" ++ monthName tm.mon ++ ascii "-" ++ intText tm.year ++
    ascii " " ++ twoDigits tm.hour ++ ascii ":" ++ twoDigits tm.min

/-- **`strftime`**, in the format `"%d-%b-%Y %H:%M"`: what is in the buffer, or `0` if the text
and its NUL do not fit into it. -/
def strftime (maxsize : ℕ) (tm : Tm) : Option Bytes :=
  if tm.text.length + 1 ≤ maxsize then some tm.text else none

theorem length_monthName {mon : ℕ} (h : mon < 12) : (monthName mon).length = 3 := by
  interval_cases mon <;> rfl

/-- The text is 13 characters and a year. -/
theorem Tm.length_text (tm : Tm) : tm.text.length = 13 + (intText tm.year).length := by
  have hmonth := length_monthName tm.mon_lt
  have hdash : (ascii "-").length = 1 := rfl
  have hblank : (ascii " ").length = 1 := rfl
  have hcolon : (ascii ":").length = 1 := rfl
  have htwo : ∀ n, (twoDigits n).length = 2 := fun _ => rfl
  simp only [Tm.text, List.length_append, htwo, hmonth, hdash, hblank, hcolon]
  omega

end InstantMirror
