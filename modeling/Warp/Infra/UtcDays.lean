import Mathlib.Algebra.Order.Ring.Int

/-!
# Days of a UTC calendar

Days are counted from January 1, 1970, as the language of the browser counts them for dates at midnight.
The year, the month and the day of the month of a day are computed from its number and give the number
back.
-/

namespace Infra.UtcDays

def isLeap (year : ℤ) : Bool := year % 4 = 0 && (year % 100 ≠ 0 || year % 400 = 0)

/-- The day of January 1. -/
def dayFromYear (year : ℤ) : ℤ :=
  365 * (year - 1970) + (year - 1969) / 4 - (year - 1901) / 100 + (year - 1601) / 400

/-- The days of a year before its month; January is month zero. -/
def daysBeforeMonth (leap : Bool) (month : ℕ) : ℤ :=
  (match month with
    | 0 => 0
    | 1 => 31
    | 2 => 59
    | 3 => 90
    | 4 => 120
    | 5 => 151
    | 6 => 181
    | 7 => 212
    | 8 => 243
    | 9 => 273
    | 10 => 304
    | 11 => 334
    | _ => 365) + if leap && 2 ≤ month then 1 else 0

def monthLength (leap : Bool) (month : ℕ) : ℤ :=
  daysBeforeMonth leap (month + 1) - daysBeforeMonth leap month

/-- `MakeDay`: the months carry into the years, the days into the months. -/
def makeDay (year month date : ℤ) : ℤ :=
  dayFromYear (year + month / 12) +
    daysBeforeMonth (isLeap (year + month / 12)) (month % 12).toNat + (date - 1)

/-- `Date.UTC` at midnight: the years 0 to 99 are those of the twentieth century. -/
def dateUTC (year month date : ℤ) : ℤ :=
  makeDay (if 0 ≤ year ∧ year ≤ 99 then 1900 + year else year) month date

/-- A guess by the mean length of a year is at most one year off. -/
def getUTCFullYear (day : ℤ) : ℤ :=
  let year := 1970 + 400 * day / 146097
  if dayFromYear (year + 1) ≤ day then year + 1
  else if day < dayFromYear year then year - 1
  else year

/-- The month of a day of the year. -/
def monthOfYearDay (leap : Bool) (yearDay : ℤ) : ℕ :=
  ((List.range 11).filter fun month => daysBeforeMonth leap (month + 1) ≤ yearDay).length

def getUTCMonth (day : ℤ) : ℤ :=
  monthOfYearDay (isLeap (getUTCFullYear day)) (day - dayFromYear (getUTCFullYear day))

def getUTCDate (day : ℤ) : ℤ :=
  day - dayFromYear (getUTCFullYear day) -
    daysBeforeMonth (isLeap (getUTCFullYear day)) (getUTCMonth day).toNat + 1

/-! ## Years -/

theorem isLeap_iff {year : ℤ} :
    isLeap year = true ↔ year % 4 = 0 ∧ (year % 100 ≠ 0 ∨ year % 400 = 0) := by
  simp [isLeap]

theorem yearLength (leap : Bool) : daysBeforeMonth leap 12 = if leap then 366 else 365 := by
  cases leap <;> rfl

theorem dayFromYear_succ (year : ℤ) :
    dayFromYear (year + 1) = dayFromYear year + if isLeap year then 366 else 365 := by
  -- a quotient grows where the number reaches a multiple
  have h4 : (year + 1 - 1969) / 4 = (year - 1969) / 4 + if year % 4 = 0 then 1 else 0 := by
    split <;> omega
  have h100 : (year + 1 - 1901) / 100 = (year - 1901) / 100 + if year % 100 = 0 then 1 else 0 := by
    split <;> omega
  have h400 : (year + 1 - 1601) / 400 = (year - 1601) / 400 + if year % 400 = 0 then 1 else 0 := by
    split <;> omega
  unfold dayFromYear
  rw [h4, h100, h400]
  simp only [isLeap_iff]
  by_cases hc : year % 400 = 0
  · have h : year % 100 = 0 ∧ year % 4 = 0 := by omega
    rw [if_pos hc, if_pos h.1, if_pos h.2, if_pos ⟨h.2, .inr hc⟩]
    omega
  · by_cases hb : year % 100 = 0
    · have h : year % 4 = 0 := by omega
      rw [if_neg hc, if_pos hb, if_pos h, if_neg fun hl => hl.2.elim (fun h => h hb) hc]
      omega
    · by_cases ha : year % 4 = 0
      · rw [if_neg hc, if_neg hb, if_pos ha, if_pos ⟨ha, .inl hb⟩]
        omega
      · rw [if_neg hc, if_neg hb, if_neg ha, if_neg fun hl => ha hl.1]
        omega

theorem dayFromYear_lt_succ (year : ℤ) : dayFromYear year < dayFromYear (year + 1) := by
  rw [dayFromYear_succ]
  split <;> omega

theorem dayFromYear_strictMono {year year' : ℤ} (h : year < year') :
    dayFromYear year < dayFromYear year' := by
  obtain ⟨n, rfl⟩ := Int.lt.dest h
  clear h
  induction n with
  | zero => exact dayFromYear_lt_succ year
  | succ n ih =>
    have hnext := dayFromYear_lt_succ (year + (n.succ : ℕ))
    rw [add_assoc] at hnext
    exact ih.trans hnext

/-- In 400 years there are 146097 days. -/
theorem dayFromYear_bounds (year : ℤ) :
    146097 * (year - 1970) - 506 ≤ 400 * dayFromYear year ∧
      400 * dayFromYear year ≤ 146097 * (year - 1970) + 589 := by
  unfold dayFromYear
  omega

/-- The year of a day is the one whose days surround it. -/
theorem getUTCFullYear_eq {day year : ℤ} (h : dayFromYear year ≤ day)
    (h' : day < dayFromYear (year + 1)) : getUTCFullYear day = year := by
  have hguess : 1970 + 400 * day / 146097 = year - 1 ∨ 1970 + 400 * day / 146097 = year ∨
      1970 + 400 * day / 146097 = year + 1 := by
    have hfirst := (dayFromYear_bounds year).1
    have hlast := (dayFromYear_bounds (year + 1)).2
    omega
  unfold getUTCFullYear
  dsimp only
  rcases hguess with hg | hg | hg
  · rw [hg, sub_add_cancel, if_pos h]
  · rw [hg, if_neg (not_le.mpr h'), if_neg (not_lt.mpr h)]
  · rw [hg, if_neg (not_le.mpr (h'.trans (dayFromYear_lt_succ _))), if_pos h', add_sub_cancel_right]

/-! ## Months -/

theorem daysBeforeMonth_lt (leap : Bool) {month month' : ℕ} (h : month < month')
    (h' : month' ≤ 12) : daysBeforeMonth leap month < daysBeforeMonth leap month' := by
  have htable : ∀ leap, ∀ n < 13, ∀ m < n, daysBeforeMonth leap m < daysBeforeMonth leap n := by
    decide
  exact htable leap month' (Nat.lt_succ_of_le h') month h

theorem monthLength_pos (leap : Bool) {month : ℕ} (h : month ≤ 11) : 0 < monthLength leap month :=
  sub_pos.mpr (daysBeforeMonth_lt leap (Nat.lt_succ_self month) (Nat.succ_le_succ h))

theorem daysBeforeMonth_succ (leap : Bool) (month : ℕ) :
    daysBeforeMonth leap (month + 1) = daysBeforeMonth leap month + monthLength leap month := by
  unfold monthLength
  omega

theorem monthOfYearDay_eq {leap : Bool} {month : ℕ} {yearDay : ℤ} (h : month ≤ 11)
    (hfirst : daysBeforeMonth leap month ≤ yearDay)
    (hlast : yearDay < daysBeforeMonth leap (month + 1)) : monthOfYearDay leap yearDay = month := by
  have hbefore : ∀ m ∈ List.range 11,
      decide (daysBeforeMonth leap (m + 1) ≤ yearDay) = decide (m + 1 ≤ month) := by
    intro m hm
    have hm := List.mem_range.mp hm
    rw [decide_eq_decide]
    constructor
    · intro hle
      by_contra hlt
      rcases (Nat.le_of_lt_succ (not_le.mp hlt)).lt_or_eq with hmonth | rfl
      · have hmore := daysBeforeMonth_lt leap (Nat.succ_lt_succ hmonth) (by omega)
        exact (hlast.trans hmore).not_ge hle
      · exact hlast.not_ge hle
    · intro hle
      rcases hle.lt_or_eq with hlt | heq
      · exact (daysBeforeMonth_lt leap hlt (by omega)).le.trans hfirst
      · rwa [heq]
  have hcount : ∀ month < 12,
      ((List.range 11).filter fun m => decide (m + 1 ≤ month)).length = month := by decide
  unfold monthOfYearDay
  rw [List.filter_congr hbefore]
  exact hcount month (Nat.lt_succ_of_le h)

/-! ## Dates -/

section

variable {year date : ℤ} {month : ℕ}

theorem makeDay_eq (h : month ≤ 11) : makeDay year month date =
    dayFromYear year + daysBeforeMonth (isLeap year) month + (date - 1) := by
  have hquot : (month : ℤ) / 12 = 0 := by omega
  have hrem : ((month : ℤ) % 12).toNat = month := by omega
  rw [makeDay, hquot, hrem, add_zero]

/-- A day of a month lies within its year. -/
theorem makeDay_mem (h : month ≤ 11) (hfirst : 1 ≤ date)
    (hlast : date ≤ monthLength (isLeap year) month) :
    dayFromYear year ≤ makeDay year month date ∧ makeDay year month date < dayFromYear (year + 1) := by
  have hnext := daysBeforeMonth_succ (isLeap year) month
  have hzero : daysBeforeMonth (isLeap year) 0 ≤ daysBeforeMonth (isLeap year) month := by
    rcases Nat.eq_zero_or_pos month with rfl | hpos
    · exact le_rfl
    · exact (daysBeforeMonth_lt _ hpos (by omega)).le
  have hyear : daysBeforeMonth (isLeap year) (month + 1) ≤ daysBeforeMonth (isLeap year) 12 := by
    rcases h.lt_or_eq with hlt | rfl
    · exact (daysBeforeMonth_lt _ (by omega) le_rfl).le
    · exact le_rfl
  have hstart : daysBeforeMonth (isLeap year) 0 = 0 := by cases isLeap year <;> rfl
  rw [makeDay_eq h, dayFromYear_succ, ← yearLength]
  omega

/-- The fields of a day that was made from a date are those of the date. -/
theorem makeDay_fields (h : month ≤ 11) (hfirst : 1 ≤ date)
    (hlast : date ≤ monthLength (isLeap year) month) :
    getUTCFullYear (makeDay year month date) = year ∧
      getUTCMonth (makeDay year month date) = month ∧
      getUTCDate (makeDay year month date) = date := by
  obtain ⟨hmem, hmem'⟩ := makeDay_mem h hfirst hlast
  have hyear := getUTCFullYear_eq hmem hmem'
  have hmonth : getUTCMonth (makeDay year month date) = month := by
    have hnext := daysBeforeMonth_succ (isLeap year) month
    rw [getUTCMonth, hyear, makeDay_eq h]
    refine congrArg _ (monthOfYearDay_eq h ?_ ?_)
    · omega
    · omega
  refine ⟨hyear, hmonth, ?_⟩
  rw [getUTCDate, hyear, hmonth, Int.toNat_natCast, makeDay_eq h]
  omega

/-- Day zero of the next month is the last day of the month. -/
theorem makeDay_zero (h : month ≤ 11) : makeDay year (month + 1) 0 =
    makeDay year month (monthLength (isLeap year) month) := by
  rw [makeDay_eq h]
  have hnext := daysBeforeMonth_succ (isLeap year) month
  rcases h.lt_or_eq with hlt | rfl
  · have hmake := @makeDay_eq year 0 (month + 1) hlt
    rw [Nat.cast_succ] at hmake
    rw [hmake]
    omega
  · have hquot : ((11 : ℕ) + 1 : ℤ) / 12 = 1 := by omega
    have hrem : (((11 : ℕ) + 1 : ℤ) % 12).toNat = 0 := by omega
    have hstart : daysBeforeMonth (isLeap (year + 1)) 0 = 0 := by cases isLeap (year + 1) <;> rfl
    have hlast : daysBeforeMonth (isLeap year) 12 =
        daysBeforeMonth (isLeap year) 11 + monthLength (isLeap year) 11 := hnext
    rw [makeDay, hquot, hrem, hstart, dayFromYear_succ, ← yearLength, hlast]
    omega

/-- From the year 100 on, `Date.UTC` takes the year as it is. -/
theorem dateUTC_eq (h : 100 ≤ year) (month date : ℤ) :
    dateUTC year month date = makeDay year month date := by
  rw [dateUTC, if_neg (by omega)]

end

end Infra.UtcDays
