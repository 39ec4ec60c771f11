import Warp.Dates
import Warp.Infra.UtcDays

/-!
# The tenure that is shown

How a browser words the tenure that explains a condition: years, months and days from a start date to the
day of the evaluation. The dates arrive as ISO texts and are read at midnight UTC.
-/

namespace Warp.ExplanationFormat

open Infra.UtcDays

/-- The day of an ISO text. Unlike `dateUTC`, reading keeps the years before 100. -/
def parseDay (d : Date) : ℤ := makeDay d.year ((d.month - 1 : ℕ) : ℤ) d.day

def unit (value : ℤ) (label : String) : String :=
  toString value ++ " " ++ label ++ if value = 1 then "" else "s"

def daysInMonth (year month : ℤ) : ℤ := getUTCDate (dateUTC year (month + 1) 0)

def addCalendarParts (day years months : ℤ) : ℤ :=
  let year := getUTCFullYear day + years
  let monthIndex := getUTCMonth day + months
  let normalizedYear := year + monthIndex / 12
  let normalizedMonth := (monthIndex.tmod 12 + 12).tmod 12
  dateUTC normalizedYear normalizedMonth
    (min (getUTCDate day) (daysInMonth normalizedYear normalizedMonth))

/-- The loop over the months, which may still take `left` of them: the last cursor and the months. -/
def countMonths (endDate : ℤ) : ℕ → ℤ → ℤ × ℕ
  | 0, cursor => (cursor, 0)
  | left + 1, cursor =>
    if addCalendarParts cursor 0 1 ≤ endDate then
      let (last, months) := countMonths endDate left (addCalendarParts cursor 0 1)
      (last, months + 1)
    else (cursor, 0)

structure TenureParts where
  years : ℤ
  months : ℕ
  days : ℤ
deriving DecidableEq, Repr

def tenureParts (startDate endDate : ℤ) : TenureParts :=
  let difference := getUTCFullYear endDate - getUTCFullYear startDate
  let years := if endDate < addCalendarParts startDate difference 0 then difference - 1 else difference
  let (cursor, months) := countMonths endDate 11 (addCalendarParts startDate years 0)
  ⟨years, months, endDate - cursor⟩

def formatTenure (start evaluation : Date) : String :=
  if parseDay evaluation < parseDay start then "Not yet started"
  else
    let parts := tenureParts (parseDay start) (parseDay evaluation)
    let texts := [(parts.years, "year"), ((parts.months : ℤ), "month"), (parts.days, "day")].filterMap
      fun part => if part.1 = 0 then none else some (unit part.1 part.2)
    if texts.isEmpty then "Less than one day" else String.intercalate ", " texts

example : formatTenure (.on 2024 2 29) (.on 2027 4 1) = "3 years, 1 month, 4 days" := by decide +kernel

end Warp.ExplanationFormat
