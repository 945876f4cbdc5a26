import QtMigration.Text.Basic

/-!
# CommandLine/Clock — the date in the head of the log

A moment is a number of seconds since the beginning of 1970.
-/

namespace QtMigration

/-- A day of the calendar; months and days count from one. -/
structure CalendarDay where
  year : Nat
  month : Nat
  day : Nat
  deriving DecidableEq, Repr

namespace CalendarDay

/-- The number of days from the first of March of the year 0 to the first day of 1970. -/
def daysBefore1970 : Nat := 719468

/-- The number of days in four hundred years. -/
def daysOfEra : Nat := 146097

/-- The year of the era, from March to March, that has its day `n`. -/
def yearOfEra (n : Nat) : Nat := (n - n / 1460 + n / 36524 - n / 146096) / 365

/-- **The day that is `n` days after the first of 1970.** -/
def ofNumber (n : Nat) : CalendarDay :=
  let n := n + daysBefore1970
  let year := yearOfEra (n % daysOfEra)
  let dayOfYear := n % daysOfEra - (365 * year + year / 4 - year / 100)
  let month := (5 * dayOfYear + 2) / 153
  let day := dayOfYear - (153 * month + 2) / 5 + 1
  let year := year + 400 * (n / daysOfEra)
  if month < 10 then ⟨year, month + 3, day⟩ else ⟨year + 1, month - 9, day⟩

end CalendarDay

/-- The names of the days of a week, from that of the first day of 1970 on. -/
def weekdayNames : List Text :=
  ["Thursday", "Friday", "Saturday", "Sunday", "Monday", "Tuesday", "Wednesday"]

def monthNames : List Text :=
  ["January", "February", "March", "April", "May", "June", "July", "August", "September", "October",
    "November", "December"]

/-- A number below a hundred with two digits. -/
def twoDigits (n : Nat) : Text := [Nat.digitChar (n / 10), Nat.digitChar (n % 10)]

/-- **The date and the time of day of a moment**, to the minute. -/
def dateText (seconds : Nat) : Text :=
  let minutes := seconds / 60
  let number := minutes / 1440
  let day := CalendarDay.ofNumber number
  let weekday : Text := weekdayNames.getD (number % 7) []
  let month : Text := monthNames.getD (day.month - 1) []
  weekday ++ " " ++ twoDigits day.day ++ ". " ++ month ++ " " ++ Text.ofNat day.year ++ " " ++
    twoDigits (minutes / 60 % 24) ++ ":" ++ twoDigits (minutes % 60)

end QtMigration
