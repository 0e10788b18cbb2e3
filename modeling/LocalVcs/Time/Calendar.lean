/-
# The calendar

Dates of the proleptic Gregorian calendar, counted in days from 1 January 1970.  The count works in
eras of 400 years that begin on a first of March, so that the leap day is the last day of a year.
-/

namespace LocalVcs.Time

/-- A day of the calendar; the year before year 1 is year 0. -/
structure Date where
  year : Int
  month : Nat
  day : Nat
  deriving DecidableEq, Repr

namespace Date

/-- A year with 366 days. -/
def isLeap (year : Int) : Bool := year % 4 = 0 ∧ (year % 100 ≠ 0 ∨ year % 400 = 0)

/-- The days of a month; none for a number that is no month. -/
def daysIn (year : Int) (month : Nat) : Nat :=
  if month ∈ [1, 3, 5, 7, 8, 10, 12] then 31
  else if month ∈ [4, 6, 9, 11] then 30
  else if month = 2 then (if isLeap year then 29 else 28)
  else 0

/-- Whether the calendar has this day. -/
def exists? (d : Date) : Bool := 1 ≤ d.day ∧ d.day ≤ daysIn d.year d.month

/-- The days from 1 January 1970 to a date. -/
def number (d : Date) : Int :=
  let year := if d.month ≤ 2 then d.year - 1 else d.year
  let ofEra := year % 400
  let ofYear : Int := (153 * ((d.month + 9) % 12) + 2) / 5 + d.day - 1
  year / 400 * 146097 + ofEra * 365 + ofEra / 4 - ofEra / 100 + ofYear - 719468

/-- The date that is so many days after 1 January 1970. -/
def ofNumber (n : Int) : Date :=
  let days := n + 719468
  let ofEra := days % 146097
  let year := (ofEra - ofEra / 1460 + ofEra / 36524 - ofEra / 146096) / 365
  let ofYear := ofEra - (365 * year + year / 4 - year / 100)
  let fromMarch := (5 * ofYear + 2) / 153
  let day := ofYear - (153 * fromMarch + 2) / 5 + 1
  let month := if fromMarch < 10 then fromMarch + 3 else fromMarch - 9
  { year := year + days / 146097 * 400 + (if month ≤ 2 then 1 else 0)
    month := month.toNat
    day := day.toNat }

end Date

/-- The names of the months, January first. -/
def monthNames : List String :=
  ["Jan", "Feb", "Mar", "Apr", "May", "Jun", "Jul", "Aug", "Sep", "Oct", "Nov", "Dec"]

/-- The names of the days of the week, Sunday first. -/
def weekdayNames : List String := ["Sun", "Mon", "Tue", "Wed", "Thu", "Fri", "Sat"]

/-- The place in the week of a day that is so many days after 1 January 1970; Sunday is 0. -/
def weekdayOf (number : Int) : Nat := ((number + 4) % 7).toNat

example : (Date.mk 1970 1 1).number = 0 := by decide
example : (Date.mk (-262143) 1 1).number * 86400 = -8334601228800 := by decide
example : (Date.mk 262142 12 31).number * 86400 + 86399 = 8210266876799 := by decide
example : Date.ofNumber 19782 = ⟨2024, 2, 29⟩ := by decide
example : weekdayNames[weekdayOf 0]? = some "Thu" := by decide

end LocalVcs.Time
