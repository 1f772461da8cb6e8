import Xcl.Lib.RoundedDivision

/-!
# Universal times

`universal-time.lisp`: the parts of a universal time in a time zone, and the way back.

* `decodeUniversalTime`, with dates counted in quarters of days;
* `leapYearsBefore`, `encodeUniversalTime`, with a table of the days before a month.
-/

namespace Xcl.UniversalTime

/-- `(truncate x d)`, with its remainder. -/
def truncate (x : ℚ) (d : ℤ) : ℤ × ℚ :=
  let quotient := RoundedDivision.truncate (x / d)
  (quotient, x - quotient * d)

def secondsInWeek : ℤ := 60 * 60 * 24 * 7
def weeksOffset : ℤ := 2145
def secondsOffset : ℤ := 432000
def minutesPerDay : ℤ := 24 * 60
def quarterDaysPerYear : ℤ := 365 * 4 + 1
def quarterDaysPerCentury : ℤ := 146097
def november171858 : ℤ := 678882
def weekdayNovember171858 : ℤ := 2

/-- `(get-universal-time)` and the two values of `(default-time-zone)`. -/
structure Clock where
  universalTime : ℤ
  timeZone : ℚ
  daylight : Bool

/-- The values of `decode-universal-time`. -/
structure Decoded where
  second : ℚ
  minute : ℤ
  hour : ℤ
  date : ℤ
  month : ℤ
  year : ℤ
  day : ℤ
  daylight : Bool
  zone : ℚ

/-- The date, month and year in `decode-universal-time`, of the number of a day. -/
def decodeDate (day : ℤ) : ℤ × ℤ × ℤ :=
  let t2 := day * 4 - 1
  let tcent := t2.tdiv quarterDaysPerCentury
  let t2 := t2.fmod quarterDaysPerCentury
  let t2 := t2 - t2.fmod 4 + 3
  let year := tcent * 100 + t2.tdiv quarterDaysPerYear
  let daysSinceMar0 := (t2.fmod quarterDaysPerYear).tdiv 4 + 1
  let t3 := daysSinceMar0 * 5 + 456
  let (t3, year) := if t3 ≥ 1989 then (t3 - 1836, year + 1) else (t3, year)
  ((t3.tmod 153).tdiv 5 + 1, t3.tdiv 153, year)

def decodeUniversalTime (clock : Clock) (universalTime : ℤ) (timeZone : Option ℚ) : Decoded :=
  let secondsWest := timeZone.getD clock.timeZone * 3600
  let daylight := timeZone.isNone && clock.daylight
  let (weeks, secs) := truncate (universalTime - secondsWest + secondsOffset) secondsInWeek
  let weeks := weeks + weeksOffset
  let (t1, second) := truncate secs 60
  let tday := t1.tdiv minutesPerDay
  let hour := (t1 - tday * minutesPerDay).tdiv 60
  let minute := (t1 - tday * minutesPerDay).tmod 60
  let (date, month, year) := decodeDate (weeks * 7 + tday + november171858)
  { second, minute, hour, date, month, year
    day := (tday + weekdayNovember171858).fmod 7
    daylight
    zone := if daylight then secondsWest / 3600 + 1 else secondsWest / 3600 }

/-- `pick-obvious-year`, with the year of `(get-decoded-time)` -/
def pickObviousYear (clock : Clock) (year : ℤ) : ℤ :=
  let currentYear := (decodeUniversalTime clock clock.universalTime none).year
  let guess := year + (currentYear - 50).tdiv 100 * 100
  if currentYear - guess > 50 then guess + 100 else guess

def leapYearsBefore (year : ℤ) : ℤ :=
  let years := year - 1901
  years.tdiv 4 - years.tdiv 100 + (years + 300).tdiv 400

def daysBeforeMonth : List (Option ℤ) :=
  none :: (([31, 28, 31, 30, 31, 30, 31, 31, 30, 31, 30, 31] : List ℤ).scanl (· + ·) 0).dropLast.map
    some

/-- `(aref *days-before-month* month)`, of which a sum is made. -/
def monthDays (month : ℤ) : Option ℤ :=
  if 0 ≤ month then daysBeforeMonth[month.toNat]?.join else none

def encodeDays (date month year monthDays : ℤ) : ℤ :=
  date - 1 + monthDays +
    (if month > 2 then leapYearsBefore (year + 1) else leapYearsBefore year) + (year - 1900) * 365

/-- `(+ second (* (+ minute (* (+ hours time-zone) 60)) 60))` -/
def encodeIn (second minute hour : ℚ) (date month year : ℤ) (timeZone : ℚ) : Option ℚ :=
  (monthDays month).map fun monthDays =>
    let hours := hour + encodeDays date month year monthDays * 24
    second + (minute + (hours + timeZone) * 60) * 60

def leapYearP (year : ℤ) : Bool :=
  if year.fmod 400 = 0 then true
  else if year.fmod 100 = 0 then false
  else year.fmod 4 = 0

/-- `encode-universal-time`. For the fake year, which is neither before 100 nor after 2037, the
inner call does what the last branch does. -/
def encodeUniversalTime (clock : Clock) (second minute hour : ℚ) (date month year : ℤ)
    (timeZone : Option ℚ) : Option ℚ :=
  let year := if year < 100 then pickObviousYear clock year else year
  match timeZone with
  | some timeZone => encodeIn second minute hour date month year timeZone
  | none =>
    if year > 2037 then do
      let fakeYear := if leapYearP year then 2036 else 2037
      let fakeTime ← encodeIn second minute hour date month fakeYear clock.timeZone
      return fakeTime + 86400 * (365 * (year - fakeYear) +
        (leapYearsBefore year - leapYearsBefore fakeYear))
    else encodeIn second minute hour date month year clock.timeZone

end Xcl.UniversalTime
