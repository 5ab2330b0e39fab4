/-!
# Time stamps

A moment of universal time as lines of the log begin with it, `2024-02-29T12:00:00.000000Z`, from
the microseconds since the start of 1970. The calendar is the Gregorian one; its years are counted
from March here, so that a leap day is the last day of its year.
-/

namespace Brainfuck.CommandLine.Stamp

/-- A number with zeros in front. -/
def padded (width n : Nat) : String :=
  let digits := toString n
  String.ofList (List.replicate (width - digits.length) '0') ++ digits

/-- The days in 400 years. -/
def daysPerEra : Nat :=
  146097

/-- The days from the first of March of year 0 to the start of 1970. -/
def daysBefore1970 : Nat :=
  719468

/-- Year, month and day of a day, counted from the start of 1970. -/
def date (day : Nat) : Nat × Nat × Nat :=
  let days := day + daysBefore1970
  let era := days / daysPerEra
  let dayOfEra := days % daysPerEra
  let yearOfEra :=
    (dayOfEra - dayOfEra / 1460 + dayOfEra / 36524 - dayOfEra / (daysPerEra - 1)) / 365
  let dayOfYear := dayOfEra - (365 * yearOfEra + yearOfEra / 4 - yearOfEra / 100)
  let monthFromMarch := (5 * dayOfYear + 2) / 153
  let dayOfMonth := dayOfYear - (153 * monthFromMarch + 2) / 5 + 1
  let month := if monthFromMarch < 10 then monthFromMarch + 3 else monthFromMarch - 9
  let year := yearOfEra + 400 * era + (if month ≤ 2 then 1 else 0)
  (year, month, dayOfMonth)

/-- The moment as text. -/
def ofMicroseconds (micros : Nat) : String :=
  let seconds := micros / 1000000
  let (year, month, day) := date (seconds / 86400)
  let time := seconds % 86400
  s!"{padded 4 year}-{padded 2 month}-{padded 2 day}T" ++
    s!"{padded 2 (time / 3600)}:{padded 2 (time / 60 % 60)}:{padded 2 (time % 60)}" ++
    s!".{padded 6 (micros % 1000000)}Z"

end Brainfuck.CommandLine.Stamp
