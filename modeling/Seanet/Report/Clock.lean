import Seanet.Number.Rounding
import Seanet.Text.Basic

set_option autoImplicit false

namespace Seanet

namespace Clock

def twoDigits (n : Nat) : Text := if n < 10 then "0" ++ Text.ofNat n else Text.ofNat n

/-- Hundredths of a second in so many milliseconds: the seconds are first rounded to the nearest
double, and that number is then rounded to hundredths, a half upwards. -/
def hundredths (milliseconds : Nat) : Nat :=
  match BinaryFormat.double.nearest? milliseconds 1000 with
  | none => 0
  | some seconds =>
    let (num, den) := seconds.ratio
    (200 * num + den) / (2 * den)

/-- A span in seconds with two places. A negative span keeps its sign even when it is too short to
show. -/
def seconds (milliseconds : Int) : Text :=
  let n := hundredths milliseconds.natAbs
  let magnitude := Text.ofNat (n / 100) ++ "." ++ twoDigits (n % 100)
  if milliseconds < 0 then "-" ++ magnitude else magnitude

structure Date where
  year : Int
  month : Nat
  day : Nat
  deriving DecidableEq, Repr

/-- The date of a day counted from the first of January 1970. Years are counted from March, so
that the leap day is the last of a year, in cycles of four centuries. -/
def dateOfDay (day : Int) : Date :=
  let shifted := day + 719468
  let cycle := shifted.fdiv 146097
  let dayOfCycle := (shifted.fmod 146097).toNat
  let yearOfCycle :=
    (dayOfCycle - dayOfCycle / 1460 + dayOfCycle / 36524 - dayOfCycle / 146096) / 365
  let dayOfYear := dayOfCycle - (365 * yearOfCycle + yearOfCycle / 4 - yearOfCycle / 100)
  let monthFromMarch := (5 * dayOfYear + 2) / 153
  let dayOfMonth := dayOfYear - (153 * monthFromMarch + 2) / 5 + 1
  let month := if monthFromMarch < 10 then monthFromMarch + 3 else monthFromMarch - 9
  let year := cycle * 400 + yearOfCycle + (if month ≤ 2 then 1 else 0)
  ⟨year, month, dayOfMonth⟩

def Date.yearOfEra (d : Date) : Int := if 0 < d.year then d.year else 1 - d.year

def stamp (milliseconds : Int) : Text :=
  let minutes := milliseconds.fdiv 60000
  let date := dateOfDay (minutes.fdiv 1440)
  let minute := (minutes.fmod 1440).toNat
  let hour := minute / 60
  let hour12 := if hour % 12 = 0 then 12 else hour % 12
  twoDigits date.month ++ "/" ++ twoDigits date.day ++ "/" ++ Text.ofInt date.yearOfEra ++ ", " ++
    twoDigits hour12 ++ ":" ++ twoDigits (minute % 60) ++ (if hour < 12 then " AM" else " PM")

end Clock

end Seanet
