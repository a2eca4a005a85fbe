import FeltRelay.Text.Numeral

/-!
# Moments

A moment is counted in milliseconds since the start of 1970 and written as date and time of day in
UTC. Years are counted from March on here, so that the day which leap years add is the last one.
-/

namespace FeltRelay.Journal

open FeltRelay.Text

/-- The date of a day that is counted from 1970-01-01: year, month and day of the month. -/
def dateOfDay (day : Nat) : Nat × Nat × Nat :=
  let shifted := day + 719468
  let inCycle := shifted % 146097
  let yearInCycle := (inCycle - inCycle / 1460 + inCycle / 36524 - inCycle / 146096) / 365
  let dayOfYear := inCycle - (365 * yearInCycle + yearInCycle / 4 - yearInCycle / 100)
  let month := (5 * dayOfYear + 2) / 153
  let year := yearInCycle + shifted / 146097 * 400
  (if month < 10 then year else year + 1, if month < 10 then month + 3 else month - 9,
    dayOfYear - (153 * month + 2) / 5 + 1)

/-- A number with zeros in front up to a width. -/
def padded (width n : Nat) : String := String.ofList (padLeft width '0' (inBase 10 n))

def momentText (milliseconds : Nat) : String :=
  let seconds := milliseconds / 1000
  let (year, month, day) := dateOfDay (seconds / 86400)
  padded 4 year ++ "-" ++ padded 2 month ++ "-" ++ padded 2 day ++ "T" ++
    padded 2 (seconds / 3600 % 24) ++ ":" ++ padded 2 (seconds / 60 % 60) ++ ":" ++
    padded 2 (seconds % 60) ++ "." ++ padded 3 (milliseconds % 1000) ++ "+00:00"

example : momentText 0 = "1970-01-01T00:00:00.000+00:00" := by decide +kernel
example : momentText 951782399999 = "2000-02-28T23:59:59.999+00:00" := by decide +kernel
example : momentText 951868800000 = "2000-03-01T00:00:00.000+00:00" := by decide +kernel

end FeltRelay.Journal
