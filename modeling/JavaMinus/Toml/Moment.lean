import JavaMinus.Toml.Reader

/-!
# Dates and times

A moment is a date, a time of day, or a date with a time and perhaps an offset from universal time.
-/

namespace JavaMinus.Toml

structure Date where
  year : Nat
  month : Nat
  day : Nat
deriving DecidableEq

/-- A time of day. A minute may have a second more than sixty. -/
structure Time where
  hour : Nat
  minute : Nat
  second : Nat
  /-- The digits of a fraction of a second. -/
  fraction : List Char := []
deriving DecidableEq

inductive Moment where
  | date (date : Date)
  | time (time : Time)
  /-- The offset is in minutes. -/
  | both (date : Date) (time : Time) (offset : Option Int)
deriving DecidableEq

namespace Moment

def isLeap (year : Nat) : Bool :=
  year % 4 == 0 && (year % 100 != 0 || year % 400 == 0)

def daysIn (year month : Nat) : Nat :=
  match month with
  | 2 => if isLeap year then 29 else 28
  | 4 | 6 | 9 | 11 => 30
  | _ => 31

/-! ### Reading -/

/-- Two digits with a value in a range. -/
def twoDigits (low high : Nat) : Reader Nat := do
  let n ← fixedNumber 10 2
  guard (low ≤ n ∧ n ≤ high)
  return n

def readDate : Reader Date := do
  let year ← fixedNumber 10 4
  expect '-'
  let month ← twoDigits 1 12
  expect '-'
  let day ← twoDigits 1 (daysIn year month)
  return { year := year, month := month, day := day }

def readTime : Reader Time := do
  let hour ← twoDigits 0 23
  expect ':'
  let minute ← twoDigits 0 59
  expect ':'
  let second ← twoDigits 0 60
  let fraction ←
    if (← get).head? == some '.' then do
      expect '.'
      let run ← takeRun Char.isDigit
      guard (!run.isEmpty)
      pure run
    else pure []
  return { hour := hour, minute := minute, second := second, fraction := fraction }

/-- Hours and minutes after a sign. -/
def readShift : Reader Int := do
  let hours ← twoDigits 0 23
  expect ':'
  let minutes ← twoDigits 0 59
  return hours * 60 + minutes

def readOffset : Reader (Option Int) := do
  match (← get).head? with
  | some 'Z' | some 'z' =>
    let _ ← next
    return some 0
  | some '+' =>
    expect '+'
    return some (← readShift)
  | some '-' =>
    expect '-'
    return some (-(← readShift))
  | _ => return none

/-- A time behind a date: a letter or a blank divides the two. -/
def readTimeAfter (date : Date) : Reader Moment := do
  let mark ← next
  guard (mark == 'T' || mark == 't' || mark == ' ')
  let time ← readTime
  return .both date time (← readOffset)

/-- A moment. What follows a date and is no time is left alone. -/
def read : Reader Moment :=
  (do
    let date ← readDate
    readTimeAfter date <|> pure (.date date)) <|>
  (return .time (← readTime))

end Moment

end JavaMinus.Toml
