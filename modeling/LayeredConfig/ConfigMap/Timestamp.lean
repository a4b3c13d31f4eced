/-
Points in time, in whole seconds. A time is read with its offset from universal time and written
without one, in universal time. Fractions of a second are read and dropped.
-/

namespace LayeredConfig

/-- Seconds since the start of 1970, in universal time. -/
structure Timestamp where
  seconds : Int
deriving DecidableEq, Repr, Inhabited

namespace Timestamp

/-! ## Days and dates -/

structure Date where
  year : Int
  month : Nat
  day : Nat
deriving DecidableEq, Repr, Inhabited

def isLeap (year : Int) : Bool := year % 4 = 0 && (year % 100 ≠ 0 || year % 400 = 0)

def daysInMonth (year : Int) (month : Nat) : Nat :=
  if month = 2 then (if isLeap year then 29 else 28)
  else if month ∈ [4, 6, 9, 11] then 30 else 31

/-- Days from the start of March of the year zero to the start of March of `year`. -/
def daysToMarch (year : Int) : Int := 365 * year + year / 4 - year / 100 + year / 400

/-- Days from the start of March to the start of a month, which is counted from March. -/
def daysFromMarch (month : Nat) : Nat := (153 * month + 2) / 5

/-- Days from the start of March of the year zero to the start of 1970. -/
def epoch : Int := 719468

/-- Days since the start of 1970. A year begins in March here, so its leap day is its last day. -/
def Date.days (d : Date) : Int :=
  let year := if d.month ≤ 2 then d.year - 1 else d.year
  let month := (d.month + 9) % 12
  daysToMarch year + daysFromMarch month + d.day - 1 - epoch

/-- The date of a day since the start of 1970. -/
def Date.ofDays (days : Int) : Date :=
  let n := days + epoch
  let era := n / 146097
  let dayOfEra := (n % 146097).toNat
  let yearOfEra := (dayOfEra - dayOfEra / 1460 + dayOfEra / 36524 - dayOfEra / 146096) / 365
  let dayOfYear := dayOfEra - (365 * yearOfEra + yearOfEra / 4 - yearOfEra / 100)
  let march := (5 * dayOfYear + 2) / 153
  let month := if march < 10 then march + 3 else march - 9
  let year := (yearOfEra : Int) + 400 * era
  ⟨if month ≤ 2 then year + 1 else year, month, dayOfYear - daysFromMarch march + 1⟩

/-! ## Reading -/

/-- A number of exactly `width` digits, and the text after it. -/
def number? (width : Nat) (s : List Char) : Option (Nat × List Char) :=
  let ds := s.take width
  if ds.length = width && ds.all Char.isDigit then
    some (ds.foldl (fun n c => 10 * n + (c.toNat - '0'.toNat)) 0, s.drop width)
  else none

/-- The text after a character that has to be there. -/
def expect? (p : Char → Bool) : List Char → Option (List Char)
  | c :: rest => if p c then some rest else none
  | [] => none

def date? (s : List Char) : Option (Date × List Char) := do
  let (year, s) ← number? 4 s
  let s ← expect? (· = '-') s
  let (month, s) ← number? 2 s
  let s ← expect? (· = '-') s
  let (day, s) ← number? 2 s
  guard (1 ≤ month ∧ month ≤ 12 ∧ 1 ≤ day ∧ day ≤ daysInMonth year month)
  return (⟨year, month, day⟩, s)

/-- Up to nine digits of a fraction, dropped. -/
def dropFraction? : List Char → Option (List Char)
  | c :: rest =>
    if c = '.' ∨ c = ',' then
      let ds := rest.takeWhile Char.isDigit
      if ds.length = 0 ∨ ds.length > 9 then none else some (rest.dropWhile Char.isDigit)
    else some (c :: rest)
  | [] => some []

/-- The seconds of a time of day. A leap second counts as the second before it. -/
def timeOfDay? (s : List Char) : Option (Nat × List Char) := do
  let (hour, s) ← number? 2 s
  let s ← expect? (· = ':') s
  let (minute, s) ← number? 2 s
  let s ← expect? (· = ':') s
  let (second, s) ← number? 2 s
  guard (hour ≤ 23 ∧ minute ≤ 59 ∧ second ≤ 60)
  return (3600 * hour + 60 * minute + min second 59, ← dropFraction? s)

/-- The seconds of an offset that takes up the rest of the text. -/
def offset? : List Char → Option Int
  | ['Z'] => some 0
  | ['z'] => some 0
  | c :: s => do
    guard (c = '+' ∨ c = '-')
    let (hours, s) ← number? 2 s
    let (minutes, s) ← match s with
      | [] => some (0, [])
      | ':' :: s => number? 2 s
      | s => number? 2 s
    guard (s = [] ∧ hours ≤ 25 ∧ minutes ≤ 59)
    let n : Int := 3600 * hours + 60 * minutes
    return if c = '-' then -n else n
  | [] => none

def parse? (text : String) : Option Timestamp := do
  let (date, s) ← date? text.toList
  let s ← expect? (fun c => c = 'T' || c = 't' || c = ' ') s
  let (time, s) ← timeOfDay? s
  return ⟨86400 * date.days + time - (← offset? s)⟩

/-! ## Writing -/

/-- A number with at least `width` digits. -/
def padded (width n : Nat) : String :=
  let ds := Nat.toDigits 10 n
  String.ofList (List.replicate (width - ds.length) '0' ++ ds)

def print (t : Timestamp) : String :=
  let d := Date.ofDays (t.seconds / 86400)
  let s := (t.seconds % 86400).toNat
  padded 4 d.year.toNat ++ "-" ++ padded 2 d.month ++ "-" ++ padded 2 d.day ++ "T" ++
    padded 2 (s / 3600) ++ ":" ++ padded 2 (s / 60 % 60) ++ ":" ++ padded 2 (s % 60) ++ "Z"

end Timestamp
end LayeredConfig
