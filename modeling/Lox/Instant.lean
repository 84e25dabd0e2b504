import Lox.Bytes

namespace Lox

structure Instant where
  seconds : Int
  nanos : Nat := 0
deriving DecidableEq

namespace Instant

def zero : Instant := ⟨-62135596800, 0⟩

/-- The instant with nanoseconds that may be more than a second, or negative. The seconds are those
of a word of 64 bits. -/
def ofNanos (seconds nanos : Int) : Instant :=
  ⟨Int.bmod (seconds + nanos.fdiv 1000000000) 0x10000000000000000, (nanos.fmod 1000000000).toNat⟩

def daysIn (year month : Nat) : Nat :=
  match month with
  | 2 => if year % 4 = 0 && (year % 100 != 0 || year % 400 = 0) then 29 else 28
  | 4 | 6 | 9 | 11 => 30
  | _ => 31

def isDate (year month day : Nat) : Bool :=
  1 ≤ month && month ≤ 12 && 1 ≤ day && day ≤ daysIn year month

/-- Year, month and day of a number of days since 1970. A year starts in March here, so that the
day that is sometimes missing is its last one. -/
def date (days : Int) : Int × Nat × Nat :=
  let shifted := days + 719468
  let era := shifted.fdiv 146097
  let dayOfEra := (shifted.fmod 146097).toNat
  let yearOfEra := (dayOfEra - dayOfEra / 1460 + dayOfEra / 36524 - dayOfEra / 146096) / 365
  let dayOfYear := dayOfEra - (365 * yearOfEra + yearOfEra / 4 - yearOfEra / 100)
  let index := (5 * dayOfYear + 2) / 153
  let day := dayOfYear - (153 * index + 2) / 5 + 1
  let month := if index < 10 then index + 3 else index - 9
  let year := era * 400 + (yearOfEra : Nat)
  (if month ≤ 2 then year + 1 else year, month, day)

def daysTo (year month day : Nat) : Int :=
  let year : Int := if month ≤ 2 then year - 1 else year
  let yearOfEra := (year.fmod 400).toNat
  let dayOfYear := (153 * ((month + 9) % 12) + 2) / 5 + day - 1
  let dayOfEra := 365 * yearOfEra + yearOfEra / 4 - yearOfEra / 100 + dayOfYear
  year.fdiv 400 * 146097 + (dayOfEra : Nat) - 719468

/-- The first second that has a date of its own; an earlier one is dated `2 ^ 64` seconds later. -/
def firstDated : Int := -9223372028741760000

def dated (t : Instant) : Int :=
  if t.seconds < firstDated then t.seconds + 0x10000000000000000 else t.seconds

def year (t : Instant) : Int :=
  (date (t.dated.fdiv 86400)).1

def digits (width n : Nat) : Bytes :=
  Bytes.padLeft width 48 (Bytes.ofNat n)

def text (t : Instant) : Bytes :=
  let (year, month, day) := date (t.dated.fdiv 86400)
  let second := (t.dated.fmod 86400).toNat
  (if year < 0 then ("-" : Bytes) else []) ++ digits 4 year.natAbs
    ++ ("-" : Bytes) ++ digits 2 month ++ ("-" : Bytes) ++ digits 2 day
    ++ ("T" : Bytes) ++ digits 2 (second / 3600) ++ (":" : Bytes) ++ digits 2 (second / 60 % 60)
    ++ (":" : Bytes) ++ digits 2 (second % 60) ++ ("." : Bytes) ++ digits 9 t.nanos
    ++ ("Z" : Bytes)

def isReadable (t : Instant) : Bool :=
  0 ≤ t.year && t.year ≤ 9999

def number? (width : Nat) (b : Bytes) : Option (Nat × Bytes) :=
  let digits := b.take width
  if digits.length = width && digits.all isDigit then
    some (digits.foldl (fun n c => n * 10 + (c.toNat - 48)) 0, b.drop width)
  else none

def after? (c : UInt8) : Bytes → Option Bytes
  | d :: r => if c = d then some r else none
  | [] => none

def fraction (b : Bytes) : Nat × Bytes :=
  match b with
  | c :: d :: r =>
    if (c = 44 || c = 46) && isDigit d then
      let digits := (d :: r).takeWhile isDigit
      let nanos := digits ++ List.replicate (9 - digits.length) 48
      (((number? 9 nanos).getD (0, [])).1, (d :: r).dropWhile isDigit)
    else (0, b)
  | _ => (0, b)

def offset? (b : Bytes) : Option Int :=
  match b with
  | [90] => some 0
  | c :: r => do
    let (hours, r) ← number? 2 r
    let (minutes, r) ← number? 2 (← after? 58 r)
    if !r.isEmpty || 24 < hours || 60 < minutes then none
    let seconds : Int := (hours * 60 + minutes : Nat) * 60
    if c = 43 then some seconds else if c = 45 then some (-seconds) else none
  | [] => none

def parse? (b : Bytes) : Option Instant := do
  let (year, b) ← number? 4 b
  let (month, b) ← number? 2 (← after? 45 b)
  let (day, b) ← number? 2 (← after? 45 b)
  let b ← after? 84 b
  let (hour, b) ← number? 2 b <|> number? 1 b
  let (minute, b) ← number? 2 (← after? 58 b)
  let (second, b) ← number? 2 (← after? 58 b)
  let (nanos, b) := fraction b
  let offset ← offset? b
  if !isDate year month day || 23 < hour || 59 < minute || 59 < second then none
  let secondOfDay := hour * 3600 + minute * 60 + second
  return ⟨daysTo year month day * 86400 + secondOfDay - offset, nanos⟩

end Instant

end Lox
