import Errata.Text.Basic

/-!
# Instants

A point in time in UTC to the nanosecond, as the calendar writes it. A minute may have a leap
second. Instants are written like `2024-01-02T03:04:05Z`, with three, six or nine digits of a
fraction that is not zero, and read in a somewhat freer form: any offset, a blank for the `T`, and
blanks around the fields.
-/
namespace Errata

namespace Calendar

def isLeap (year : Int) : Bool := year % 4 = 0 && (year % 100 != 0 || year % 400 = 0)

def daysIn (year : Int) (month : Nat) : Nat :=
  if month = 2 then if isLeap year then 29 else 28
  else if month = 4 ∨ month = 6 ∨ month = 9 ∨ month = 11 then 30
  else 31

/-- A day of the proleptic calendar, within the years that can be told apart. -/
def IsDate (year : Int) (month day : Nat) : Prop :=
  -262143 ≤ year ∧ year ≤ 262142 ∧ 1 ≤ month ∧ month ≤ 12 ∧ 1 ≤ day ∧ day ≤ daysIn year month

instance (year : Int) (month day : Nat) : Decidable (IsDate year month day) :=
  inferInstanceAs (Decidable (_ ∧ _))

def IsTime (hour minute second nano : Nat) : Prop :=
  hour < 24 ∧ minute < 60 ∧ second ≤ 60 ∧ nano < 1000000000

instance (hour minute second nano : Nat) : Decidable (IsTime hour minute second nano) :=
  inferInstanceAs (Decidable (_ ∧ _))

def dayBefore (date : Int × Nat × Nat) : Int × Nat × Nat :=
  match date with
  | (year, month, day) =>
    if 1 < day then (year, month, day - 1)
    else if 1 < month then (year, month - 1, daysIn year (month - 1))
    else (year - 1, 12, 31)

def dayAfter (date : Int × Nat × Nat) : Int × Nat × Nat :=
  match date with
  | (year, month, day) =>
    if day < daysIn year month then (year, month, day + 1)
    else if month < 12 then (year, month + 1, 1)
    else (year + 1, 1, 1)

def dateOfDay (days : Nat) : Int × Nat × Nat := Nat.repeat dayAfter days (1970, 1, 1)

end Calendar

open Calendar in
structure Instant where
  year : Int
  month : Nat
  day : Nat
  hour : Nat
  minute : Nat
  second : Nat
  nano : Nat
  isDate : IsDate year month day
  isTime : IsTime hour minute second nano
  deriving DecidableEq

namespace Instant

open Calendar

/-- The instant at which clocks `offset` minutes ahead of UTC show this date and time. -/
def ofLocal? (year : Int) (month day hour minute second nano : Nat) (offset : Int) :
    Option Instant :=
  if IsDate year month day then
    let minutes := Int.ofNat (60 * hour + minute) - offset
    let (date, minutes) :=
      if minutes < 0 then (dayBefore (year, month, day), minutes + 1440)
      else if 1440 ≤ minutes then (dayAfter (year, month, day), minutes - 1440)
      else ((year, month, day), minutes)
    let hour := minutes.toNat / 60
    let minute := minutes.toNat % 60
    if h : IsDate date.1 date.2.1 date.2.2 ∧ IsTime hour minute second nano then
      some ⟨date.1, date.2.1, date.2.2, hour, minute, second, nano, h.1, h.2⟩
    else none
  else none

/-- The instant so many nanoseconds after the start of 1970. -/
def ofNanoseconds? (nanos : Nat) : Option Instant :=
  let seconds := nanos / 1000000000
  let (year, month, day) := dateOfDay (seconds / 86400)
  ofLocal? year month day (seconds / 3600 % 24) (seconds / 60 % 60) (seconds % 60)
    (nanos % 1000000000) 0

/-- Four digits, or a sign and at least four digits outside the years 0 to 9999. -/
def yearText (year : Int) : Text :=
  if 0 ≤ year ∧ year ≤ 9999 then Text.padded 4 year.toNat
  else (if year < 0 then '-' else '+') :: Text.padded 4 year.natAbs

/-- As few of three, six or nine digits as hold the fraction, none for zero. -/
def fractionText (nano : Nat) : Text :=
  if nano = 0 then []
  else if nano % 1000000 = 0 then '.' :: Text.padded 3 (nano / 1000000)
  else if nano % 1000 = 0 then '.' :: Text.padded 6 (nano / 1000)
  else '.' :: Text.padded 9 nano

def text (t : Instant) : Text :=
  yearText t.year ++ ['-'] ++ Text.padded 2 t.month ++ ['-'] ++ Text.padded 2 t.day ++ ['T'] ++
    Text.padded 2 t.hour ++ [':'] ++ Text.padded 2 t.minute ++ [':'] ++ Text.padded 2 t.second ++
    fractionText t.nano ++ ['Z']

/-- A number of at least one and at most `width` digits at the start of a text. -/
def number? (width : Nat) (s : Text) : Option (Nat × Text) :=
  match (s.take width).takeWhile Char.isDigit with
  | [] => none
  | ds => some (Text.digitsValue ds, s.drop ds.length)

/-- A field of two digits at most, after blanks. -/
def field? (s : Text) : Option (Nat × Text) := number? 2 (Text.trimStart s)

/-- What follows `c`, blanks before it aside. -/
def after? (c : Char) (s : Text) : Option Text :=
  match Text.trimStart s with
  | d :: r => if d = c then some r else none
  | [] => none

/-- A year: up to four digits, or a sign and any number of them. -/
def year? (s : Text) : Option (Int × Text) :=
  match Text.trimStart s with
  | '-' :: r => (number? r.length r).map fun (n, r) => (-Int.ofNat n, r)
  | '+' :: r => (number? r.length r).map fun (n, r) => (Int.ofNat n, r)
  | r => (number? 4 r).map fun (n, r) => (Int.ofNat n, r)

/-- The nanoseconds of a fraction; digits beyond the ninth do not count. -/
def fraction? : Text → Option (Nat × Text)
  | '.' :: r =>
    match r.takeWhile Char.isDigit with
    | [] => none
    | ds => some (Text.digitsValue ((ds ++ List.replicate 9 '0').take 9), r.drop ds.length)
  | r => some (0, r)

/-- An offset from UTC in minutes: `Z`, `UTC`, or a sign, hours and minutes. -/
def offset? (s : Text) : Option (Int × Text) :=
  match s with
  | 'Z' :: r | 'z' :: r => some (0, r)
  | sign :: h₁ :: h₂ :: r =>
    if Text.lower [sign, h₁, h₂] = "utc" then some (0, r)
    else if (sign = '+' ∨ sign = '-' ∨ sign = '\u2212') ∧ h₁.isDigit ∧ h₂.isDigit then
      match r.dropWhile fun c => c == ':' || Text.isBlank c with
      | m₁ :: m₂ :: r =>
        if m₁.isDigit ∧ m₁ < '6' ∧ m₂.isDigit then
          let minutes := 60 * Text.digitsValue [h₁, h₂] + Text.digitsValue [m₁, m₂]
          if minutes < 1440 then
            some (if sign = '+' then Int.ofNat minutes else -Int.ofNat minutes, r)
          else none
        else none
      | _ => none
    else none
  | _ => none

def separator? : Text → Option Text
  | 'T' :: r | 't' :: r | ' ' :: r => some r
  | _ => none

def read? (s : Text) : Option Instant := do
  let (year, s) ← year? s
  let (month, s) ← field? (← after? '-' s)
  let (day, s) ← field? (← after? '-' s)
  let (hour, s) ← field? (← separator? s)
  let (minute, s) ← field? (← after? ':' s)
  let (second, s) ← field? (← after? ':' s)
  let (nano, s) ← fraction? s
  let (offset, s) ← offset? (Text.trimStart s)
  if hour < 24 ∧ minute < 60 ∧ second ≤ 60 ∧ Text.blank s then
    ofLocal? year month day hour minute second nano offset
  else none

end Instant

end Errata
