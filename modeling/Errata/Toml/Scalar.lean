import Errata.Decimal.Reading
import Errata.Instant
import Errata.Toml.Value

/-!
# TOML scalars

Booleans, numbers and times are written without quotes. A whole run of characters has to be one of
them: underscores stand only between digits, a decimal number has no leading zero, and a time has to
exist. A number that is too large is unfit.
-/
namespace Errata.Toml

/-- Takes out the underscores, each of which has to stand between two digits; at least one digit is
needed. -/
def digits? (isDigit : Char → Bool) (t : Text) : Option Text :=
  let groups := t.splitOn '_'
  if groups.all fun g => !g.isEmpty && g.all isDigit then some groups.flatten else none

/-- A decimal number without leading zero. -/
def decimal? (t : Text) : Option Text :=
  match digits? Char.isDigit t with
  | some ('0' :: _ :: _) => none
  | ds => ds

def sign (t : Text) : Bool × Text :=
  match t with
  | '-' :: r => (true, r)
  | '+' :: r => (false, r)
  | r => (false, r)

def valueIn (base : Nat) (ds : Text) : Nat :=
  ds.foldl (fun n c => base * n + (Text.hexDigit? c).getD 0) 0

def integer? (t : Text) : Option Int :=
  match t with
  | '0' :: 'x' :: r =>
    (digits? (fun c => (Text.hexDigit? c).isSome) r).map fun ds => Int.ofNat (valueIn 16 ds)
  | '0' :: 'o' :: r =>
    (digits? (fun c => '0' ≤ c && c ≤ '7') r).map fun ds => Int.ofNat (valueIn 8 ds)
  | '0' :: 'b' :: r =>
    (digits? (fun c => c == '0' || c == '1') r).map fun ds => Int.ofNat (valueIn 2 ds)
  | t =>
    let (negative, r) := sign t
    (decimal? r).map fun ds =>
      let n := Int.ofNat (valueIn 10 ds)
      if negative then -n else n

/-- An integer fits 128 bits, with a sign or without. -/
def fitsWord (n : Int) : Bool :=
  -0x80000000000000000000000000000000 ≤ n && n < 0x100000000000000000000000000000000

/-- An exponent: `e`, a sign and digits. -/
def exponent? (t : Text) : Option Int :=
  match t with
  | 'e' :: r | 'E' :: r =>
    let (negative, r) := sign r
    (digits? Char.isDigit r).map fun ds =>
      let n := Int.ofNat (valueIn 10 ds)
      if negative then -n else n
  | _ => none

/-- The digits of a number with a fraction or an exponent, and the power of ten that they count. -/
def fraction? (t : Text) : Option (Text × Int) := do
  let isMark (c : Char) : Bool := c == '.' || c == 'e' || c == 'E'
  let whole ← decimal? (t.takeWhile fun c => !isMark c)
  match t.dropWhile fun c => !isMark c with
  | '.' :: r =>
    let places ← digits? Char.isDigit (r.takeWhile fun c => !isMark c)
    let behind := r.dropWhile fun c => !isMark c
    let exponent ← if behind.isEmpty then some 0 else exponent? behind
    some (whole ++ places, exponent - Int.ofNat places.length)
  | behind => (exponent? behind).map fun exponent => (whole, exponent)

/-- A number with a fraction or an exponent, infinity, or no number. -/
def float? (t : Text) : Option Toml :=
  let r := (sign t).2
  if r = "inf" ∨ r = "nan" then some (.float t)
  else (fraction? r).map fun (ds, e) => if Decimal.isFinite ds e then .float t else .unfit

def two? (a b : Char) : Option Nat :=
  if a.isDigit ∧ b.isDigit then some (Text.digitsValue [a, b]) else none

/-- A calendar day, and what follows it. -/
def date? (t : Text) : Option Text :=
  match t with
  | y₁ :: y₂ :: y₃ :: y₄ :: '-' :: m₁ :: m₂ :: '-' :: d₁ :: d₂ :: r => do
    let year := 100 * (← two? y₁ y₂) + (← two? y₃ y₄)
    if Calendar.IsDate (Int.ofNat year) (← two? m₁ m₂) (← two? d₁ d₂) then some r else none
  | _ => none

/-- A time of day, whose seconds may be left out, and what follows it. -/
def clock? (t : Text) : Option Text :=
  match t with
  | h₁ :: h₂ :: ':' :: m₁ :: m₂ :: r => do
    let hour ← two? h₁ h₂
    let minute ← two? m₁ m₂
    match r with
    | ':' :: s₁ :: s₂ :: r =>
      let second ← two? s₁ s₂
      if Calendar.IsTime hour minute second 0 then
        match r with
        | '.' :: r => if r.head?.any Char.isDigit then some (r.dropWhile Char.isDigit) else none
        | r => some r
      else none
    | r => if Calendar.IsTime hour minute 0 0 then some r else none
  | _ => none

def isOffset (t : Text) : Bool :=
  match t with
  | [] | ['Z'] | ['z'] => true
  | [sign, h₁, h₂, ':', m₁, m₂] =>
    (sign == '+' || sign == '-') &&
      match two? h₁ h₂, two? m₁ m₂ with
      | some h, some m => h < 24 && m < 60
      | _, _ => false
  | _ => false

/-- A day, a time of day, or both with an offset or without. -/
def isTime (t : Text) : Bool :=
  match date? t with
  | some [] => true
  | some (c :: r) => (c == 'T' || c == 't' || c == ' ') && (clock? r).any isOffset
  | none => clock? t == some []

def scalar? (t : Text) : Option Toml :=
  if t = "true" then some (.boolean true)
  else if t = "false" then some (.boolean false)
  else match integer? t with
    | some n => some (if fitsWord n then .integer n else .unfit)
    | none => (float? t).or (if isTime t then some (.time t) else none)

end Errata.Toml
