import Errata.Json.Value
import Errata.Decimal.Shortest

/-!
# Writing JSON

`Json.compact` writes a value without blanks, `Json.pretty` with one item or member a line and two
blanks per level. Doubles are written with the fewest digits that read back. An unfit value is
written as null, as is a double that is not finite.
-/
namespace Errata.Json

/-- The layout of doubles: positional from `10 ^ -5` up to below `10 ^ 16`, with a point always, and
otherwise one digit before the point and an exponent with its sign. -/
def layout (x : Decimal.Digits) : Text :=
  let digits := Text.ofNat x.digits
  let exponent := x.exponent + digits.length - 1
  if exponent < -5 ∨ 16 ≤ exponent then
    let mantissa := match digits with
      | d :: e :: r => d :: '.' :: e :: r
      | ds => ds
    mantissa ++ ['e', if exponent < 0 then '-' else '+'] ++ Text.ofNat exponent.natAbs
  else if exponent < 0 then
    ['0', '.'] ++ List.replicate (-exponent - 1).toNat '0' ++ digits
  else if 0 ≤ x.exponent then
    digits ++ List.replicate x.exponent.toNat '0' ++ ['.', '0']
  else
    let whole := (exponent + 1).toNat
    digits.take whole ++ ['.'] ++ digits.drop whole

def doubleText (x : Float) : Text :=
  let bits := x.toBits
  let sign : Text := if bits < 0x8000000000000000 then [] else ['-']
  if !x.isFinite then "null"
  else if bits &&& 0x7FFFFFFFFFFFFFFF = 0 then sign ++ ['0', '.', '0']
  else sign ++ layout (Decimal.shortest (Decimal.Binary.ofBits bits))

def Number.text : Number → Text
  | .natural n => Text.ofNat n
  | .negative n => '-' :: Text.ofNat n
  | .double x => doubleText x

def escapeChar (c : Char) : Text :=
  if c = '"' then ['\\', '"']
  else if c = '\\' then ['\\', '\\']
  else if c = '\x08' then ['\\', 'b']
  else if c = '\x0c' then ['\\', 'f']
  else if c = '\n' then ['\\', 'n']
  else if c = '\r' then ['\\', 'r']
  else if c = '\t' then ['\\', 't']
  else if c.toNat < 0x20 then
    ['\\', 'u', '0', '0', Nat.digitChar (c.toNat / 16), Nat.digitChar (c.toNat % 16)]
  else [c]

def stringText (t : Text) : Text := ['"'] ++ t.flatMap escapeChar ++ ['"']

mutual

def compact : Json → Text
  | .null | .unfit => "null"
  | .bool b => if b then "true" else "false"
  | .number n => n.text
  | .string t => stringText t
  | .array items => ['['] ++ compactItems items ++ [']']
  | .object ms => ['{'] ++ compactMembers ms ++ ['}']

def compactItems : List Json → Text
  | [] => []
  | [j] => compact j
  | j :: js => compact j ++ [','] ++ compactItems js

def compactMembers : List (Text × Json) → Text
  | [] => []
  | [(k, j)] => stringText k ++ [':'] ++ compact j
  | (k, j) :: ms => stringText k ++ [':'] ++ compact j ++ [','] ++ compactMembers ms

end

def newline (level : Nat) : Text := '\n' :: List.replicate (2 * level) ' '

mutual

/-- The value as it stands at a level of nesting. -/
def prettyAt (level : Nat) : Json → Text
  | .array [] => ['[', ']']
  | .object [] => ['{', '}']
  | .array (j :: js) =>
    ['['] ++ newline (level + 1) ++ prettyAt (level + 1) j ++ prettyItems (level + 1) js ++
      newline level ++ [']']
  | .object ((k, j) :: ms) =>
    ['{'] ++ newline (level + 1) ++ stringText k ++ [':', ' '] ++ prettyAt (level + 1) j ++
      prettyMembers (level + 1) ms ++ newline level ++ ['}']
  | .null | .unfit => "null"
  | .bool b => if b then "true" else "false"
  | .number n => n.text
  | .string t => stringText t

def prettyItems (level : Nat) : List Json → Text
  | [] => []
  | j :: js => [','] ++ newline level ++ prettyAt level j ++ prettyItems level js

def prettyMembers (level : Nat) : List (Text × Json) → Text
  | [] => []
  | (k, j) :: ms =>
    [','] ++ newline level ++ stringText k ++ [':', ' '] ++ prettyAt level j ++
      prettyMembers level ms

end

def pretty (j : Json) : Text := prettyAt 0 j

end Errata.Json
