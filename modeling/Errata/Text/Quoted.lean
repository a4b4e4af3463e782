import Errata.Text.Printable

/-!
# Quoted texts

The form in which a name is shown in a message: between double quotes, with escapes for the quote,
the backslash and everything that has no glyph of its own.
-/
namespace Errata.Text

def quoteChar (c : Char) : Text :=
  if c = '"' then ['\\', '"']
  else if c = '\\' then ['\\', '\\']
  else if c = '\t' then ['\\', 't']
  else if c = '\n' then ['\\', 'n']
  else if c = '\r' then ['\\', 'r']
  else if c.toNat = 0 then ['\\', '0']
  else if isPrintable c then [c]
  else ['\\', 'u', '{'] ++ Nat.toDigits 16 c.toNat ++ ['}']

def quote (t : Text) : Text := ['"'] ++ t.flatMap quoteChar ++ ['"']

end Errata.Text
