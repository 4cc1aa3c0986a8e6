-- SUMMARY: Text between quotes, with escapes for what cannot be shown.
import Stencil.Text.Printable

/-! # Quoted text

A quoted text stands between single quotes, or between double quotes if it holds a single quote and
no double one. The quote in use and the backslash are escaped by a backslash, tab, line feed and
carriage return by their letters, and any other character that is not printable by its code point
in lower-case hexadecimal digits: two after `x`, four after `u` or eight after `U`, whichever is
the first to suffice.
-/

namespace Stencil.Text

private def hexDigit (n : Nat) : Char :=
  if n < 10 then Char.ofNat ('0'.toNat + n) else Char.ofNat ('a'.toNat + (n - 10))

/-- The last `width` hexadecimal digits of a number, leading zeros included. -/
def hexDigits : Nat → Nat → List Char
  | 0, _ => []
  | width + 1, n => hexDigits width (n / 16) ++ [hexDigit (n % 16)]

/-- A character as it stands between the given quotes. -/
def escapeChar (quote c : Char) : List Char :=
  if c = quote ∨ c = '\\' then ['\\', c]
  else if c = '\t' then ['\\', 't']
  else if c = '\n' then ['\\', 'n']
  else if c = '\r' then ['\\', 'r']
  else if isPrintable c then [c]
  else if c.toNat < 0x100 then '\\' :: 'x' :: hexDigits 2 c.toNat
  else if c.toNat < 0x10000 then '\\' :: 'u' :: hexDigits 4 c.toNat
  else '\\' :: 'U' :: hexDigits 8 c.toNat

/-- The quote that a text is put between. -/
def quoteFor (s : List Char) : Char :=
  if '\'' ∈ s ∧ '"' ∉ s then '"' else '\''

def quoted (s : List Char) : List Char :=
  let quote := quoteFor s
  quote :: s.flatMap (escapeChar quote) ++ [quote]

def quote (s : String) : String :=
  String.ofList (quoted s.toList)

example : quote "it's" = "\"it's\"" := by decide +kernel
example : quote "'\"" = "'\\'\"'" := by decide +kernel
example : quote "a\t\x1b" = "'a\\t\\x1b'" := by decide +kernel

end Stencil.Text
