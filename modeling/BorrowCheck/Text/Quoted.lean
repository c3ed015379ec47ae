import BorrowCheck.Text.CodePoint
import BorrowCheck.Text.Printable

/-!
# Quoted texts

How a text is shown inside a message. It stands between single quotes, or between double quotes
when it has a single quote and no double quote. The quote in use and the backslash are written
after a backslash, line ends and tabs by their letter, and every other character that cannot be
shown by its number in hexadecimal: two, four or eight digits after `\x`, `\u` or `\U`, whichever
is the first to fit. Half of a surrogate pair cannot be shown.
-/

namespace BorrowCheck.Text

/-- The hexadecimal digits of `n`, with zeros in front up to `width` digits. -/
def hexDigits (width n : Nat) : List Char :=
  let digits := Nat.toDigits 16 n
  List.replicate (width - digits.length) '0' ++ digits

/-- A code point by its number `n`. -/
def numbered (n : Nat) : List Char :=
  if n < 0x100 then '\\' :: 'x' :: hexDigits 2 n
  else if n < 0x10000 then '\\' :: 'u' :: hexDigits 4 n
  else '\\' :: 'U' :: hexDigits 8 n

/-- One character of a text that stands between two `quote` characters. -/
def quotedChar (quote c : Char) : List Char :=
  if c = quote || c = '\\' then ['\\', c]
  else if c = '\n' then ['\\', 'n']
  else if c = '\r' then ['\\', 'r']
  else if c = '\t' then ['\\', 't']
  else if isPrintable c then [c]
  else numbered c.toNat

/-- One code point of a text that stands between two `quote` characters. -/
def quotedPoint (quote : Char) : CodePoint → List Char
  | .char c => quotedChar quote c
  | .half i => numbered (CodePoint.half i).number

/-- The quote that a text is put between. -/
def quoteFor (ps : List CodePoint) : Char :=
  if ps.contains (.char '\'') && !ps.contains (.char '"') then '"' else '\''

/-- A list of code points as messages show it. -/
def quotedPoints (ps : List CodePoint) : String :=
  let q := quoteFor ps
  String.ofList (q :: ps.flatMap (quotedPoint q) ++ [q])

/-- A text as messages show it. -/
def quoted (s : String) : String :=
  quotedPoints (points s)

end BorrowCheck.Text
