/-!
# Code points

An escape in a JSON text can name half of a surrogate pair without the other half. Such a half is
no character, but the text that has it is accepted and can be shown again. So a text from JSON is a
list of **code points**, most of which are characters; `BorrowCheck.Text.points` and
`BorrowCheck.Text.string?` go from strings to such lists and back.
-/

namespace BorrowCheck.Text

/-- A **code point**: a character, or half of a surrogate pair that stands alone, counted from the
first half there is. -/
inductive CodePoint where
  | char (c : Char)
  | half (index : Fin 0x800)
deriving DecidableEq

namespace CodePoint

/-- The number of a code point. -/
def number : CodePoint → Nat
  | char c => c.toNat
  | half i => 0xd800 + i

/-- The code point that four hexadecimal digits name. -/
def ofUnit (n : Nat) : CodePoint :=
  if h : 0xd800 ≤ n ∧ n < 0xe000 then half ⟨n - 0xd800, by omega⟩ else char (Char.ofNat n)

/-- The character, unless it is half of one. -/
def char? : CodePoint → Option Char
  | char c => some c
  | half _ => none

/-- The character that stands for a code point where only characters are possible. -/
def shownChar : CodePoint → Char
  | char c => c
  | half _ => Char.ofNat 0xfffd

end CodePoint

/-- The code points of a string. -/
def points (s : String) : List CodePoint :=
  s.toList.map .char

/-- The string with the given code points, if all are characters. -/
def string? (ps : List CodePoint) : Option String :=
  (ps.mapM CodePoint.char?).map String.ofList

/-- The string with the given code points, in which the replacement character stands for each
half. -/
def display (ps : List CodePoint) : String :=
  String.ofList (ps.map CodePoint.shownChar)

/-- Whether `ps` comes before `qs` or is equal to it, code points being compared by number. -/
def atMost : (ps qs : List CodePoint) → Bool
  | [], _ => true
  | _ :: _, [] => false
  | p :: ps, q :: qs => p.number < q.number || (p.number = q.number && atMost ps qs)

end BorrowCheck.Text
