/-!
# Rows of digits

Whole numbers are read from rows of decimal digits and written as such. Either way a row has at
most `BorrowCheck.Text.maxDigits` digits: a longer one is not read, leading zeros included, and a
number that needs a longer one (`BorrowCheck.Text.fits`) is not written.
-/

namespace BorrowCheck.Text

/-- The greatest number of digits in a row. -/
def maxDigits : Nat :=
  4300

/-- The number that a row of decimal digits writes. -/
def valueOf (digits : List Char) : Nat :=
  Nat.ofDigitChars 10 digits 0

/-- Whether a number can be written. -/
def fits (n : Int) : Bool :=
  n.natAbs < Nat.pow 10 maxDigits

/-- The words for a row that is too long; `digits` is its length when it was to be read. -/
def tooManyDigits (digits : Option Nat) : String :=
  let limit := "Exceeds the limit (" ++ toString maxDigits ++
    " digits) for integer string conversion"
  let length :=
    match digits with
    | none => ""
    | some n => ": value has " ++ toString n ++ " digits"
  limit ++ length ++ "; use sys.set_int_max_str_digits() to increase the limit"

end BorrowCheck.Text
