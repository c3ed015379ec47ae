import BorrowCheck.Decimal.Written
import BorrowCheck.Json
import BorrowCheck.Text.Quoted

/-!
# How messages show values

A message that refuses a value shows it: the two truth values and the missing value by name,
numbers by their digits, texts quoted, and lists and objects with their parts separated by commas.
-/

namespace BorrowCheck.Json

/-- A scalar as messages show it. -/
def Scalar.shown : Scalar → String
  | null => "None"
  | bool true => "True"
  | bool false => "False"
  | int n => toString n
  | float x => Decimal.text x
  | str text => Text.quotedPoints text

mutual

/-- A value as messages show it. -/
def shown : Json → String
  | scalar s => s.shown
  | arr vs => "[" ++ ", ".intercalate (shownList vs) ++ "]"
  | obj ms => "\x7b" ++ ", ".intercalate (shownMembers ms) ++ "\x7d"

/-- The elements of a list as messages show them. -/
def shownList : List Json → List String
  | [] => []
  | v :: vs => shown v :: shownList vs

/-- The members of an object as messages show them. -/
def shownMembers : List (List Text.CodePoint × Json) → List String
  | [] => []
  | (name, v) :: ms => (Text.quotedPoints name ++ ": " ++ shown v) :: shownMembers ms

end

end BorrowCheck.Json
