import BorrowCheck.Listing.Scan
import BorrowCheck.Text.Blank
import BorrowCheck.Text.Quoted

/-!
# Faults of a listing

A listing is refused at the first token that no listing can have there, or, once it has been read
to its end, because two of its functions have one name. The message shows the line around an
impossible token with a caret under it.
-/

namespace BorrowCheck.Listing

/-- Why a listing is refused. -/
inductive Fault where
  /-- Nothing can go on as the text does at `pos`; `context` shows the text around. -/
  | unexpected (pos : Pos) (context : String)
  /-- The function that begins at `pos` has the name of an earlier one. -/
  | duplicate (pos : Pos) (name : String)
deriving DecidableEq

namespace Fault

/-- The position that a fault is reported at. -/
def pos : Fault → Pos
  | unexpected pos _ => pos
  | duplicate pos _ => pos

/-- The message of a fault, after its line and column. -/
def message (f : Fault) : String :=
  let head := toString f.pos.line ++ ":" ++ toString f.pos.column ++ ": "
  match f with
  | unexpected _ context => head ++ "unexpected input in operation listing: " ++ Text.quoted context
  | duplicate _ name => head ++ "duplicate function '" ++ name ++ "'"

end Fault

/-! ### The text around a position -/

/-- The width of a text whose tabs go to the next multiple of eight columns; a carriage return
begins a new count of columns. The count starts at `column`. -/
def expandedWidth (column : Nat) : List Char → Nat
  | [] => 0
  | c :: cs =>
    if c = '\t' then (8 - column % 8) + expandedWidth (column + (8 - column % 8)) cs
    else if c = '\r' || c = '\n' then 1 + expandedWidth 0 cs
    else 1 + expandedWidth (column + 1) cs

/-- How many characters are shown on each side of a position. -/
def contextRadius : Nat := 40

/-- The text around the position with `offset` characters before it: its line, as far as it lies
within the radius, and below it a caret under the position. -/
def context (text : String) (offset : Nat) : String :=
  let cs := text.toList
  let near := (cs.take offset).drop (offset - contextRadius)
  let before := (near.reverse.takeWhile (· ≠ '\n')).reverse
  let after := ((cs.drop offset).take contextRadius).takeWhile (· ≠ '\n')
  let caret := List.replicate (expandedWidth 0 before) ' ' ++ ['^', '\n']
  String.ofList (Text.trimBlanks (before ++ after ++ '\n' :: caret))

end BorrowCheck.Listing
