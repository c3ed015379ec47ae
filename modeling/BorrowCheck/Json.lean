import BorrowCheck.Text.CodePoint

/-!
# JSON values

Settings come as JSON. A value keeps what a setting can show again: whole numbers apart from
others, texts by their code points, and the members of an object in the order in which their names
first occur.
-/

namespace BorrowCheck

open Text (CodePoint)

/-- A **scalar**: a JSON value without parts. -/
inductive Json.Scalar where
  | null
  | bool (value : Bool)
  | int (value : Int)
  | float (value : Float)
  | str (text : List CodePoint)

/-- A **JSON value**. -/
inductive Json where
  | scalar (value : Json.Scalar)
  | arr (elements : List Json)
  | obj (members : List (List CodePoint × Json))

namespace Json

/-- The member `name` of an object. -/
def get? (v : Json) (name : String) : Option Json :=
  match v with
  | obj members => members.lookup (Text.points name)
  | _ => none

/-- Adds a member to those of an object: a name that is there already keeps its position and takes
the new value. -/
def putMember (members : List (List CodePoint × Json)) (name : List CodePoint) (value : Json) :
    List (List CodePoint × Json) :=
  if members.any (·.1 = name) then members.map fun m => if m.1 = name then (name, value) else m
  else members ++ [(name, value)]

end Json

end BorrowCheck
