import BorrowCheck.Operation

/-!
# Functions and programs
-/

namespace BorrowCheck

/-- A parameter of a function. -/
structure Param where
  name : String
  ty : Ty
deriving DecidableEq

/-- A **function**: parameters and a body of operations in the order in which they run. -/
structure Function where
  name : String
  params : List Param := []
  ops : List Operation := []
deriving DecidableEq

/-- The point at which the parameters come into existence: just before the first operation, and 0
without one. -/
def Function.entry (f : Function) : Point :=
  match f.ops with
  | [] => 0
  | op :: _ => op.point - 1

/-- A **program**: functions in the order in which they were written. -/
structure Program where
  functions : List Function := []
deriving DecidableEq

/-- The names of the functions, each where it occurs first. -/
def Program.names (p : Program) : List String :=
  (p.functions.map Function.name).eraseDups

end BorrowCheck
