/-!
# Block scopes

The variables in scope, block by block. There is always an innermost block: at the outside it is
the function itself, which also holds the parameters and cannot be left.
-/

namespace BorrowCheck

/-- A **stack of blocks**: the names declared in the innermost one, in order, and those of the
blocks around it, innermost first. -/
structure Scopes where
  current : List String := []
  outer : List (List String) := []
deriving DecidableEq

namespace Scopes

/-- Declares a name in the innermost block. -/
def declare (s : Scopes) (x : String) : Scopes :=
  { s with current := s.current ++ [x] }

/-- Opens a block. -/
def enter (s : Scopes) : Scopes :=
  { current := [], outer := s.current :: s.outer }

/-- Leaves the innermost block: the names whose storage ends, and the blocks around it. The
function itself cannot be left. -/
def exit? (s : Scopes) : Option (List String × Scopes) :=
  match s.outer with
  | [] => none
  | block :: outer => some (s.current, { current := block, outer })

/-- The blocks from the outside in. -/
def toList (s : Scopes) : List (List String) :=
  (s.current :: s.outer).reverse

end Scopes

end BorrowCheck
