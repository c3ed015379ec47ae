import BorrowCheck.Finding
import BorrowCheck.Loan
import BorrowCheck.Text.Quoted

/-!
# Violations

Why a check stops. A `BorrowCheck.Violation` is a cause: a rule of ownership or borrowing that an
operation breaks, with the places and the loan concerned, or a `BorrowCheck.Flaw` of the program
itself, for which its producer is to blame. What a `BorrowCheck.Finding` says about a cause, words
included, is derived from it here and nowhere else.
-/

namespace BorrowCheck

/-- A **flaw**: the producer of the program broke its contract. -/
inductive Flaw where
  /-- A point does not come after the point before it. -/
  | pointOrder (point last : Point)
  /-- An operation follows the return at `point`. -/
  | afterReturn (point : Point)
  /-- An operation of an unknown kind, or without a part that its kind needs. -/
  | incomplete (gap : Operation.Gap)
  /-- A declaration of something other than a variable. -/
  | notVariable (x : Place)
  /-- A declaration of a variable that is in scope already. -/
  | redeclared (x : Place)
  /-- An exit without a block to leave. -/
  | unmatchedExit
  /-- A variable that is not in scope. -/
  | undeclared (x : Place)
  /-- A first assignment to a place that is not waiting for one. -/
  | notUninit (x : Option Place)
  /-- A dereference of a place that holds no reference. -/
  | derefOfValue (x : Place)
  /-- A write through a place that holds no reference. -/
  | writeThroughValue (x : Place)
deriving DecidableEq

/-- A **violation**: what is wrong with an operation. -/
inductive Violation where
  /-- A use of `x` after `moved`, which it contains or is contained in, was moved out, where it was
  noted that this was at `point`. -/
  | movedOut (x : Place) (point : Option Point) (moved : Place)
  /-- A use of `x` before its variable has a value. -/
  | uninit (x : Place)
  /-- A write to a part of a variable that has no value. -/
  | partOfUninit (x : Place)
  /-- A use of `x` while it is lent exclusively. -/
  | lentOut (x : Place) (lien : Lien)
  /-- A use of the reference in `x` while `via` is reborrowed exclusively through it. -/
  | reborrowed (x via : Place) (lien : Lien)
  /-- A write to `x` while it is lent. -/
  | writeWhileLent (x : Place) (lien : Lien)
  /-- A write to `x` through `ref`, which holds a shared reference. -/
  | writeThroughShared (x ref : Place) (lien : Option Lien)
  /-- A move out of `x` while it is lent. -/
  | moveWhileLent (x : Place) (lien : Lien)
  /-- A move out of storage behind a reference. -/
  | moveThroughReference (x : Place)
  /-- A borrow of `x` that an existing loan excludes. -/
  | conflict (x : Place) (kind : BorrowKind) (lien : Lien)
  /-- A reference to the local storage `x` is handed to the caller. -/
  | returnsLocal (x : Place) (lien : Lien)
  /-- The storage of `x` ends while it is still lent. -/
  | outlived (x : Place) (lien : Lien)
  | flaw (f : Flaw)
deriving DecidableEq

/-- Why a check stops: a violation, or a borrow that the survey of the function does not know. -/
inductive Fault where
  | violation (v : Violation)
  | unrecorded (borrower source : Option Place)
deriving DecidableEq

/-- Stops a check if there is something wrong. -/
def refuse : Option Violation → Except Fault Unit
  | none => .ok ()
  | some v => .error (.violation v)

@[simp] theorem refuse_eq_ok_iff {v : Option Violation} : refuse v = .ok () ↔ v = none := by
  cases v <;> simp [refuse]

/-- Stops a check because of a flaw. -/
def refuseFlaw {α : Type} (f : Flaw) : Except Fault α :=
  .error (.violation (.flaw f))

/-! ### What a finding says -/

namespace Operation.Gap

/-- The words for a gap. -/
def detail : Operation.Gap → String
  | unknownKind tag => "unknown operation kind " ++ Text.quoted tag
  | noTarget kind => "'" ++ kind.text ++ "' requires a target place"
  | noSource kind => "'" ++ kind.text ++ "' requires a source place"

end Operation.Gap

namespace Flaw

/-- The place that a flaw is about. -/
def place : Flaw → Option Place
  | notVariable x => x
  | redeclared x => x
  | undeclared x => x
  | notUninit x => x
  | derefOfValue x => x
  | writeThroughValue x => x
  | _ => none

/-- The words for a flaw. -/
def detail : Flaw → String
  | pointOrder point last =>
    "program point " ++ toString point ++ " does not follow " ++ toString last
  | afterReturn point => "operation after return at point " ++ toString point
  | incomplete gap => gap.detail
  | notVariable _ => "only variables can be declared"
  | redeclared x => "'" ++ x.base ++ "' is already declared in an enclosing scope"
  | unmatchedExit => "scope exit without a matching scope entry"
  | undeclared x => "'" ++ x.base ++ "' is used before it is declared"
  | notUninit _ => "initialize of a place that is not uninitialized"
  | derefOfValue x => "'" ++ x.text ++ "' is dereferenced but holds no reference"
  | writeThroughValue x => "'" ++ x.text ++ "' is written through but holds no reference"

end Flaw

namespace Violation

/-- The rule that is broken. -/
def rule : Violation → Rule
  | movedOut .. => .useOfMoved
  | uninit _ => .useOfUninit
  | partOfUninit _ => .useOfUninit
  | lentOut .. => .useWhileExclusive
  | reborrowed .. => .useWhileExclusive
  | writeWhileLent .. => .mutateWhileBorrowed
  | writeThroughShared .. => .mutateWhileBorrowed
  | moveWhileLent .. => .moveWhileBorrowed
  | moveThroughReference _ => .moveWhileBorrowed
  | conflict .. => .conflictingBorrow
  | returnsLocal .. => .danglingReference
  | outlived .. => .danglingReference
  | flaw _ => .malformedProgram

/-- The place that the violation is about. -/
def place : Violation → Option Place
  | movedOut x _ _ => x
  | uninit x => x
  | partOfUninit x => x
  | lentOut x _ => x
  | reborrowed x _ _ => x
  | writeWhileLent x _ => x
  | writeThroughShared x _ _ => x
  | moveWhileLent x _ => x
  | moveThroughReference x => x
  | conflict x _ _ => x
  | returnsLocal x _ => x
  | outlived x _ => x
  | flaw f => f.place

/-- The loan in the way. -/
def lien : Violation → Option Lien
  | lentOut _ l => l
  | reborrowed _ _ l => l
  | writeWhileLent _ l => l
  | writeThroughShared _ _ l => l
  | moveWhileLent _ l => l
  | conflict _ _ l => l
  | returnsLocal _ l => l
  | outlived _ l => l
  | _ => none

/-- The point of the move that took the value. -/
def movePoint : Violation → Option Point
  | movedOut _ p _ => p
  | _ => none

/-- The place that was moved out. -/
def movedPlace : Violation → Option Place
  | movedOut _ _ y => y
  | _ => none

/-- Further words, in the function with the given name. -/
def detail (function : String) : Violation → Option String
  | partOfUninit _ => "assignment into part of an uninitialized place"
  | reborrowed x via _ =>
    "'" ++ x.text ++ "' is used while '" ++ via.text ++ "' is exclusively reborrowed"
  | writeThroughShared _ ref _ => "'" ++ ref.text ++ "' is a shared reference"
  | moveThroughReference _ => "cannot move out of storage reached through a reference"
  | conflict x kind l =>
    "cannot take " ++ kind.text ++ " borrow of '" ++ x.text ++ "' while a " ++ l.kind.text ++
      " borrow is live"
  | returnsLocal x _ =>
    "returns a reference to '" ++ x.text ++ "', which is local to '" ++ function ++ "'"
  | outlived x _ => "'" ++ x.base ++ "' goes out of scope while still borrowed"
  | flaw f => f.detail
  | _ => none

/-- The finding that reports a violation at `p` in the function with the given name. -/
def finding (v : Violation) (function : String) (p : Point) : Finding :=
  { function, rule := v.rule, point := p, place := v.place
    loanPoint := v.lien.map (·.origin)
    loanKind := v.lien.map (·.kind.text)
    loanBorrower := v.lien.bind (·.borrower)
    movePoint := v.movePoint
    movedPlace := v.movedPlace
    detail := v.detail function }

end Violation

end BorrowCheck
