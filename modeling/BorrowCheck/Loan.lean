import BorrowCheck.Place
import BorrowCheck.Ty

/-!
# Loans

When a reference to a place is taken, the place is lent: to the **borrower**, the place that the
reference is stored in, or for the length of a call. Three types say more and more about it:

* a `BorrowCheck.Lien` is what a finding tells about a loan: borrower, kind and point of origin;
* a `BorrowCheck.Borrow` is a loan as it is taken, with what is lent and the loan it was taken
  through;
* a `BorrowCheck.Loan` has, besides, a number and the last point at which it is needed.

The loans of one function are its `BorrowCheck.LoanBook`. A loan that was taken through another
one is a **reborrow** of it; following the parents of a loan gives its lineage
(`BorrowCheck.LoanBook.lineage`).
-/

namespace BorrowCheck

/-- Who borrowed, how, and since when. -/
structure Lien where
  /-- The place that the reference is stored in; none for an argument of a call. -/
  borrower : Option Place
  kind : BorrowKind
  origin : Point
deriving DecidableEq

/-- A **loan as it is taken**. -/
structure Borrow extends Lien where
  /-- The place that is lent, with the references that were followed to it resolved. -/
  target : Place
  /-- The place as it was written behind the reference mark. -/
  via : Place
  /-- The number of the loan that this one was taken through. -/
  parent : Option Nat := none
  /-- Whether the loan is for the length of a call. -/
  temporary : Bool := false
deriving DecidableEq

/-- A **loan** with its number and the last point at which it is needed. -/
structure Loan extends Borrow where
  id : Nat
  last : Point
deriving DecidableEq

namespace Loan

/-- Whether the loan excludes all others. -/
def isExclusive (l : Loan) : Bool :=
  l.kind.isExclusive

/-- Whether the loan is live at point `p`. -/
def covers (l : Loan) (p : Point) : Bool :=
  l.origin ≤ p && p ≤ l.last

end Loan

/-- The **loans of a function**, in the order of their numbers. -/
structure LoanBook where
  loans : List Loan := []

namespace LoanBook

/-- The loan with number `id`. -/
def get? (b : LoanBook) (id : Nat) : Option Loan :=
  b.loans[id]?

/-- The loans that are taken at point `p`. -/
def takenAt (b : LoanBook) (p : Point) : List Loan :=
  b.loans.filter fun l => l.origin = p

/-- The points at which loans are taken, in increasing order. -/
def origins (b : LoanBook) : List Point :=
  (b.loans.map (·.origin)).eraseDups.mergeSort fun p q => decide (p ≤ q)

/-- The numbers of the loans that loan `id` was taken through, the nearest first. A loan is only
ever taken through an older one. -/
def lineageFrom (b : LoanBook) (id : Nat) : List Nat :=
  match (b.get? id).bind (·.parent) with
  | none => []
  | some p => if p < id then p :: b.lineageFrom p else []
termination_by id

/-- The numbers of the loans that `l` was taken through. -/
def lineage (b : LoanBook) (l : Loan) : List Nat :=
  b.lineageFrom l.id

end LoanBook

end BorrowCheck
