import BorrowCheck.Ledger
import BorrowCheck.Store

/-!
# Store and ledger together

The cells of a store name the loans of their places, so what opens or closes a loan in the ledger
has to be noted in the store. `BorrowCheck.Books` holds the two and keeps them in step.
-/

namespace BorrowCheck

/-- The **books** of a walk: a store and a ledger that are kept in step. -/
structure Books where
  store : Store := {}
  ledger : Ledger := {}

namespace Books

/-- Opens the loans that are due at the entry point; they lend storage of the caller. -/
def openForCaller (s : Books) (b : LoanBook) (p : Point) : Books × List Loan :=
  let loans := s.ledger.dueAt b p
  ({ s with ledger := loans.foldl Ledger.record s.ledger }, loans)

/-- Opens the loan that stores a borrow of `source` in `borrower` at `p`, unless an outstanding one
excludes it. -/
def lend (s : Books) (b : LoanBook) (borrower : Option Place) (source : Place) (kind : BorrowKind)
    (p : Point) : Except Fault (Books × Loan) :=
  match s.ledger.due? b borrower source kind p with
  | none => .error (.unrecorded borrower (some source))
  | some loan =>
    match s.ledger.excluding? b loan with
    | some other => .error (.violation (.conflict loan.target loan.kind other.toLien))
    | none =>
      .ok ({ store := s.store.encumber loan.target loan.kind loan.id
             ledger := s.ledger.record loan }, loan)

/-- Opens a loan as `BorrowCheck.Books.lend` does; no loan lends a place that is missing. -/
def lend? (s : Books) (b : LoanBook) (borrower source : Option Place) (kind : BorrowKind)
    (p : Point) : Except Fault (Books × Loan) :=
  match source with
  | none => .error (.unrecorded borrower none)
  | some x => s.lend b borrower x kind p

/-- Closes loans. -/
def close (s : Books) (loans : List Loan) : Books :=
  { store := loans.foldl (fun store loan => store.discharge loan.target loan.id) s.store
    ledger := s.ledger.strike loans }

/-- Closes the loans that end before `p`, or, when `inclusive`, at it. -/
def settle (s : Books) (p : Point) (inclusive : Bool) : Books × List Loan :=
  let loans := s.ledger.expired p inclusive
  (s.close loans, loans)

/-- Closes the loans whose borrower lies in one of the variables `roots`. -/
def settleIn (s : Books) (roots : List String) : Books × List Loan :=
  let loans := s.ledger.borrowedIn roots
  (s.close loans, loans)

end Books

end BorrowCheck
