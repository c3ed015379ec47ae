import BorrowCheck.Loan
import BorrowCheck.Place.Overlap

/-!
# The ledger of loans

While a function is walked through, a **ledger** lists the loans that are outstanding: opened at
their point of origin and not yet past their end. Which loans there are, and how long they last,
was settled by the survey; the ledger opens them one by one and refuses one that an outstanding
loan excludes. A loan whose borrower was overwritten stays outstanding while reborrows need it,
but is **released**: its borrower no longer holds it.

The store names the loans of a place, so ledger and store are kept in step by `BorrowCheck.Books`.
-/

namespace BorrowCheck

/-- The **outstanding loans**, in the order in which they were opened; `opened` and `released`
list the numbers of all loans that were ever opened or released. -/
structure Ledger where
  outstanding : List Loan := []
  opened : List Nat := []
  released : List Nat := []

namespace Ledger

/-! ### Questions -/

/-- The loans of the book that are taken at `p` and were not opened yet. -/
def dueAt (l : Ledger) (b : LoanBook) (p : Point) : List Loan :=
  (b.takenAt p).filter fun loan => !l.opened.contains loan.id

/-- The loan due at `p` that stores a borrow of `source` in `borrower`. -/
def due? (l : Ledger) (b : LoanBook) (borrower : Option Place) (source : Place) (kind : BorrowKind)
    (p : Point) : Option Loan :=
  (l.dueAt b p).find? fun loan =>
    loan.borrower.map Place.unlabel = borrower.map Place.unlabel && loan.via.same source &&
      loan.kind = kind

/-- The first outstanding loan that excludes `loan`: they overlap, one of them is exclusive, and
`loan` was not taken through it. -/
def excluding? (l : Ledger) (b : LoanBook) (loan : Loan) : Option Loan :=
  let lineage := b.lineage loan
  l.outstanding.find? fun other =>
    !lineage.contains other.id && other.target.overlaps loan.target &&
      (loan.isExclusive || other.isExclusive)

/-- The outstanding loans of storage that overlaps `x`, as far as they last beyond `p`, or, unless
`strict`, up to it. -/
def overlapping (l : Ledger) (x : Place) (p : Point) (strict : Bool) : List Loan :=
  l.outstanding.filter fun loan =>
    loan.target.overlaps x && (p < loan.last || (!strict && loan.last = p))

/-- The outstanding loans that end before `p`, or, when `inclusive`, at it. -/
def expired (l : Ledger) (p : Point) (inclusive : Bool) : List Loan :=
  l.outstanding.filter fun loan => loan.last < p || (inclusive && loan.last = p)

/-- The outstanding loans whose borrower lies in one of the variables `roots`. -/
def borrowedIn (l : Ledger) (roots : List String) : List Loan :=
  l.outstanding.filter fun loan =>
    match loan.borrower with
    | none => false
    | some y => roots.contains y.base

/-- Whether the reference of `loan` is stored at some place that satisfies `test`, and still
there. -/
def isHeldAt (l : Ledger) (test : Place → Bool) (loan : Loan) : Bool :=
  match loan.borrower with
  | none => false
  | some y => !l.released.contains loan.id && test y

/-- The outstanding loans that are held at `x` or under it. -/
def heldUnder (l : Ledger) (x : Place) : List Loan :=
  l.outstanding.filter (l.isHeldAt x.isPrefixOf)

/-- The loans that are held at `x` itself, among the outstanding ones and those of `extra`. -/
def heldAt (l : Ledger) (x : Place) (extra : List Loan) : List Loan :=
  (l.outstanding ++ extra).filter (l.isHeldAt x.same)

/-- Whether `x` itself holds an outstanding loan. -/
def holds (l : Ledger) (x : Place) : Bool :=
  !(l.heldAt x []).isEmpty

/-- The outstanding loans that were taken through `loan`. -/
def reborrows (l : Ledger) (b : LoanBook) (loan : Loan) : List Loan :=
  l.outstanding.filter fun other => other.id ≠ loan.id && (b.lineage other).contains loan.id

/-- The outstanding loans, each with whether its borrower holds it. -/
def overview (l : Ledger) : List (Loan × Bool) :=
  l.outstanding.map fun loan => (loan, l.isHeldAt (fun _ => true) loan)

/-! ### Changes -/

/-- Opens a loan. -/
def record (l : Ledger) (loan : Loan) : Ledger :=
  { l with outstanding := l.outstanding ++ [loan], opened := l.opened ++ [loan.id] }

/-- Strikes loans. -/
def strike (l : Ledger) (loans : List Loan) : Ledger :=
  { l with outstanding := l.outstanding.filter fun loan => !(loans.map (·.id)).contains loan.id }

/-- A new value was written to `x` at `p`: what `x` and the places under it held before is
released. -/
def releaseUnder (l : Ledger) (x : Place) (p : Point) : Ledger :=
  let gone := l.outstanding.filter fun loan =>
    match loan.borrower with
    | none => false
    | some y => x.isPrefixOf y && loan.origin < p
  { l with released := l.released ++ gone.map (·.id) }

end Ledger

end BorrowCheck
