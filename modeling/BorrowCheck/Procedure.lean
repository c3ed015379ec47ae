import BorrowCheck.Books

/-!
# Procedures

`BorrowCheck.Store` and `BorrowCheck.Books` tell what comes of an operation: a fault, or the state
after it. Books of which there is one copy only are changed in place, one entry after the other,
and an operation that stops on the way leaves behind what it has changed so far. This file carries
the operations out in that way, as **procedures**: they look up, check and change one thing at a
time, and a fault comes together with the state at that moment.

Whoever keeps books makes one request after the other (`BorrowCheck.Request`), whether or not those
before it failed. Questions about the books are no requests: they are functions of the state.
-/

namespace BorrowCheck

/-- A **procedure** on a state. When it stops, the state stays as it is at that moment. -/
abbrev Procedure (σ α : Type) := EStateM Fault σ α

namespace Procedure

/-- Stops if there is something wrong. -/
def haltOn {σ : Type} : Option Violation → Procedure σ Unit
  | none => pure ()
  | some v => throw (.violation v)

/-! ### Cells -/

/-- Gives `x` a cell, if it has none. -/
def provide (x : Place) : Procedure Store Unit :=
  modify fun s => if s.cells.contains x then s else { s with cells := s.cells.put x {} }

/-- Changes the cell of `x`, if it has one. -/
def adjust (x : Place) (change : Cell → Cell) : Procedure Store Unit :=
  modify fun s =>
    match s.cells.get? x with
    | none => s
    | some cell => { s with cells := s.cells.put x (change cell) }

/-- Takes the cell of `x` away, if there is nothing to say about `x`. -/
def dropIdle (x : Place) : Procedure Store Unit :=
  modify fun s =>
    if (s.cells.get? x).any Cell.isIdle then { s with cells := s.cells.erase x } else s

/-- Sets the ownership of `x`. -/
def own (x : Place) (o : Ownership) : Procedure Store Unit := do
  provide x
  adjust x fun cell => { cell with ownership := o }

/-! ### The store -/

/-- Declares a variable in the innermost block, with a value (`init`) or without. -/
def declare (x : Place) (ty : Ty) (init : Bool) : Procedure Store Unit := do
  haltOn (if x.isRoot then none else some (.flaw (.notVariable x)))
  haltOn (if (← get).declares x then some (.flaw (.redeclared x)) else none)
  modify fun s => { s with types := s.types ++ [(x.base, ty)] }
  modify fun s => { s with scopes := s.scopes.declare x.base }
  modify fun s =>
    { s with cells := s.cells.put x { ownership := if init then .owned else .uninit } }

/-- Leaves the innermost block; gives the variables whose storage is to end. -/
def exit : Procedure Store (List String) := do
  match (← get).scopes.exit? with
  | none => throw (.violation (.flaw .unmatchedExit))
  | some (dying, scopes) =>
    modify fun s => { s with scopes }
    return dying

/-- Stops unless the variable of `x` is in scope. -/
def ensureInScope (x : Place) : Procedure Store Unit := do
  haltOn (if (← get).declares x then none else some (.flaw (.undeclared x)))

/-- Stops unless `x` can be used: looks at the places on the way to it, one by one, and then at the
parts of the container it reaches. -/
def ensureValue (x : Place) : Procedure Store Unit := do
  x.trail.forM fun y => do haltOn ((← get).lackingWithin? x y)
  haltOn ((← get).lackingUnder? x)

/-- Reads `x`, which is lent as `liens` say. -/
def read (x : Place) (liens : List Lien) : Procedure Store Unit := do
  ensureValue x
  liens.forM fun l => haltOn (if l.kind.isExclusive then some (.lentOut x l) else none)

/-- Moves the value of `x` out at `p`. -/
def vacate (x : Place) (p : Point) (liens : List Lien) : Procedure Store Unit := do
  ensureValue x
  liens.forM fun l => haltOn (some (.moveWhileLent x l))
  own x .moved
  adjust x fun cell => { cell with movedAt := some p }

/-- Gives the variable `x` its first value; a place that is missing waits for none. -/
def fill (x : Option Place) : Procedure Store Unit := do
  match x with
  | none => throw (.violation (.flaw (.notUninit none)))
  | some y =>
    match (← get).cells.get? y with
    | some { ownership := .uninit, .. } => adjust y fun cell => { cell with ownership := .owned }
    | _ => throw (.violation (.flaw (.notUninit (some y))))

/-- The turn of the cell of `y`, when `x`, in which `y` lies, is given a new value. -/
def renew (x y : Place) : Procedure Store Unit := do
  adjust y fun cell => { cell with ownership := .owned }
  adjust y fun cell => { cell with movedAt := none }
  if !y.same x then dropIdle y

/-- Gives `x` a new value: every cell at and under `x` has its turn. -/
def overwrite (x : Place) (liens : List Lien) : Procedure Store Unit := do
  x.enclosing.forM fun y => do haltOn ((← get).unwritableWithin? x y)
  liens.forM fun l => haltOn (some (.writeWhileLent x l))
  let under := ((← get).cells.toList.map (·.1)).filter x.isPrefixOf
  under.forM (renew x)
  own x .owned

/-- Notes that `x` is lent by the loan `id`, if it is local storage. -/
def encumber (x : Place) (kind : BorrowKind) (id : Int) : Procedure Store Unit := do
  if (← get).isLocal x then
    provide x
    adjust x fun cell => cell.encumber kind id

/-- Strikes the loan `id` of `x`. -/
def discharge (x : Place) (id : Int) : Procedure Store Unit := do
  adjust x fun cell => cell.discharge id
  if !x.isRoot then dropIdle x

/-! ### Store and ledger -/

/-- Works on the store of books. -/
def onStore {α : Type} (m : Procedure Store α) : Procedure Books α := fun s =>
  match m s.store with
  | .ok a store => .ok a { s with store }
  | .error e store => .error e { s with store }

/-- The loan due at `p` that stores a borrow of `source` in `borrower`. -/
def due (b : LoanBook) (borrower source : Option Place) (kind : BorrowKind) (p : Point) :
    Procedure Books Loan := do
  let s ← get
  match source.bind fun x => s.ledger.due? b borrower x kind p with
  | none => throw (.unrecorded borrower source)
  | some loan => return loan

/-- Opens the loan that stores a borrow of `source` in `borrower` at `p`, unless one of the
outstanding loans, which are looked at one by one, excludes it. -/
def lend (b : LoanBook) (borrower source : Option Place) (kind : BorrowKind) (p : Point) :
    Procedure Books Loan := do
  let loan ← due b borrower source kind p
  let lineage := b.lineage loan
  (← get).ledger.outstanding.forM fun other =>
    haltOn (if !lineage.contains other.id && other.target.overlaps loan.target &&
        (loan.isExclusive || other.isExclusive)
      then some (.conflict loan.target loan.kind other.toLien) else none)
  modify fun s => { s with ledger := { s.ledger with opened := s.ledger.opened ++ [loan.id] } }
  modify fun s =>
    { s with ledger := { s.ledger with outstanding := s.ledger.outstanding ++ [loan] } }
  onStore (encumber loan.target loan.kind loan.id)
  return loan

/-- Closes loans, one by one. -/
def close (loans : List Loan) : Procedure Books Unit :=
  loans.forM fun loan => do
    modify fun s => { s with ledger := s.ledger.strike [loan] }
    onStore (discharge loan.target loan.id)

end Procedure

/-! ### Requests -/

/-- A **request** to whoever keeps the books. -/
inductive Request where
  | declare (x : Place) (ty : Ty) (init : Bool)
  | enter
  | exit
  | endStorage (roots : List String)
  | ensureInScope (x : Place)
  | ensureValue (x : Place)
  | read (x : Place) (liens : List Lien)
  | vacate (x : Place) (p : Point) (liens : List Lien)
  | fill (x : Option Place)
  | overwrite (x : Place) (liens : List Lien)
  | encumber (x : Place) (kind : BorrowKind) (id : Int)
  | discharge (x : Place) (id : Int)
  | openForCaller (p : Point)
  | lend (borrower source : Option Place) (kind : BorrowKind) (p : Point)
  | settle (p : Point) (inclusive : Bool)
  | settleIn (roots : List String)
  | releaseUnder (x : Place) (p : Point)

/-- What a request that succeeds gives. -/
inductive Reply where
  | done
  /-- The variables of a block that was left. -/
  | names (dying : List String)
  /-- The loan that was opened. -/
  | loan (l : Loan)
  /-- The loans that were opened for the caller, or closed. -/
  | loans (ls : List Loan)

namespace Request

open Procedure in
/-- The procedure that serves a request, on the books of a function with the loans `b`. -/
def perform (b : LoanBook) : Request → Procedure Books Reply
  | declare x ty init => do
    onStore (Procedure.declare x ty init)
    return .done
  | enter => do
    onStore (modify Store.enter)
    return .done
  | exit => do
    let dying ← onStore Procedure.exit
    return .names dying
  | endStorage roots => do
    onStore (modify (·.endStorage roots))
    return .done
  | ensureInScope x => do
    onStore (Procedure.ensureInScope x)
    return .done
  | ensureValue x => do
    onStore (Procedure.ensureValue x)
    return .done
  | read x liens => do
    onStore (Procedure.read x liens)
    return .done
  | vacate x p liens => do
    onStore (Procedure.vacate x p liens)
    return .done
  | fill x => do
    onStore (Procedure.fill x)
    return .done
  | overwrite x liens => do
    onStore (Procedure.overwrite x liens)
    return .done
  | encumber x kind id => do
    onStore (Procedure.encumber x kind id)
    return .done
  | discharge x id => do
    onStore (Procedure.discharge x id)
    return .done
  | openForCaller p => do
    let loans := (← get).ledger.dueAt b p
    loans.forM fun loan => modify fun s => { s with ledger := s.ledger.record loan }
    return .loans loans
  | lend borrower source kind p => do
    let loan ← Procedure.lend b borrower source kind p
    return .loan loan
  | settle p inclusive => do
    let loans := (← get).ledger.expired p inclusive
    close loans
    return .loans loans
  | settleIn roots => do
    let loans := (← get).ledger.borrowedIn roots
    close loans
    return .loans loans
  | releaseUnder x p => do
    modify fun s => { s with ledger := s.ledger.releaseUnder x p }
    return .done

/-- What comes of a request to the books `s`, and the books that it leaves behind, whether or not it
fails. -/
def serve (b : LoanBook) (s : Books) (r : Request) : Except Fault Reply × Books :=
  match (r.perform b).run s with
  | .ok reply t => (.ok reply, t)
  | .error e t => (.error e, t)

end Request

end BorrowCheck
