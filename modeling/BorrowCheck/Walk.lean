import BorrowCheck.Books
import BorrowCheck.Survey

/-!
# The walk through a function

A function is checked by walking through its operations once, in order. At each point the loans
that ended earlier are closed, the operation reads, moves and borrows, the loans that end at this
point are closed, and last its target is written. So an operation may overwrite a place whose
reference it uses for the last time, whereas a use after the write is a conflict.

The walk stops at the first violation (`BorrowCheck.Walk.Stop`). Before the first operation it
makes sure that points increase and that the parameters have different names.
-/

namespace BorrowCheck

namespace Walk

/-- What does not change during a walk. -/
structure Context where
  policy : Policy
  book : LoanBook

/-- The **state of a walk**: store, ledger, and the point of the return, if there was one. -/
structure State extends Books where
  returned : Option Point := none

variable (c : Context)

/-! ### Questions -/

/-- Whether `x` holds a reference: by a loan, or by its type. -/
def isReference (s : State) (x : Place) : Bool :=
  s.ledger.holds x || s.store.isReference c.policy x

/-- Whether `x` holds an exclusive reference: by a loan, or by its type. -/
def isExclusiveReference (s : State) (x : Place) : Bool :=
  (s.ledger.heldAt x []).any Loan.isExclusive ||
    (match s.store.ty? c.policy x with
      | none => false
      | some t => t.ref = some .exclusive)

/-- The liens on storage that overlaps `x` at `p`. -/
def liensOn (s : State) (x : Place) (p : Point) (strict : Bool) : List Lien :=
  (s.ledger.overlapping x p strict).map (·.toLien)

/-- Why a reference in `x` cannot be used at `p`: an exclusive reborrow through it is live. -/
def reborrowed? (s : State) (x : Place) (p : Point) : Option Violation :=
  let others := (s.ledger.heldUnder x).flatMap (s.ledger.reborrows c.book)
  (others.find? fun other => other.isExclusive && p ≤ other.last).map fun other =>
    .reborrowed x other.via other.toLien

/-! ### Reads, moves and borrows -/

/-- Reads `x`: its holder has to have a value, may not be lent exclusively, and a reference in it
may not be reborrowed exclusively. -/
def read (s : State) (x : Place) (p : Point) : Except Fault Unit := do
  s.store.ensureInScope x
  s.store.read x.holder (liensOn s x.holder p false)
  refuse (reborrowed? c s x.holder p)

/-- Moves the value of `x` out. -/
def vacate (s : State) (x : Place) (p : Point) : Except Fault State := do
  s.store.ensureInScope x
  if x.throughRef then
    refuse (some (.moveThroughReference x))
  let store ← s.store.vacate x p (liensOn s x p false)
  return { s with store }

/-- Hands on the value of `x`: references and copied values are read, all others are moved out. -/
def handOver (s : State) (x : Place) (p : Point) : Except Fault State :=
  if isReference c s x || s.store.copies c.policy x then do
    read c s x p
    return s
  else
    vacate s x p

/-- Borrows `x` for `borrower`. -/
def borrow (s : State) (borrower : Option Place) (kind : BorrowKind) (x : Place) (p : Point) :
    Except Fault State := do
  s.store.ensureInScope x
  if x.throughRef then
    read c s x.holder p
  else
    s.store.ensureValue x
  let (books, _) ← s.toBooks.lend c.book borrower x kind p
  return { s with toBooks := books }

/-- Passes an argument. -/
def passArg (p : Point) (s : State) (a : Arg) : Except Fault State :=
  match a.mode with
  | .value => handOver c s a.place p
  | .lend kind => borrow c s none kind a.place p

/-! ### Writes -/

/-- Why the loan `loan`, held by `ref`, does not allow a write through it at `p`: it is shared, or
a reborrow of it lasts beyond `p`. -/
def unwritable? (s : State) (ref : Place) (p : Point) (loan : Loan) : Option Violation :=
  if !loan.isExclusive then some (.writeThroughShared loan.target ref (some loan.toLien))
  else
    ((s.ledger.reborrows c.book loan).find? fun other => p < other.last).map fun other =>
      .writeWhileLent loan.target other.toLien

/-- A write through the reference in `ref` at `p`. The loans of `closed`, whose last use is this
write, count as held. -/
def writeBehind (s : State) (closed : List Loan) (ref : Place) (p : Point) : Except Fault Unit := do
  read c s ref p
  let held := s.ledger.heldAt ref closed
  let kind := (s.store.ty? c.policy ref).bind (·.ref)
  if held.isEmpty then
    match kind with
    | none => refuseFlaw (.writeThroughValue ref)
    | some .shared => refuse (some (.writeThroughShared ref.deref ref none))
    | some .exclusive => return ()
  else
    refuse (held.findSome? (unwritable? c s ref p))

/-- Writes a new value to `x` at `p`. -/
def write (s : State) (closed : List Loan) (x : Place) (p : Point) : Except Fault State := do
  s.store.ensureInScope x
  if x.throughRef then
    writeBehind c s closed x.holder p
    return s
  else
    let store ←
      if x.isRoot && s.store.status x = .uninit then s.store.fill x
      else s.store.overwrite x (liensOn s x p true)
    return { s with store, ledger := s.ledger.releaseUnder x p }

/-! ### Operations -/

/-- Moves or copies the value of `x` to `t`. A reference that is handed on becomes a reborrow of
the loan it stands for; an exclusive one is moved out, a shared one is copied. -/
def move (s : State) (t x : Place) (p : Point) : Except Fault State := do
  s.store.ensureInScope t
  let derived := (s.ledger.dueAt c.book p).filter fun loan =>
    match loan.borrower with
    | none => false
    | some y => y.same t
  if !derived.isEmpty || isReference c s x then
    read c s x p
    let exclusive := isExclusiveReference c s x
    let books ← derived.foldlM (fun books loan => do
      let (books, _) ← books.lend c.book (some t) loan.via loan.kind p
      return books) s.toBooks
    let s := { s with toBooks := books }
    if exclusive then vacate s x p else return s
  else if s.store.copies c.policy x then
    read c s x p
    return s
  else
    vacate s x p

/-- Reads through the reference in the holder of `x`. -/
def follow (s : State) (x : Place) (p : Point) : Except Fault Unit := do
  read c s x.holder p
  if isReference c s x.holder then
    return ()
  else
    refuseFlaw (.derefOfValue x.holder)

/-- Hands `x` to the caller: no reference in it may point at local storage. -/
def ret (s : State) (x : Place) (p : Point) : Except Fault State := do
  s.store.ensureInScope x
  let local? := (s.ledger.heldUnder x).find? fun loan => s.store.isLocal loan.target
  refuse (local?.map fun loan => .returnsLocal loan.target loan.toLien)
  handOver c s x p

/-- Leaves the innermost block: no loan of storage that ends here may be held by a place that
stays and last beyond `p`. -/
def exit (s : State) (p : Point) : Except Fault State := do
  let (dying, store) ← s.store.exit
  let outlived? := s.ledger.outstanding.find? fun loan =>
    match loan.borrower with
    | none => false
    | some y =>
      !dying.contains y.base && dying.contains loan.target.base && store.isLocal loan.target &&
        p < loan.last
  refuse (outlived?.map fun loan => .outlived loan.target loan.toLien)
  let (books, _) := { s.toBooks with store }.settleIn dying
  return { s with store := books.store.endStorage dying, ledger := books.ledger }

/-- What an action does before its write, with the place that is to be written. -/
def perform (s : State) (p : Point) : Action → Except Fault (State × Option Place)
  | .declare x ty => do
    let store ← s.store.declare x ty false
    return ({ s with store }, none)
  | .assign x sources => do
    sources.forM fun y => read c s y p
    return (s, some x)
  | .move t x => do
    let s ← move c s t x p
    return (s, some t)
  | .borrow kind t x => do
    s.store.ensureInScope t
    let s ← borrow c s (some t) kind x p
    return (s, some t)
  | .deref x => do
    follow c s x p
    return (s, none)
  | .use x => do
    read c s x p
    return (s, none)
  | .call args result => do
    match result with
    | none => pure ()
    | some t => s.store.ensureInScope t
    let s ← args.foldlM (passArg c p) s
    return (s, result)
  | .ret x => do
    let s ←
      match x with
      | none => pure s
      | some x => ret c s x p
    return ({ s with returned := some p }, none)
  | .enter => .ok ({ s with store := s.store.enter }, none)
  | .exit => do
    let s ← exit s p
    return (s, none)

/-- One operation. -/
def step (s : State) (op : Operation) : Except Fault State :=
  match s.returned, op.action with
  | some q, _ => refuseFlaw (.afterReturn q)
  | none, .error gap => refuseFlaw (.incomplete gap)
  | none, .ok action => do
    let (books, _) := s.toBooks.settle op.point false
    let (s, target) ← perform c { s with toBooks := books } op.point action
    let (books, closed) := s.toBooks.settle op.point true
    let s := { s with toBooks := books }
    match target with
    | none => return s
    | some x => write c s closed x op.point

/-! ### Whole functions -/

/-- Where and why a walk stopped; without an operation it did so before the first one. -/
structure Stop where
  fault : Fault
  point : Point
  operation : Option Operation := none

/-- A walk that is over: the state after each operation that was completed, and what stopped it,
if anything. -/
structure Trace where
  steps : List (Operation × State) := []
  stop : Option Stop := none

/-- Walks through `ops` from the state `s`. -/
def along (s : State) : List Operation → Trace
  | [] => {}
  | op :: ops =>
    match step c s op with
    | .error fault => { stop := some { fault, point := op.point, operation := op } }
    | .ok t =>
      let rest := along t ops
      { rest with steps := (op, t) :: rest.steps }

/-- The first point after `last` that does not come after the one before it. -/
def disorder? (last : Point) : List Operation → Option (Point × Point)
  | [] => none
  | op :: ops => if last < op.point then disorder? op.point ops else some (op.point, last)

/-- Declares the parameters, which have a value from the beginning. -/
def declareParams (params : List Param) : Except Fault Store :=
  params.foldlM (fun store param =>
    store.declare { base := param.name } param.ty true) {}

end Walk

namespace Function

/-- The first point that does not come after the one before it. -/
def disorder? (f : Function) : Option (Point × Point) :=
  match f.ops with
  | [] => none
  | op :: ops => Walk.disorder? op.point ops

/-- What does not change during a walk through `f`. -/
def context (f : Function) (policy : Policy) : Walk.Context :=
  { policy, book := f.book }

/-- The state before the first operation, once the parameters are declared in `store`. -/
def start (f : Function) (store : Store) : Walk.State :=
  { toBooks := (Books.openForCaller { store } f.book f.entry).1 }

/-- The **walk** through a function. -/
def walk (f : Function) (policy : Policy) : Walk.Trace :=
  match f.disorder? with
  | some (point, last) =>
    { stop := some { fault := .violation (.flaw (.pointOrder point last)), point } }
  | none =>
    match Walk.declareParams f.params with
    | .error fault => { stop := some { fault, point := f.entry } }
    | .ok store => Walk.along (f.context policy) (f.start store) f.ops

end Function

end BorrowCheck
