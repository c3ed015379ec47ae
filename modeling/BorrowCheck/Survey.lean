import BorrowCheck.Loan
import BorrowCheck.Place.Map
import BorrowCheck.Place.Overlap
import BorrowCheck.Program
import BorrowCheck.Scopes

/-!
# The survey of loans

Before a function is checked, its loans are surveyed: each operation in turn may take loans, use
the references that are stored somewhere and overwrite them. A survey knows, at each point, which
loan each borrower currently holds (`BorrowCheck.Survey.holders`) and logs every use of one.

A loan has to last until its last use, and, since a reborrow reads through it, at least as long as
every loan that was taken through it. The log alone does not tell this at the point of a conflict,
because the use may come later:

    1: borrow r1 = &s        loan 0 (s)
    2: borrow r2 = &r1       loan 1 (r1), taken through 0
    3: assign s              loan 0 is still needed here …
    4: deref r2              … because of this use of loan 1

So the ends are settled when the whole body has been seen (`BorrowCheck.Survey.ends`): from the
youngest loan to the oldest, each hands its end on to the loan it was taken through.
-/

namespace BorrowCheck

/-- The storage that a reference parameter points at. No listing can name it, and it belongs to no
variable. -/
def Place.ofCaller (param : String) : Place :=
  { base := "<caller:" ++ param ++ ">" }

/-- What is known after the first operations of a body. -/
structure Survey where
  /-- The loans taken so far; the number of a loan is its position. -/
  borrows : List Borrow := []
  /-- The loan that each borrower currently holds. -/
  holders : Place.Map Nat := {}
  /-- The uses of loans so far, each with its point. -/
  uses : List (Nat × Point) := []
  scopes : Scopes := {}

namespace Survey

/-! ### Uses and definitions -/

/-- Logs a use of `x` at `p`: every borrower that overlaps `x` is used. -/
def touch (s : Survey) (x : Place) (p : Point) : Survey :=
  let touched := s.holders.toList.filter fun e => e.1.overlaps x
  { s with uses := s.uses ++ touched.map fun e => (e.2, p) }

/-- Logs a use of each of `xs` at `p`. -/
def touchAll (s : Survey) (xs : List Place) (p : Point) : Survey :=
  xs.foldl (fun s x => s.touch x p) s

/-- Forgets what `x` and the places under it hold. -/
def forget (s : Survey) (x : Place) : Survey :=
  { s with holders := s.holders.keepKeys fun y => !x.isPrefixOf y }

/-- A write to `x` at `p`: it uses the reference that it goes through, and otherwise ends what `x`
held. -/
def write (s : Survey) (x : Place) (p : Point) : Survey :=
  match x.cut? with
  | some (ref, _) => s.touch ref p
  | none => s.forget x

/-- A write to a target that may be missing. -/
def write? (s : Survey) (x : Option Place) (p : Point) : Survey :=
  match x with
  | none => s
  | some x => s.write x p

/-- Takes a loan, which is a use of the loan it is taken through. -/
def take (s : Survey) (b : Borrow) : Survey :=
  { s with
    borrows := s.borrows ++ [b]
    uses := s.uses ++ (b.parent.map fun parent => (parent, b.origin)).toList }

/-- Takes a loan whose reference is stored in `x`. -/
def define (s : Survey) (x : Place) (b : Borrow) : Survey :=
  { s.take b with holders := s.holders.put x s.borrows.length }

/-! ### What a borrowed place stands for -/

/-- The place that a borrow of `x` lends and the loan it is taken through, if any. A borrow behind
a reference lends what the reference points at, and is taken through the loan that the reference
holds; a borrow of a reference itself is taken through the loan it holds. References behind
references are followed into older loans only: those with a number below `bound`. -/
def referentBelow (s : Survey) (bound : Nat) (x : Place) : Place × Option Nat :=
  match x.cut? with
  | none => (x, s.holders.get? x)
  | some (ref, rest) =>
    match s.holders.get? ref with
    | none => (x, none)
    | some id =>
      if id < bound then
        match s.borrows[id]? with
        | none => (x, none)
        | some b =>
          let inner := b.target.append rest
          if inner.throughRef then
            match s.referentBelow id inner with
            | (deeper, some parent) => (deeper, some parent)
            | (_, none) => (inner, some id)
          else
            (inner, some id)
      else
        (x, none)
termination_by bound

/-- The place that a borrow of `x` lends and the loan it is taken through. -/
def referent (s : Survey) (x : Place) : Place × Option Nat :=
  s.referentBelow s.borrows.length x

/-! ### Operations -/

/-- A borrow of `x` at `p`, stored in `borrower`. -/
def borrowOf (s : Survey) (borrower : Option Place) (kind : BorrowKind) (x : Place) (p : Point) :
    Borrow :=
  let found := s.referent x
  { borrower, kind, origin := p, target := found.1, via := x, parent := found.2,
    temporary := borrower.isNone }

/-- Passes an argument at `p`: a reference lasts for the call. -/
def pass (p : Point) (s : Survey) (a : Arg) : Survey :=
  let s := s.touch a.place p
  match a.mode with
  | .value => s
  | .lend kind => s.take (s.borrowOf none kind a.place p)

/-- Moves what `x` holds to the target: the target then holds a reborrow of the loan that `x`
held. -/
def move (s : Survey) (target : Option Place) (x : Place) (p : Point) : Survey :=
  let s := s.touch x p
  let held := do
    let parent ← s.holders.get? x
    let b ← s.borrows[parent]?
    return (parent, b)
  let s := s.write? target p
  match target, held with
  | some t, some (parent, b) =>
    s.define t
      { borrower := some t, kind := b.kind, origin := p, target := b.target, via := x,
        parent := some parent }
  | _, _ => s

/-- Stores a borrow of `x` in `t`. -/
def lend (s : Survey) (kind : BorrowKind) (t x : Place) (p : Point) : Survey :=
  let s := s.touch x p
  let b := s.borrowOf (some t) kind x p
  (s.write t p).define t b

/-- Leaves a block: what its variables hold is forgotten. -/
def exit (s : Survey) : Survey :=
  match s.scopes.exit? with
  | none => s
  | some (dead, scopes) =>
    { s with scopes, holders := s.holders.keepKeys fun y => !dead.contains y.base }

/-- One operation. Of an operation with missing parts only what is there counts. -/
def observe (s : Survey) (op : Operation) : Survey :=
  let p := op.point
  match op.kind with
  | .declare =>
    match op.target with
    | none => s
    | some x =>
      let s := s.forget x
      { s with scopes := s.scopes.declare x.base }
  | .assign => (s.touchAll op.sources p).write? op.target p
  | .move =>
    match op.source with
    | none => s
    | some x => s.move op.target x p
  | .borrow kind =>
    match op.target, op.source with
    | some t, some x => s.lend kind t x p
    | _, _ => s
  | .deref | .use | .ret => s.touchAll op.sources p
  | .call => (op.args.foldl (pass p) s).write? op.target p
  | .enter => { s with scopes := s.scopes.enter }
  | .exit => s.exit
  | .unknown _ => s

/-- A parameter at the entry point: one that is a reference holds a loan of the caller's storage. -/
def receive (entry : Point) (s : Survey) (param : Param) : Survey :=
  let s := { s with scopes := s.scopes.declare param.name }
  match param.ty.ref with
  | none => s
  | some kind =>
    let x : Place := { base := param.name }
    s.define x
      { borrower := some x, kind, origin := entry, target := Place.ofCaller param.name,
        via := x.deref }

/-- The survey of a function after its first operations `ops`. -/
def after (f : Function) (ops : List Operation) : Survey :=
  ops.foldl observe (f.params.foldl (receive f.entry) {})

/-! ### Ends of loans -/

/-- The last point at which loan `id` itself is used; a loan for a call ends where it begins. -/
def ownEnd (s : Survey) (id : Nat) (b : Borrow) : Point :=
  if b.temporary then b.origin
  else (s.uses.filter fun u => u.1 = id).foldl (fun p u => max p u.2) b.origin

/-- Hands the end of loan `id` on to the loan it was taken through. -/
def handOn (b : Borrow) (id : Nat) (ends : List Point) : List Point :=
  match b.parent with
  | none => ends
  | some parent => ends.modify parent fun q => max q (ends.getD id b.origin)

/-- The last points at which the loans are needed, by number: those of their own uses, handed on
from the youngest loan to the oldest. -/
def ends (s : Survey) : List Point :=
  let numbered := s.borrows.zipIdx
  numbered.foldr (fun e ends => handOn e.1 e.2 ends) (numbered.map fun e => s.ownEnd e.2 e.1)

/-- The loans of the survey with their ends. -/
def book (s : Survey) : LoanBook :=
  { loans := (s.borrows.zip s.ends).zipIdx.map fun e => { e.1.1 with id := e.2, last := e.1.2 } }

end Survey

/-- The **loans of a function**. -/
def Function.book (f : Function) : LoanBook :=
  (Survey.after f f.ops).book

end BorrowCheck
