import BorrowCheck.Place.Map
import BorrowCheck.Policy
import BorrowCheck.Scopes
import BorrowCheck.Violation

/-!
# The ownership store

A **store** knows, for the places of one function, whether they have a value: a variable that was
declared has none until the first write, a place that was moved out has none until it, or a place
around it, is written again. It keeps a `BorrowCheck.Cell` for every variable in scope and for the
parts of variables about which there is something to say. A cell also names the loans of its
place, so that a query can show it as borrowed.

Checks and effects are apart: a check gives the first violation or none, an effect cannot fail,
and an operation of the store is a check followed by an effect. So an operation that fails changes
nothing.
-/

namespace BorrowCheck

/-- Whether a place has a value: not yet, now, or no more. -/
inductive Ownership where
  | uninit
  | owned
  | moved
deriving DecidableEq

/-- What a query shows of a place. -/
inductive Status where
  | uninit
  | owned
  | moved
  | sharedBorrowed
  | exclusivelyBorrowed
deriving DecidableEq

/-- What a store keeps about one place: its ownership, where its value was moved out, and the
numbers of the loans of it. -/
structure Cell where
  ownership : Ownership := .owned
  movedAt : Option Point := none
  shared : List Int := []
  exclusive : Option Int := none
deriving DecidableEq

namespace Cell

/-- The status of the place itself. -/
def status (c : Cell) : Status :=
  match c.ownership with
  | .uninit => .uninit
  | .moved => .moved
  | .owned =>
    if c.exclusive.isSome then .exclusivelyBorrowed
    else if c.shared.isEmpty then .owned
    else .sharedBorrowed

/-- Whether there is nothing to say about the place. -/
def isIdle (c : Cell) : Bool :=
  c.ownership = .owned && c.shared.isEmpty && c.exclusive.isNone

/-- Whether the value was moved out. -/
def isMoved (c : Cell) : Bool :=
  c.ownership = .moved

/-- Notes the loan `id`. -/
def encumber (c : Cell) (kind : BorrowKind) (id : Int) : Cell :=
  match kind with
  | .exclusive => { c with exclusive := some id }
  | .shared => if c.shared.contains id then c else { c with shared := c.shared ++ [id] }

/-- Strikes the loan `id`. -/
def discharge (c : Cell) (id : Int) : Cell :=
  { c with
    shared := c.shared.filter (· ≠ id)
    exclusive := c.exclusive.filter (· ≠ id) }

end Cell

/-- The **ownership store** of a function. -/
structure Store where
  cells : Place.Map Cell := {}
  /-- The types of the variables in scope, in the order of their declaration. -/
  types : List (String × Ty) := []
  scopes : Scopes := {}

namespace Store

/-! ### Variables in scope -/

/-- Whether the variable of `x` is in scope. -/
def declares (s : Store) (x : Place) : Bool :=
  (s.types.lookup x.base).isSome

/-- Stops unless the variable of `x` is in scope. -/
def ensureInScope (s : Store) (x : Place) : Except Fault Unit :=
  if s.declares x then .ok () else refuseFlaw (.undeclared x)

/-- Whether `x` is storage of the function itself: not behind a reference, and in a variable in
scope. -/
def isLocal (s : Store) (x : Place) : Bool :=
  !x.throughRef && s.declares x

/-- Declares a variable in the innermost block, with a value (`init`) or without. -/
def declare (s : Store) (x : Place) (ty : Ty) (init : Bool) : Except Fault Store :=
  if !x.isRoot then refuseFlaw (.notVariable x)
  else if s.declares x then refuseFlaw (.redeclared x)
  else
    .ok
      { cells := s.cells.put x { ownership := if init then .owned else .uninit }
        types := s.types ++ [(x.base, ty)]
        scopes := s.scopes.declare x.base }

/-- Opens a block. -/
def enter (s : Store) : Store :=
  { s with scopes := s.scopes.enter }

/-- Leaves the innermost block; gives the variables whose storage is to end. -/
def exit (s : Store) : Except Fault (List String × Store) :=
  match s.scopes.exit? with
  | none => refuseFlaw .unmatchedExit
  | some (dying, scopes) => .ok (dying, { s with scopes })

/-- Ends the storage of variables. -/
def endStorage (s : Store) (roots : List String) : Store :=
  { s with
    cells := s.cells.keepKeys fun y => !roots.contains y.base
    types := s.types.filter fun t => !roots.contains t.1 }

/-! ### Types -/

/-- The type of what a path leads to from a value of type `t`. The types of fields are not known. -/
def tyAlong (c : Policy) (t : Ty) : List Proj → Option Ty
  | [] => some t
  | .deref :: ps => if t.isRef then tyAlong c t.pointee ps else none
  | .field _ :: _ => none
  | _ :: ps =>
    if t.isRef || !c.indexes t.name then none
    else
      match t.args with
      | some arg :: _ => tyAlong c arg ps
      | _ => none

/-- The type of `x`, as far as it is known. -/
def ty? (s : Store) (c : Policy) (x : Place) : Option Ty :=
  (s.types.lookup x.base).bind fun t => tyAlong c t x.path

/-- Whether a use of `x` as a value copies it: shared references and values of the copied types
are. -/
def copies (s : Store) (c : Policy) (x : Place) : Bool :=
  match s.ty? c x with
  | none => false
  | some t =>
    match t.ref with
    | some .shared => true
    | some .exclusive => false
    | none => c.copies t.name

/-- Whether `x` has a reference type. -/
def isReference (s : Store) (c : Policy) (x : Place) : Bool :=
  match s.ty? c x with
  | none => false
  | some t => t.isRef

/-! ### Values -/

/-- The first place strictly under `x` that was moved out, with its cell. -/
def movedUnder? (s : Store) (x : Place) : Option (Place × Cell) :=
  s.cells.toList.find? fun e => e.2.isMoved && !e.1.same x && x.isPrefixOf e.1

/-- The status of `x`: without a value when it lies in a place without one, or when a part of the
container it reaches was moved out, and otherwise that of its cell. -/
def status (s : Store) (x : Place) : Status :=
  let lacking := x.trail.findSome? fun y =>
    match s.cells.get? y with
    | some { ownership := .uninit, .. } => some Status.uninit
    | some { ownership := .moved, .. } => some Status.moved
    | _ => none
  match lacking with
  | some status => status
  | none =>
    if (s.movedUnder? x.container).isSome then .moved
    else
      match s.cells.get? x with
      | none => .owned
      | some cell => cell.status

/-- The number of shared loans of `x`. -/
def sharers (s : Store) (x : Place) : Nat :=
  match s.cells.get? x with
  | none => 0
  | some cell => cell.shared.length

/-- Why `x` cannot be used because of the place `y` that contains it. -/
def lackingWithin? (s : Store) (x y : Place) : Option Violation :=
  match s.cells.get? y with
  | some { ownership := .moved, movedAt, .. } => some (.movedOut x movedAt y)
  | some { ownership := .uninit, .. } => some (.uninit x)
  | _ => none

/-- Why `x` cannot be used because of a part of the container it reaches. -/
def lackingUnder? (s : Store) (x : Place) : Option Violation :=
  (s.movedUnder? x.container).map fun e => .movedOut x e.2.movedAt e.1

/-- Why `x` cannot be used: a place that contains it has no value, or a part of the container it
reaches has none. -/
def lacking? (s : Store) (x : Place) : Option Violation :=
  match x.trail.findSome? (s.lackingWithin? x) with
  | some v => some v
  | none => s.lackingUnder? x

/-- Stops unless `x` can be used. -/
def ensureValue (s : Store) (x : Place) : Except Fault Unit :=
  refuse (s.lacking? x)

/-- Reads `x`, which is lent as `liens` say: none of them may be exclusive. -/
def read (s : Store) (x : Place) (liens : List Lien) : Except Fault Unit := do
  s.ensureValue x
  refuse ((liens.find? (·.kind.isExclusive)).map (.lentOut x))

/-- The cell of `x`, which is idle if there is none. -/
def cell (s : Store) (x : Place) : Cell :=
  (s.cells.get? x).getD {}

/-- Sets the ownership of `x`. -/
def own (s : Store) (x : Place) (o : Ownership) : Store :=
  { s with cells := s.cells.put x { s.cell x with ownership := o } }

/-- Takes the value of `x` away, and notes that this was at `p`. -/
def drain (s : Store) (x : Place) (p : Point) : Store :=
  { s with cells := s.cells.put x { s.cell x with ownership := .moved, movedAt := some p } }

/-- Moves the value of `x` out at `p`; it may not be lent. -/
def vacate (s : Store) (x : Place) (p : Point) (liens : List Lien) : Except Fault Store := do
  s.ensureValue x
  refuse (liens.head?.map (.moveWhileLent x))
  return s.drain x p

/-- Gives the variable `x` its first value. -/
def fill (s : Store) (x : Place) : Except Fault Store :=
  match s.cells.get? x with
  | some { ownership := .uninit, .. } => .ok (s.own x .owned)
  | _ => refuseFlaw (.notUninit (some x))

/-- Gives the variable `x` its first value; a place that is missing waits for none. -/
def fill? (s : Store) (x : Option Place) : Except Fault Store :=
  match x with
  | none => refuseFlaw (.notUninit none)
  | some x => s.fill x

/-- Why a part `x` of the place `y` cannot be written. -/
def unwritableWithin? (s : Store) (x y : Place) : Option Violation :=
  match s.cells.get? y with
  | some { ownership := .moved, movedAt, .. } => some (.movedOut x movedAt y)
  | some { ownership := .uninit, .. } => some (.partOfUninit x)
  | _ => none

/-- Everything at and under `x` has a value again; parts about which there is nothing else to say
lose their cell. -/
def restore (s : Store) (x : Place) : Store :=
  let renew (e : Place × Cell) : Option (Place × Cell) :=
    if x.isPrefixOf e.1 then
      let cell := { e.2 with ownership := .owned, movedAt := none }
      if !e.1.same x && cell.isIdle then none else some (e.1, cell)
    else
      some e
  { s with cells := { toList := s.cells.toList.filterMap renew } }.own x .owned

/-- Gives `x` a new value; what contains it needs one already, and it may not be lent. -/
def overwrite (s : Store) (x : Place) (liens : List Lien) : Except Fault Store := do
  refuse (x.enclosing.findSome? (s.unwritableWithin? x))
  refuse (liens.head?.map (.writeWhileLent x))
  return s.restore x

/-! ### Loans -/

/-- Notes that `x` is lent by the loan `id`, if it is local storage. -/
def encumber (s : Store) (x : Place) (kind : BorrowKind) (id : Int) : Store :=
  if s.isLocal x then { s with cells := s.cells.put x ((s.cell x).encumber kind id) } else s

/-- Strikes the loan `id` of `x`; a part about which there is nothing else to say loses its cell. -/
def discharge (s : Store) (x : Place) (id : Int) : Store :=
  match s.cells.get? x with
  | none => s
  | some cell =>
    let cell := cell.discharge id
    if !x.isRoot && cell.isIdle then { s with cells := s.cells.erase x }
    else { s with cells := s.cells.put x cell }

end Store

end BorrowCheck
