import BorrowCheck.Verdict

/-!
# Functions as they are handed over

The producer of a function need not keep to what a function can be. In place of the kind of an
operation it may hand over the name of one, and numbers may have any length. This file checks what
it hands over.

The parts of the checker do not agree about a kind of which only the name is given. Where the
survey asks whether a kind is one of several, it compares names, so a name goes for the kind; where
it asks for a single kind, a name is none. The walk takes no name for a kind.

A finding is put into words where the walk stops. A number that has too many digits cannot be
written, and neither can an operation that is a use in name only, because its text asks the kind
what it is called. There is no verdict then (`BorrowCheck.Handover.verdict`).
-/

namespace BorrowCheck

/-- An **operation as it is handed over**. -/
structure Handed extends Operation where
  /-- Whether only the name of the kind was given. An unknown kind is never more than a name. -/
  nameOnly : Bool := false
deriving DecidableEq

/-- A **function as it is handed over**. -/
structure Handover where
  name : String
  params : List Param := []
  ops : List Handed := []
deriving DecidableEq

/-- The function when all kinds are given. -/
def Function.handOver (f : Function) : Handover :=
  { name := f.name, params := f.params, ops := f.ops.map fun op => { toOperation := op } }

/-- The function that is meant when names stand for kinds. -/
def Handover.function (h : Handover) : Function :=
  { name := h.name, params := h.params, ops := h.ops.map Handed.toOperation }

/-! ### The survey -/

namespace Survey

/-- One operation as it is handed over. Whether a borrow is shared is asked of its kind, which a
name is not. -/
def observeHanded (s : Survey) (o : Handed) : Survey :=
  if o.nameOnly then
    match o.kind with
    | .borrow _ =>
      match o.target, o.source with
      | some t, some x => s.lend .exclusive t x o.point
      | _, _ => s
    | .deref | .use | .ret => s.touchAll o.sources o.point
    | _ => s
  else
    s.observe o.toOperation

/-- The survey of a function after its first operations `ops`. -/
def afterHanded (h : Handover) (ops : List Handed) : Survey :=
  ops.foldl observeHanded (h.params.foldl (receive h.function.entry) {})

end Survey

/-! ### The walk -/

/-- One operation as it is handed over. -/
def Handed.step (c : Walk.Context) (s : Walk.State) (o : Handed) : Except Fault Walk.State :=
  match s.returned, o.nameOnly with
  | some q, _ => refuseFlaw (.afterReturn q)
  | none, true => refuseFlaw (.incomplete (.unknownKind o.kind.text))
  | none, false => Walk.step c s o.toOperation

namespace Handover

/-- Where and why a walk stopped; without an operation it did so before the first one. -/
structure Stop where
  fault : Fault
  point : Point
  operation : Option Handed := none

/-- One operation; where it fails, the walk stops. -/
def advance (c : Walk.Context) (s : Walk.State) (o : Handed) : Except Stop Walk.State :=
  (o.step c s).mapError fun fault => { fault, point := o.point, operation := o }

/-- The loans of a function. -/
def book (h : Handover) : LoanBook :=
  (Survey.afterHanded h h.ops).book

/-- What does not change during a walk through `h`. -/
def context (h : Handover) (policy : Policy) : Walk.Context :=
  { policy, book := h.book }

/-- The state before the first operation, once the parameters are declared in `store`. -/
def start (h : Handover) (store : Store) : Walk.State :=
  { toBooks := (Books.openForCaller { store } h.book h.function.entry).1 }

/-- The state that the walk through `h` **reaches** once the operations `ops` are completed. -/
def reach (h : Handover) (policy : Policy) (ops : List Handed) : Except Stop Walk.State := do
  let store ← (Walk.declareParams h.params).mapError fun fault =>
    { fault, point := h.function.entry }
  ops.foldlM (advance (h.context policy)) (h.start store)

/-- The **walk** through a function. -/
def walk (h : Handover) (policy : Policy) : Except Stop Walk.State :=
  match h.function.disorder? with
  | some (point, last) => .error { fault := .violation (.flaw (.pointOrder point last)), point }
  | none => h.reach policy h.ops

end Handover

/-! ### What is written -/

/-- The numbers in the text of a place. -/
def Place.numbers (x : Place) : List Int :=
  x.path.filterMap fun
    | .index value => some value
    | _ => none

/-- The places in the text of an operation. -/
def Operation.shown (op : Operation) : List Place :=
  match op.kind with
  | .declare => op.target.toList
  | .assign => op.target.toList ++ op.sources
  | .move | .borrow _ => op.target.toList ++ op.source.toList
  | .deref | .use | .ret => op.source.toList
  | .call => op.args.map Arg.place ++ op.target.toList
  | .enter | .exit | .unknown _ => []

namespace Handed

/-- Whether the operation is a **use in name only**. -/
def bareUse (o : Handed) : Bool :=
  o.nameOnly && (o.kind = .use || o.kind = .deref)

/-- The text of an operation as it is handed over: of a kind that is only named the name, but of a
use in name only there is none. -/
def text? (o : Handed) : Option String :=
  if o.bareUse then none
  else if o.nameOnly then some o.kind.text
  else some o.toOperation.text

/-- The numbers in the text of an operation. -/
def numbers (o : Handed) : List Int :=
  if o.nameOnly then [] else o.shown.flatMap Place.numbers

end Handed

namespace Violation

/-- The points in the words for a violation at `p`. -/
def pointsShown (v : Violation) (p : Point) : List Point :=
  p :: (v.lien.map (·.origin)).toList ++ v.movePoint.toList ++
    match v with
    | flaw (.pointOrder point last) => [point, last]
    | flaw (.afterReturn point) => [point]
    | _ => []

/-- The places in the words for a violation. -/
def placesShown (v : Violation) : List Place :=
  v.place.toList ++
    match v with
    | reborrowed _ via _ => [via]
    | writeThroughShared _ ref _ => [ref]
    | _ => []

/-- The numbers in the words for a violation at `p`. -/
def numbers (v : Violation) (p : Point) : List Int :=
  v.pointsShown p ++ v.placesShown.flatMap Place.numbers

end Violation

/-! ### Verdicts -/

namespace Handover

/-- What a stop says about the function with the given name: a finding, which shows the operation,
or an error when it cannot be put into words. -/
def Stop.finding (stop : Stop) (function : String) : Except ReportError Finding :=
  match stop.fault with
  | .unrecorded borrower source => .error (.unrecorded borrower source stop.point)
  | .violation v =>
    if (v.numbers stop.point).all Text.fits then
      let finding := v.finding function stop.point
      match stop.operation with
      | none => .ok finding
      | some o =>
        match o.text? with
        | none => .error .bareName
        | some text =>
          if o.numbers.all Text.fits then
            .ok { finding with operation := text, span := o.span }
          else
            .error .longNumber
    else
      .error .longNumber

/-- The **verdict** on a function as it is handed over. -/
def verdict (h : Handover) (policy : Policy) : Except ReportError Verdict :=
  match h.walk policy with
  | .ok _ => .ok (.accepted h.name)
  | .error stop => (stop.finding h.name).map (.rejected h.name)

end Handover

/-- Checks a function and enters the verdict. -/
def Docket.check (d : Docket) (h : Handover) (policy : Policy) :
    Except ReportError (Verdict × Docket) := do
  let v ← h.verdict policy
  return (v, ← d.enter v)

/-- Checks all functions of a program. -/
def Program.check (p : Program) (policy : Policy) : Except ReportError Report := do
  let verdicts ← p.functions.mapM fun f => f.handOver.verdict policy
  let docket ← verdicts.foldlM Docket.enter {}
  return { results := docket.verdicts }

end BorrowCheck
