import BorrowCheck.Place
import BorrowCheck.Span
import BorrowCheck.Ty

/-!
# Operations

A function body is a list of lowered operations, each at a program point. An
`BorrowCheck.Operation` is kept as its producer handed it over: a kind and all parts that a kind
may use, of which some may be missing and others present without need. What an operation *does* is
an `BorrowCheck.Action`, which has exactly the parts that its kind needs;
`BorrowCheck.Operation.action` finds it, or the flaw that makes the operation meaningless.
-/

namespace BorrowCheck

/-- The names of the kinds of operations. -/
def kindNames : List String :=
  ["declare", "assign", "move", "borrow_shared", "borrow_exclusive", "deref", "use", "call",
    "return", "enter", "exit"]

/-- The kinds of operations. A producer may also hand over a kind that the checker does not know,
which is a word other than the names of those that it does. -/
inductive OpKind where
  | declare
  | assign
  | move
  | borrow (kind : BorrowKind)
  | deref
  | use
  | call
  | ret
  | enter
  | exit
  | unknown (tag : { word : String // word ∉ kindNames })
deriving DecidableEq

namespace OpKind

/-- The name of a kind. -/
def text : OpKind → String
  | declare => "declare"
  | assign => "assign"
  | move => "move"
  | borrow .shared => "borrow_shared"
  | borrow .exclusive => "borrow_exclusive"
  | deref => "deref"
  | use => "use"
  | call => "call"
  | ret => "return"
  | enter => "enter"
  | exit => "exit"
  | unknown tag => tag

/-- The kind with the given name. -/
def named (word : String) : OpKind :=
  if h : word ∈ kindNames then
    match word with
    | "declare" => .declare
    | "assign" => .assign
    | "move" => .move
    | "borrow_shared" => .borrow .shared
    | "borrow_exclusive" => .borrow .exclusive
    | "deref" => .deref
    | "use" => .use
    | "call" => .call
    | "return" => .ret
    | "enter" => .enter
    | _ => .exit
  else
    .unknown ⟨word, h⟩

end OpKind

/-- How a call receives an argument: by value, or as a reference that lasts for the call. -/
inductive Mode where
  | value
  | lend (kind : BorrowKind)
deriving DecidableEq

/-- The name of a mode. -/
def Mode.text : Mode → String
  | value => "value"
  | lend kind => kind.text

/-- An argument of a call. -/
structure Arg where
  place : Place
  mode : Mode := .value
deriving DecidableEq

/-- The argument as it is written in a listing. -/
def Arg.text (a : Arg) : String :=
  match a.mode with
  | .value => a.place.text
  | .lend kind => kind.mark ++ a.place.text

/-- One **operation** as its producer handed it over. -/
structure Operation where
  point : Point
  kind : OpKind
  target : Option Place := none
  sources : List Place := []
  args : List Arg := []
  callee : Option String := none
  ty : Option Ty := none
  span : Span := {}
deriving DecidableEq

namespace Operation

/-- The place that a kind with a single source works on. -/
def source (op : Operation) : Option Place :=
  op.sources.head?

/-! ### One constructor for each kind -/

/-- `declare x: t` -/
def declare (p : Point) (x : Place) (t : Ty) (span : Span := {}) : Operation :=
  { point := p, kind := .declare, target := x, ty := t, span }

/-- `assign x = s, …` reads the sources and gives `x` a fresh value. -/
def assign (p : Point) (x : Place) (sources : List Place) (span : Span := {}) : Operation :=
  { point := p, kind := .assign, target := x, sources, span }

/-- `move x = s` -/
def move (p : Point) (x s : Place) (span : Span := {}) : Operation :=
  { point := p, kind := .move, target := x, sources := [s], span }

/-- `borrow x = &s` or `borrow x = &mut s` -/
def borrow (p : Point) (kind : BorrowKind) (x s : Place) (span : Span := {}) : Operation :=
  { point := p, kind := .borrow kind, target := x, sources := [s], span }

/-- `deref s` -/
def deref (p : Point) (s : Place) (span : Span := {}) : Operation :=
  { point := p, kind := .deref, sources := [s], span }

/-- `use s` -/
def use (p : Point) (s : Place) (span : Span := {}) : Operation :=
  { point := p, kind := .use, sources := [s], span }

/-- `call f(a, …)` or `call f(a, …) -> x` -/
def call (p : Point) (callee : String) (args : List Arg) (result : Option Place)
    (span : Span := {}) : Operation :=
  { point := p, kind := .call, target := result, args, callee, span }

/-- `return` or `return s` -/
def ret (p : Point) (s : Option Place) (span : Span := {}) : Operation :=
  { point := p, kind := .ret, sources := s.toList, span }

/-- `enter` opens a block. -/
def enter (p : Point) (span : Span := {}) : Operation :=
  { point := p, kind := .enter, span }

/-- `exit` closes the innermost block. -/
def exit (p : Point) (span : Span := {}) : Operation :=
  { point := p, kind := .exit, span }

/-! ### The written form -/

/-- The operation as it is written in a listing, without its point; a missing part is written
`None`, and an operation of an unknown kind is only named. -/
def text (op : Operation) : String :=
  let target := partText Place.text op.target
  let source := partText Place.text op.source
  match op.kind with
  | .declare => "declare " ++ target ++ ": " ++ partText Ty.text op.ty
  | .assign =>
    if op.sources.isEmpty then "assign " ++ target
    else "assign " ++ target ++ " = " ++ ", ".intercalate (op.sources.map Place.text)
  | .move => "move " ++ target ++ " = " ++ source
  | .borrow kind => "borrow " ++ target ++ " = " ++ kind.mark ++ source
  | .deref => "deref " ++ source
  | .use => "use " ++ source
  | .call =>
    let args := ", ".intercalate (op.args.map Arg.text)
    let head := "call " ++ partText id op.callee ++ "(" ++ args ++ ")"
    if op.target.isSome then head ++ " -> " ++ target else head
  | .ret => if op.source.isSome then "return " ++ source else "return"
  | .enter => "enter"
  | .exit => "exit"
  | .unknown tag => tag

end Operation

/-! ### What an operation does -/

/-- The **action** of an operation: its kind with exactly the parts that the kind needs. -/
inductive Action where
  /-- Introduces a variable in the innermost block. -/
  | declare (x : Place) (ty : Ty)
  /-- Reads the sources, then writes a fresh value. -/
  | assign (x : Place) (sources : List Place)
  /-- Moves or copies the value of `s`, then writes it. -/
  | move (x s : Place)
  /-- Borrows `s`, then writes the reference. -/
  | borrow (kind : BorrowKind) (x s : Place)
  /-- Reads through the reference that the holder of `s` holds. -/
  | deref (s : Place)
  /-- Reads `s`. -/
  | use (s : Place)
  /-- Passes the arguments, then writes the result. -/
  | call (args : List Arg) (result : Option Place)
  /-- Ends the function, handing `s` to the caller. -/
  | ret (s : Option Place)
  /-- Opens a block. -/
  | enter
  /-- Closes the innermost block and ends the storage of its variables. -/
  | exit

/-- Why an operation has no action. -/
inductive Operation.Gap where
  | unknownKind (tag : String)
  | noTarget (kind : OpKind)
  | noSource (kind : OpKind)
deriving DecidableEq

namespace Operation

/-- The target, which `op` needs. -/
def getTarget (op : Operation) : Except Gap Place :=
  match op.target with
  | some x => .ok x
  | none => .error (.noTarget op.kind)

/-- The source, which `op` needs. -/
def getSource (op : Operation) : Except Gap Place :=
  match op.source with
  | some s => .ok s
  | none => .error (.noSource op.kind)

/-- What `op` does, or the first part of it that is missing. Parts that its kind does not use are
ignored, and a variable that is declared without a type has an unknown one. -/
def action (op : Operation) : Except Gap Action :=
  match op.kind with
  | .declare => do return .declare (← op.getTarget) (op.ty.getD Ty.unknown)
  | .assign => do return .assign (← op.getTarget) op.sources
  | .move => do return .move (← op.getTarget) (← op.getSource)
  | .borrow kind => do return .borrow kind (← op.getTarget) (← op.getSource)
  | .deref => do return .deref (← op.getSource)
  | .use => do return .use (← op.getSource)
  | .call => .ok (.call op.args op.target)
  | .ret => .ok (.ret op.source)
  | .enter => .ok .enter
  | .exit => .ok .exit
  | .unknown tag => .error (.unknownKind tag)

end Operation

end BorrowCheck
