import BorrowCheck.Listing

/-!
# Drafts of functions

A **draft** is a function under construction: operations are added one after the other and
numbered by consecutive points. Places and types are given as they are written in a listing.
-/

namespace BorrowCheck

/-- A function under construction; `next` is the point of the next operation. -/
structure Draft where
  name : String := "main"
  params : List Param := []
  ops : List Operation := []
  next : Point := 0

namespace Draft

/-- A draft without operations. -/
def begin (name : String) (params : List (String × String)) (start : Point) :
    Except Listing.Refusal Draft := do
  let params ← params.mapM fun p => do
    return { name := p.1, ty := ← Ty.parse p.2 : Param }
  return { name, params, next := start }

/-- The point of the last operation. -/
def last (d : Draft) : Point :=
  d.next - 1

/-- Adds the operation that `op` gives at the next point. -/
def add (d : Draft) (op : Point → Operation) : Draft :=
  { d with ops := d.ops ++ [op d.next], next := d.next + 1 }

/-- Adds a declaration. -/
def declare (d : Draft) (name ty : String) : Except Listing.Refusal Draft := do
  let x ← Place.parse name
  let t ← Ty.parse ty
  return d.add fun p => .declare p x t

/-- Adds an assignment. -/
def assign (d : Draft) (target : String) (sources : List String) :
    Except Listing.Refusal Draft := do
  let x ← Place.parse target
  let ys ← sources.mapM Place.parse
  return d.add fun p => .assign p x ys

/-- Adds a move. -/
def move (d : Draft) (target source : String) : Except Listing.Refusal Draft := do
  let x ← Place.parse target
  let y ← Place.parse source
  return d.add fun p => .move p x y

/-- Adds a borrow. -/
def borrow (d : Draft) (kind : BorrowKind) (target source : String) :
    Except Listing.Refusal Draft := do
  let x ← Place.parse target
  let y ← Place.parse source
  return d.add fun p => .borrow p kind x y

/-- Adds a use through a reference. -/
def deref (d : Draft) (source : String) : Except Listing.Refusal Draft := do
  let y ← Place.parse source
  return d.add fun p => .deref p y

/-- Adds a use. -/
def use (d : Draft) (source : String) : Except Listing.Refusal Draft := do
  let y ← Place.parse source
  return d.add fun p => .use p y

/-- An argument of a call that is added: one that is given already, or a place to be passed by
value. -/
inductive Argument where
  | given (arg : Arg)
  | byValue (place : String)

/-- The argument of the call. -/
def Argument.read : Argument → Except Listing.Refusal Arg
  | given arg => .ok arg
  | byValue place => do return { place := ← Place.parse place }

/-- Adds a call. -/
def call (d : Draft) (callee : String) (args : List Argument) (result : Option String) :
    Except Listing.Refusal Draft := do
  let args ← args.mapM Argument.read
  let x ← result.mapM Place.parse
  return d.add fun p => .call p callee args x

/-- Adds a return. -/
def ret (d : Draft) (source : Option String) : Except Listing.Refusal Draft := do
  let y ← source.mapM Place.parse
  return d.add fun p => .ret p y

/-- Adds the opening of a block. -/
def enter (d : Draft) : Draft :=
  d.add .enter

/-- Adds the closing of a block. -/
def exit (d : Draft) : Draft :=
  d.add .exit

/-- The function as drafted so far. -/
def function (d : Draft) : Function :=
  { name := d.name, params := d.params, ops := d.ops }

end Draft

end BorrowCheck
