import BorrowCheck.Listing.Scan
import BorrowCheck.Program

/-!
# The grammar of listings

Each function of this file reads one construct from the front of a list of tokens:

    listing   function*
    function  fn NAME ( [param (, param)*] ) { op* }
    param     NAME : type
    op        INT : statement
    statement declare place : type | assign place [= place (, place)*] | move place = place
            | borrow place = & [mut] place | deref place | use place
            | call NAME ( [arg (, arg)*] ) [-> place] | return [place] | enter | exit
    arg       & [mut] place | place
    place     * place | base proj*
    base      NAME | ( place )
    proj      . NAME | [ INT ] | [ NAME ]
    type      & [mut] type | NAME [< type (, type)* >]

One token of lookahead always decides, and a token is only taken when some listing goes on with
it. So when a construct fails, what is left of the tokens begins with the first one that no
listing can have there: that rest is the failure.

The numbers that bound the recursion are the numbers of tokens there are: each round takes one.
-/

namespace BorrowCheck.Listing

/-- A reader of one construct: it takes tokens from the front, or fails with the tokens from the
first impossible one on. -/
abbrev Reads (α : Type) := StateT (List Lexeme) (Except (List Lexeme)) α

namespace Reads

/-- Fails at the next token. -/
def fail {α : Type} : Reads α :=
  fun ts => .error ts

/-- The next token. -/
def peek : Reads (Option Token) :=
  fun ts => .ok (ts.head?.map Lexeme.token, ts)

/-- Takes the next token, whatever it is. -/
def skip : Reads Unit :=
  fun ts => .ok ((), ts.tail)

/-- Takes the next token, which has to be `t`. -/
def token (t : Token) : Reads Unit := do
  if (← peek) = some t then skip else fail

/-- Takes the next token if it is `t`, and tells whether it was. -/
def token? (t : Token) : Reads Bool := do
  if (← peek) = some t then
    skip
    return true
  else
    return false

/-- Takes a name. -/
def name : Reads String := do
  match ← peek with
  | some (.name text) =>
    skip
    return text
  | _ => fail

/-- Takes a number. -/
def number : Reads Nat := do
  match ← peek with
  | some (.number value) =>
    skip
    return value
  | _ => fail

/-- The number of tokens that are left. -/
def left : Reads Nat :=
  fun ts => .ok (ts.length, ts)

/-- Reads further items, each after a comma. -/
def moreItems {α : Type} (item : Reads α) : Nat → Reads (List α)
  | 0 => fail
  | bound + 1 => do
    if ← token? .comma then
      let a ← item
      return a :: (← moreItems item bound)
    else
      return []

/-- Reads one item or more, with commas between them. -/
def items {α : Type} (item : Reads α) : Reads (List α) := do
  let a ← item
  return a :: (← moreItems item ((← left) + 1))

/-- Reads what stands up to the closing token: nothing, or items with commas between them. -/
def itemsUntil {α : Type} (close : Token) (item : Reads α) : Reads (List α) := do
  if ← token? close then
    return []
  else
    let list ← items item
    token close
    return list

/-- Reads an optional `mut`. -/
def borrowKind : Reads BorrowKind := do
  if ← token? (.keyword .mutable) then return .exclusive else return .shared

/-! ### Places -/

/-- Reads the projections that follow `x`. -/
def projections : Nat → Place → Reads Place
  | 0, _ => fail
  | bound + 1, x => do
    match ← peek with
    | some .dot =>
      skip
      projections bound (x.append [.field (← name)])
    | some .leftBracket =>
      skip
      match ← peek with
      | some (.number value) =>
        skip
        token .rightBracket
        projections bound (x.append [.index value])
      | some (.name label) =>
        skip
        token .rightBracket
        projections bound (x.append [.any (some label)])
      | _ => fail
    | _ => return x

/-- Reads a place of at most `bound` tokens. -/
def placeWithin : Nat → Reads Place
  | 0 => fail
  | bound + 1 => do
    match ← peek with
    | some .star =>
      skip
      return (← placeWithin bound).deref
    | some .leftParen =>
      skip
      let x ← placeWithin bound
      token .rightParen
      projections ((← left) + 1) x
    | some (.name base) =>
      skip
      projections ((← left) + 1) { base }
    | _ => fail

/-- Reads a place. -/
def place : Reads Place := do
  placeWithin ((← left) + 1)

/-! ### Types -/

/-- Reads a type of at most `bound` tokens. -/
def typeWithin : Nat → Reads Ty
  | 0 => fail
  | bound + 1 => do
    match ← peek with
    | some .ampersand =>
      skip
      let kind ← borrowKind
      return (← typeWithin bound).refTo kind
    | some (.name text) =>
      skip
      if ← token? .leftAngle then
        let args ← items (typeWithin bound)
        token .rightAngle
        return Ty.named text args
      else
        return Ty.named text
    | _ => fail

/-- Reads a type. -/
def type : Reads Ty := do
  typeWithin ((← left) + 1)

/-! ### Statements -/

/-- Reads an argument of a call. -/
def arg : Reads Arg := do
  if ← token? .ampersand then
    let kind ← borrowKind
    return { place := ← place, mode := .lend kind }
  else
    return { place := ← place }

/-- Whether a place can begin with the token. -/
def startsPlace : Option Token → Bool
  | some .star => true
  | some .leftParen => true
  | some (.name _) => true
  | _ => false

/-- The reader of what follows the keyword of a statement at point `p`, if a statement can begin
with it. The operation has no span yet. -/
def statement (p : Point) : Keyword → Option (Reads Operation)
  | .declare => some do
    let x ← place
    token .colon
    return .declare p x (← type)
  | .assign => some do
    let x ← place
    if ← token? .equals then
      return .assign p x (← items place)
    else
      return .assign p x []
  | .move => some do
    let x ← place
    token .equals
    return .move p x (← place)
  | .borrow => some do
    let x ← place
    token .equals
    token .ampersand
    let kind ← borrowKind
    return .borrow p kind x (← place)
  | .deref => some do return .deref p (← place)
  | .use => some do return .use p (← place)
  | .call => some do
    let callee ← name
    token .leftParen
    let args ← itemsUntil .rightParen arg
    if ← token? .arrow then
      return .call p callee args (some (← place))
    else
      return .call p callee args none
  | .ret => some do
    if startsPlace (← peek) then
      return .ret p (some (← place))
    else
      return .ret p none
  | .enter => some do return .enter p
  | .exit => some do return .exit p
  | .function => none
  | .mutable => none

/-- The span from the first of `before` to the last token that is not in `after` any more. -/
def spanOf (file : Option String) (before after : List Lexeme) : Span :=
  match before.head?, before[before.length - after.length - 1]? with
  | some first, some last =>
    { file, line := some first.start.line, column := some first.start.column,
      endLine := some last.stop.line, endColumn := some last.stop.column }
  | _, _ => { file }

/-- Reads an operation with its point. -/
def operation (file : Option String) : Reads Operation := do
  let before ← get
  let p ← number
  token .colon
  match ← peek with
  | some (.keyword word) =>
    match statement p word with
    | some body =>
      skip
      let op ← body
      return { op with span := spanOf file before (← get) }
    | none => fail
  | _ => fail

/-- Reads the operations of a body: as long as a number comes next. -/
def operations (file : Option String) : Nat → Reads (List Operation)
  | 0 => fail
  | bound + 1 => do
    match ← peek with
    | some (.number _) =>
      let op ← operation file
      return op :: (← operations file bound)
    | _ => return []

/-! ### Functions -/

/-- Reads a parameter. -/
def param : Reads Param := do
  let text ← name
  token .colon
  return { name := text, ty := ← type }

/-- Reads a function, with the position at which it begins. -/
def function (file : Option String) : Reads (Pos × Function) := do
  let before ← get
  token (.keyword .function)
  let text ← name
  token .leftParen
  let params ← itemsUntil .rightParen param
  token .leftBrace
  let ops ← operations file ((← left) + 1)
  token .rightBrace
  let start := before.head?.map Lexeme.start
  return (start.getD {}, { name := text, params, ops })

/-- Reads functions up to the last token. -/
def functions (file : Option String) : Nat → Reads (List (Pos × Function))
  | 0 => fail
  | bound + 1 => do
    if (← peek).isNone then
      return []
    else
      let f ← function file
      return f :: (← functions file bound)

end Reads

/-- The functions that a list of tokens writes, each with the position at which it begins, or the
tokens from the first impossible one on. -/
def readFunctions (file : Option String) (ts : List Lexeme) :
    Except (List Lexeme) (List (Pos × Function)) :=
  (Reads.functions file (ts.length + 1) ts).map (·.1)

end BorrowCheck.Listing
