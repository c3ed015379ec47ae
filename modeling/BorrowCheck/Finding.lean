import BorrowCheck.Diagnostic
import BorrowCheck.Operation

/-!
# Findings

A **finding** is the report of the first violation in a function: the rule, the point, and
whatever is known of the place, the operation, the loan in the way and the move that took the
value.
-/

namespace BorrowCheck

/-- The rules. -/
inductive Rule where
  | useOfMoved
  | useOfUninit
  | useWhileExclusive
  | mutateWhileBorrowed
  | moveWhileBorrowed
  | conflictingBorrow
  | danglingReference
  | malformedProgram
deriving DecidableEq

namespace Rule

/-- All rules. -/
def all : List Rule :=
  [useOfMoved, useOfUninit, useWhileExclusive, mutateWhileBorrowed, moveWhileBorrowed,
    conflictingBorrow, danglingReference, malformedProgram]

/-- The name of a rule. -/
def text : Rule → String
  | useOfMoved => "UseOfMoved"
  | useOfUninit => "UseOfUninitialized"
  | useWhileExclusive => "UseWhileExclusivelyBorrowed"
  | mutateWhileBorrowed => "MutateWhileBorrowed"
  | moveWhileBorrowed => "MoveWhileBorrowed"
  | conflictingBorrow => "ConflictingBorrowKind"
  | danglingReference => "DanglingReference"
  | malformedProgram => "MalformedProgram"

/-- The rule with a name. -/
def ofText? (text : String) : Option Rule :=
  all.find? fun r => r.text = text

/-- The code under which diagnostics list a rule. -/
def code : Rule → String
  | useOfMoved => "E_USE_AFTER_MOVE"
  | useOfUninit => "E_USE_UNINIT"
  | useWhileExclusive => "E_USE_WHILE_MUT_BORROWED"
  | mutateWhileBorrowed => "E_WRITE_WHILE_BORROWED"
  | moveWhileBorrowed => "E_MOVE_WHILE_BORROWED"
  | conflictingBorrow => "E_BORROW_CONFLICT"
  | danglingReference => "E_DANGLING_REF"
  | malformedProgram => "E_MALFORMED_PROGRAM"

/-- Whether the rule keeps the checked program safe; the other rule is a contract with the
producer of the program. -/
def isSafety : Rule → Bool
  | malformedProgram => false
  | _ => true

end Rule

/-- The report of a violation; what does not apply is missing. -/
structure Finding where
  function : String
  rule : Rule
  point : Point
  place : Option Place := none
  /-- The text of the operation. -/
  operation : Option String := none
  loanPoint : Option Point := none
  loanKind : Option String := none
  loanBorrower : Option Place := none
  movePoint : Option Point := none
  movedPlace : Option Place := none
  detail : Option String := none
  span : Span := {}

namespace Finding

/-- The finding in one phrase. -/
def phrase (f : Finding) : String :=
  let place := match f.place with
    | none => ""
    | some x => " on '" ++ x.text ++ "'"
  let loan := match f.loanPoint with
    | none => ""
    | some p =>
      " (conflicting " ++ partText id f.loanKind ++ " loan from point " ++ toString p ++
        ")"
  let move := match f.movePoint with
    | none => ""
    | some p => " (moved at point " ++ toString p ++ ")"
  f.rule.text ++ " at point " ++ toString f.point ++ place ++ loan ++ move

/-- The note on the loan in the way. -/
def loanNote (f : Finding) : Option String :=
  f.loanPoint.map fun p =>
    partText id f.loanKind ++ " borrow by '" ++
      partText Place.text f.loanBorrower ++ "' created at point " ++ toString p

/-- The note on the move that took the value. -/
def moveNote (f : Finding) : Option String :=
  f.movePoint.map fun p =>
    "'" ++ partText Place.text f.movedPlace ++ "' moved at point " ++ toString p

/-- The diagnostic that shows a finding. -/
def diagnostic (f : Finding) : Diagnostic :=
  { message := f.function ++ ": " ++ f.phrase
    code := f.rule.code
    span := f.span
    notes :=
      f.loanNote.toList ++ f.moveNote.toList ++ (f.detail.filter fun text => !text.isEmpty).toList }

end Finding

end BorrowCheck
