import BorrowCheck.Text.Digits
import BorrowCheck.Walk

/-!
# Verdicts and reports

Every function gets one **verdict**: it is accepted, or rejected with the finding of its first
violation. The verdicts on a program, in the order of its functions, are its **report**. A
`BorrowCheck.Docket` collects verdicts and refuses a second one on the same function.
-/

namespace BorrowCheck

/-- The verdict on a function. -/
inductive Verdict where
  | accepted (function : String)
  | rejected (function : String) (finding : Finding)

namespace Verdict

/-- The function that the verdict is on. -/
def function : Verdict → String
  | accepted name => name
  | rejected name _ => name

/-- The finding of a rejection. -/
def finding? : Verdict → Option Finding
  | accepted _ => none
  | rejected _ finding => some finding

/-- Whether the function is accepted. -/
def ok (v : Verdict) : Bool :=
  v.finding?.isNone

end Verdict

/-- Why there is no report. -/
inductive ReportError where
  /-- A walk met a borrow at `point` that the survey of the function does not know. -/
  | unrecorded (borrower source : Option Place) (point : Point)
  /-- A finding shows an operation of whose kind only a name was given. -/
  | bareName
  /-- A finding shows a number that has too many digits to be written. -/
  | longNumber
  /-- Two verdicts on one function. -/
  | reportedTwice (function : String)

/-- The words for an error. -/
def ReportError.message : ReportError → String
  | unrecorded borrower source point =>
    "no loan recorded for " ++ partText Place.text borrower ++ " = &" ++
      partText Place.text source ++ " at point " ++ toString point ++ " (collector/walk mismatch)"
  | bareName => "'str' object has no attribute 'value'"
  | longNumber => Text.tooManyDigits none
  | reportedTwice function => "function '" ++ function ++ "' reported twice"

/-- What a stop of a walk through the function with the given name says: a finding, which shows
the operation that it stopped at, or an error. -/
def Walk.Stop.finding (stop : Walk.Stop) (function : String) : Except ReportError Finding :=
  match stop.fault with
  | .unrecorded borrower source => .error (.unrecorded borrower source stop.point)
  | .violation v =>
    let finding := v.finding function stop.point
    match stop.operation with
    | none => .ok finding
    | some op => .ok { finding with operation := op.text, span := op.span }

/-- The **verdict** on a function. -/
def Function.verdict (f : Function) (policy : Policy) : Except ReportError Verdict :=
  match (f.walk policy).stop with
  | none => .ok (.accepted f.name)
  | some stop => (stop.finding f.name).map (.rejected f.name)

/-! ### Dockets -/

/-- Verdicts on different functions, in the order in which they were entered. -/
structure Docket where
  verdicts : List Verdict := []

namespace Docket

/-- Enters a verdict. -/
def enter (d : Docket) (v : Verdict) : Except ReportError Docket :=
  if d.verdicts.any fun w => w.function = v.function then .error (.reportedTwice v.function)
  else .ok { verdicts := d.verdicts ++ [v] }

end Docket

/-! ### Reports -/

/-- The verdicts on a program. -/
structure Report where
  results : List Verdict := []

namespace Report

/-- Whether all functions are accepted. -/
def ok (r : Report) : Bool :=
  r.results.all Verdict.ok

/-- The names of the rejected functions. -/
def rejected (r : Report) : List String :=
  (r.results.filter fun v => !v.ok).map Verdict.function

/-- The diagnostics of the rejected functions. -/
def diagnostics (r : Report) : List Diagnostic :=
  (r.results.filterMap Verdict.finding?).map Finding.diagnostic

end Report

end BorrowCheck
