import BorrowCheck.Span

/-!
# Diagnostics

The form of a finding that a terminal or an editor shows.
-/

namespace BorrowCheck

/-- A **diagnostic**: a message with a code, a place in a file and notes. -/
structure Diagnostic where
  message : String
  code : String
  phase : String := "borrowcheck"
  severity : String := "error"
  span : Span := {}
  notes : List String := []

namespace Diagnostic

/-- Where the diagnostic belongs: file, line and, if it is known, column, with colons between
them. It is empty without a line; a file without a name is called `<listing>`. -/
def location (d : Diagnostic) : String :=
  match d.span.line with
  | none => ""
  | some line =>
    let file := d.span.file.getD ""
    let head := (if file.isEmpty then "<listing>" else file) ++ ":" ++ toString line
    match d.span.column with
    | none => head
    | some column => head ++ ":" ++ toString column

/-- The diagnostic on one line. -/
def text (d : Diagnostic) : String :=
  let head := if d.location.isEmpty then "" else d.location ++ ": "
  head ++ d.severity ++ "[" ++ d.code ++ "]: " ++ d.message

end Diagnostic

end BorrowCheck
