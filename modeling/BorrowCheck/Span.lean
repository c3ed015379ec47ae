/-!
# Source ranges

An operation is identified by its point. A **span** is what is known besides about where it was
written; every part of it may be missing.
-/

namespace BorrowCheck

/-- A range of a source file; a part that is not known is `none`. -/
structure Span where
  file : Option String := none
  line : Option Int := none
  column : Option Int := none
  endLine : Option Int := none
  endColumn : Option Int := none
deriving DecidableEq

/-- What a reader knows of the text that one construct covers; `empty` when it covers none. -/
structure Extent where
  empty : Bool := true
  line : Option Int := none
  column : Option Int := none
  endLine : Option Int := none
  endColumn : Option Int := none

namespace Span

/-- The span of a construct in `file`: without an extent, or with an empty one, only the file is
known. -/
def ofExtent (file : Option String) : Option Extent → Span
  | none => { file }
  | some e =>
    if e.empty then { file }
    else
      { file, line := e.line, column := e.column, endLine := e.endLine, endColumn := e.endColumn }

/-- Whether the span says more than the file. -/
def hasLine (s : Span) : Bool :=
  s.line.isSome

end Span

end BorrowCheck
