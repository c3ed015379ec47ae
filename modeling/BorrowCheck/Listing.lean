import BorrowCheck.Listing.Fault
import BorrowCheck.Listing.Grammar

/-!
# Reading listings

`BorrowCheck.Program.parse` reads a whole listing. A fault is reported at the first token that no
listing can have at its place, or at the first bad character when the tokens before it could go
on; when the text ends too early, at the start of its last token. Only a listing without such a
fault is searched for two functions of one name.

The numbers of a listing get their values function by function, and a row of digits can be too
long for that (`BorrowCheck.Text.maxDigits`). `BorrowCheck.Program.read` also refuses a listing for
such a row, unless a fault comes first.

A single place or type is read by putting it into a small listing, so it is read, and refused,
exactly as there.
-/

namespace BorrowCheck

namespace Listing

/-- Where a reader that failed with the tokens `rest` is stuck: at the first of them, else where
the scan ended, which at the end of the text is the start of the last token. -/
def stuckAt (s : Scan) : (rest : List Lexeme) → Pos
  | t :: _ => t.start
  | [] =>
    match s.ending with
    | .bad pos => pos
    | .text => (s.lexemes.getLast?.map Lexeme.start).getD {}

/-- The fault of a text that cannot go on at `pos`. -/
def unexpectedAt (text : String) (pos : Pos) : Fault :=
  .unexpected pos (context text pos.offset)

/-- The first function that has the name of an earlier one or one of the names `seen`. -/
def firstRepeated? (seen : List String) : List (Pos × Function) → Option (Pos × Function)
  | [] => none
  | f :: fs => if seen.contains f.2.name then some f else firstRepeated? (f.2.name :: seen) fs

/-- The number of digits that a token has. -/
def Lexeme.digits (t : Lexeme) : Nat :=
  match t.token with
  | .number _ => t.stop.offset - t.start.offset
  | _ => 0

/-- The length of the first row of digits that is too long. -/
def longNumber? (ts : List Lexeme) : Option Nat :=
  (ts.map Lexeme.digits).find? fun n => Text.maxDigits < n

/-- The tokens up to the end of the function that begins at `pos`. -/
def throughFunction (pos : Pos) (ts : List Lexeme) : List Lexeme :=
  ts.takeWhile fun t => !(t.token = .keyword .function && pos.offset < t.start.offset)

/-- Why a text gives no program. -/
inductive Refusal where
  /-- It is not a listing. -/
  | fault (fault : Fault)
  /-- A number in it has too many digits. -/
  | longNumber (digits : Nat)
deriving DecidableEq

/-- The message of a refusal. -/
def Refusal.message : Refusal → String
  | fault f => f.message
  | longNumber digits => Text.tooManyDigits digits

/-- The outcome, unless one of the tokens is a row of digits that is too long. -/
def unlessLong (ts : List Lexeme) (outcome : Except Refusal Program) : Except Refusal Program :=
  match longNumber? ts with
  | some digits => .error (.longNumber digits)
  | none => outcome

theorem unlessLong_eq_ok_iff {ts : List Lexeme} {outcome : Except Refusal Program}
    {program : Program} :
    unlessLong ts outcome = .ok program ↔
      outcome = .ok program ∧ ∀ t ∈ ts, t.digits ≤ Text.maxDigits := by
  have hlong : longNumber? ts = none ↔ ∀ t ∈ ts, t.digits ≤ Text.maxDigits := by
    simp [longNumber?]
  rw [← hlong]
  unfold unlessLong
  split <;> simp [*]

/-- Replaces each carriage return, with the line feed after it if there is one, by a line feed. -/
def unifyLineEnds : List Char → List Char
  | '\r' :: '\n' :: cs => '\n' :: unifyLineEnds cs
  | '\r' :: cs => '\n' :: unifyLineEnds cs
  | c :: cs => c :: unifyLineEnds cs
  | [] => []

end Listing

open Listing in
/-- Reads a listing; `file` is the name that the spans carry. -/
def Program.parse (text : String) (file : Option String := none) : Except Listing.Fault Program :=
  let s := scan text
  match readFunctions file s.lexemes with
  | .error rest => .error (unexpectedAt text (stuckAt s rest))
  | .ok functions =>
    match s.ending with
    | .bad pos => .error (unexpectedAt text pos)
    | .text =>
      match firstRepeated? [] functions with
      | some (pos, f) => .error (.duplicate pos f.name)
      | none => .ok { functions := functions.map (·.2) }

open Listing in
/-- Reads a listing and gives its numbers their values, function by function. That a function has
the name of an earlier one is noticed after its own numbers. -/
def Program.read (text : String) (file : Option String := none) : Except Refusal Program :=
  let ts := (scan text).lexemes
  match Program.parse text file with
  | .error (.unexpected pos context) => .error (.fault (.unexpected pos context))
  | .error (.duplicate pos name) =>
    unlessLong (throughFunction pos ts) (.error (.fault (.duplicate pos name)))
  | .ok program => unlessLong ts (.ok program)

open Listing in
/-- The programs that are read are those of listings without a row of digits that is too long. -/
theorem Program.read_eq_ok_iff {text : String} {file : Option String} {program : Program} :
    Program.read text file = .ok program ↔
      Program.parse text file = .ok program ∧
        ∀ t ∈ (scan text).lexemes, t.digits ≤ Text.maxDigits := by
  unfold Program.read
  split
  next hparse => simp [hparse]
  next hparse => simp [hparse, unlessLong_eq_ok_iff]
  next hparse => simp [hparse, unlessLong_eq_ok_iff]

/-- Reads the listing that a file contains; line ends of any convention count as line feeds. -/
def Program.ofFile (file contents : String) : Except Listing.Refusal Program :=
  Program.read (String.ofList (Listing.unifyLineEnds contents.toList)) (some file)

/-- Reads a place: the first place of the listing in which `text` is used as one. -/
def Place.parse (text : String) : Except Listing.Refusal Place := do
  let program ← Program.read ("fn _p() \x7b 0: use " ++ text ++ " \x7d")
  let found := do
    let f ← program.functions.head?
    let op ← f.ops.head?
    op.source
  return found.getD { base := text }

/-- Reads a type: the type of the first parameter of the listing in which `text` stands for it. -/
def Ty.parse (text : String) : Except Listing.Refusal Ty := do
  let program ← Program.read ("fn _t(x: " ++ text ++ ") \x7b \x7d")
  let found := do
    let f ← program.functions.head?
    let p ← f.params.head?
    some p.ty
  return found.getD Ty.unknown

end BorrowCheck
