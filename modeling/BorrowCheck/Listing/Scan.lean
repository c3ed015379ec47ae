import BorrowCheck.Listing.Token

/-!
# Cutting a listing into tokens

A **scan** is what a listing is for the grammar: its tokens, each with the range of text it
covers, up to the end of the text or up to the first character at which no token begins. Blanks
and comments separate tokens and leave no trace. What comes after a bad character is not looked
at, so a fault of the grammar before it is found first.
-/

namespace BorrowCheck.Listing

/-- A position in a text: the number of characters before it, and its line and column, counted
from 1. -/
structure Pos where
  offset : Nat := 0
  line : Nat := 1
  column : Nat := 1
deriving DecidableEq

namespace Pos

/-- The position after the character `c`; only a line feed begins a new line. -/
def after (p : Pos) (c : Char) : Pos :=
  if c = '\n' then { offset := p.offset + 1, line := p.line + 1, column := 1 }
  else { p with offset := p.offset + 1, column := p.column + 1 }

/-- The position after a row of characters. -/
def afterAll (p : Pos) (cs : List Char) : Pos :=
  cs.foldl after p

end Pos

/-- A token with the range of text it covers; `stop` is the position after its last character. -/
structure Lexeme where
  token : Token
  start : Pos
  stop : Pos
deriving DecidableEq

/-- How a scan ends: with the text, or before a character at which no token begins. -/
inductive Ending where
  | text
  | bad (pos : Pos)
deriving DecidableEq

/-- The tokens of a text and the reason why there are no more. -/
structure Scan where
  lexemes : List Lexeme
  ending : Ending

/-- Whether a character separates tokens. -/
def isSpace (c : Char) : Bool :=
  c = ' ' || c = '\t' || c = '\x0c' || c = '\r' || c = '\n'

/-- Scans the text from position `p` on; its first `skip` characters belong to the token or
comment before. -/
def scanFrom : (skip : Nat) → Pos → List Char → Scan
  | _, _, [] => { lexemes := [], ending := .text }
  | skip + 1, p, c :: cs => scanFrom skip (p.after c) cs
  | 0, p, c :: cs =>
    if isSpace c then scanFrom 0 (p.after c) cs
    else if c = '#' then scanFrom (cs.takeWhile (· ≠ '\n')).length (p.after c) cs
    else match Token.read? c cs with
      | none => { lexemes := [], ending := .bad p }
      | some (token, more) =>
        let rest := scanFrom more (p.after c) cs
        let stop := p.afterAll (c :: cs.take more)
        { rest with lexemes := { token, start := p, stop } :: rest.lexemes }

/-- The scan of a whole text. -/
def scan (text : String) : Scan :=
  scanFrom 0 {} text.toList

end BorrowCheck.Listing
