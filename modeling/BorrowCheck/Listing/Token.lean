import BorrowCheck.Text.Digits

/-!
# Tokens of a listing

A listing is made of names, numbers, keywords and punctuation marks. A keyword is reserved: a word
that is one is never a name. This file tells the tokens apart and reads the one at the front of a
text; `BorrowCheck.Listing.Scan` cuts a whole text into them.
-/

namespace BorrowCheck.Listing

/-- The reserved words. -/
inductive Keyword where
  | function
  | declare
  | assign
  | move
  | borrow
  | mutable
  | deref
  | use
  | call
  | ret
  | enter
  | exit
deriving DecidableEq

namespace Keyword

/-- All reserved words. -/
def all : List Keyword :=
  [function, declare, assign, move, borrow, mutable, deref, use, call, ret, enter, exit]

/-- How a reserved word is written. -/
def text : Keyword → String
  | function => "fn"
  | declare => "declare"
  | assign => "assign"
  | move => "move"
  | borrow => "borrow"
  | mutable => "mut"
  | deref => "deref"
  | use => "use"
  | call => "call"
  | ret => "return"
  | enter => "enter"
  | exit => "exit"

/-- The reserved word that `word` is, if it is one. -/
def ofWord? (word : String) : Option Keyword :=
  all.find? fun k => k.text = word

end Keyword

/-- A **token**. -/
inductive Token where
  | name (text : String)
  | number (value : Nat)
  | keyword (word : Keyword)
  | leftParen
  | rightParen
  | leftBrace
  | rightBrace
  | leftAngle
  | rightAngle
  | leftBracket
  | rightBracket
  | comma
  | colon
  | equals
  | ampersand
  | star
  | dot
  | arrow
deriving DecidableEq

namespace Token

/-! ### Words and numbers -/

/-- Whether a name or keyword can begin with the character. -/
def isWordStart (c : Char) : Bool :=
  c.isAlpha || c = '_'

/-- Whether a name or keyword can go on with the character. -/
def isWordRest (c : Char) : Bool :=
  c.isAlphanum || c = '_'

/-- The token that a whole word is. -/
def ofWord (word : String) : Token :=
  match Keyword.ofWord? word with
  | some k => keyword k
  | none => name word

/-- The number that a row of decimal digits writes. -/
def ofDigits (digits : List Char) : Token :=
  number (Text.valueOf digits)

/-- The punctuation mark that consists of one character. -/
def ofMark? : Char → Option Token
  | '(' => some leftParen
  | ')' => some rightParen
  | '\x7b' => some leftBrace
  | '\x7d' => some rightBrace
  | '<' => some leftAngle
  | '>' => some rightAngle
  | '[' => some leftBracket
  | ']' => some rightBracket
  | ',' => some comma
  | ':' => some colon
  | '=' => some equals
  | '&' => some ampersand
  | '*' => some star
  | '.' => some dot
  | _ => none

/-- The token that a text beginning with `c` begins with, and the number of characters it takes
after `c`. Words and numbers extend as far as they can. -/
def read? (c : Char) (cs : List Char) : Option (Token × Nat) :=
  if isWordStart c then
    let rest := cs.takeWhile isWordRest
    some (ofWord (String.ofList (c :: rest)), rest.length)
  else if c.isDigit then
    let rest := cs.takeWhile Char.isDigit
    some (ofDigits (c :: rest), rest.length)
  else if c = '-' then
    if cs.head? = some '>' then some (arrow, 1) else none
  else
    (ofMark? c).map fun t => (t, 0)

end Token

end BorrowCheck.Listing
