import BorrowCheck.Decimal.Written
import BorrowCheck.Json
import BorrowCheck.Text.Digits

/-!
# Reading JSON texts

The usual grammar, with two additions: the words `NaN`, `Infinity` and `-Infinity` are numbers,
and a name may occur twice in an object, the last value counting. A number with a fraction or an
exponent is a floating-point number whatever its value. Control characters inside a string have to
be escaped, and a whole number may not have too many digits (`BorrowCheck.Text.maxDigits`).

The numbers that bound the recursion are the numbers of characters there are: each round takes
one.
-/

namespace BorrowCheck.Json

open Text (CodePoint maxDigits valueOf)

/-- Why a text cannot be read. -/
inductive Fault where
  /-- It is not JSON. -/
  | malformed
  /-- A whole number has too many digits. -/
  | longNumber (digits : Nat)
deriving DecidableEq

/-- A reader of one construct: it takes characters from the front, or fails. -/
abbrev Reads (α : Type) := StateT (List Char) (Except Fault) α

namespace Reads

/-- Whether a character may stand between the parts of a value. -/
def isSpace (c : Char) : Bool :=
  c = ' ' || c = '\t' || c = '\n' || c = '\r'

/-- Fails, because the text is not JSON. -/
def fail {α : Type} : Reads α :=
  fun _ => .error .malformed

/-- Takes blanks. -/
def spaces : Reads Unit :=
  fun cs => .ok ((), cs.dropWhile isSpace)

/-- The next character. -/
def peek : Reads (Option Char) :=
  fun cs => .ok (cs.head?, cs)

/-- Takes the next character, whatever it is. -/
def char : Reads Char
  | [] => .error .malformed
  | c :: cs => .ok (c, cs)

/-- Takes the next character, which has to be `c`. -/
def exactly (c : Char) : Reads Unit := do
  if (← char) = c then return () else fail

/-- Takes the next character if it is `c`, and tells whether it was. -/
def char? (c : Char) : Reads Bool := do
  if (← peek) = some c then
    let _ ← char
    return true
  else
    return false

/-- The number of characters that are left. -/
def left : Reads Nat :=
  fun cs => .ok (cs.length, cs)

/-- Takes a fixed word, which gives `v`. -/
def word {α : Type} (text : String) (v : α) : Reads α := fun cs =>
  if text.toList.isPrefixOf cs then .ok (v, cs.drop text.length) else .error .malformed

/-! ### Numbers -/

/-- Takes decimal digits, as many as there are. -/
def digits : Reads (List Char) :=
  fun cs => .ok (cs.takeWhile Char.isDigit, cs.dropWhile Char.isDigit)

/-- Takes the digits after a decimal point, if a point with a digit after it comes next. -/
def fraction : Reads (List Char)
  | '.' :: c :: cs => if c.isDigit then digits (c :: cs) else .ok ([], '.' :: c :: cs)
  | cs => .ok ([], cs)

/-- Takes an exponent, if one comes next. -/
def exponent : Reads (Option Int)
  | c :: cs =>
    let (negative, rest) := match cs with
      | '-' :: rest => (true, rest)
      | '+' :: rest => (false, rest)
      | rest => (false, rest)
    let ds := rest.takeWhile Char.isDigit
    if (c = 'e' || c = 'E') && !ds.isEmpty then
      let n : Int := valueOf ds
      .ok (some (if negative then -n else n), rest.dropWhile Char.isDigit)
    else
      .ok (none, c :: cs)
  | [] => .ok (none, [])

/-- The whole number that a row of digits writes, if it is not too long. -/
def wholeNumber (negative : Bool) (ds : List Char) : Reads Json :=
  if ds.length ≤ maxDigits then
    let n : Int := valueOf ds
    pure (.scalar (.int (if negative then -n else n)))
  else
    fun _ => .error (.longNumber ds.length)

/-- Takes a number without its sign. A zero in front stands alone. -/
def number (negative : Bool) : Reads Json := do
  let whole ← if (← peek) = some '0' then (do let c ← char; return [c]) else digits
  if whole.isEmpty then fail
  let tenths ← fraction
  let e ← exponent
  if tenths.isEmpty && e.isNone then
    wholeNumber negative whole
  else
    let x := Decimal.toFloat negative (valueOf (whole ++ tenths)) (e.getD 0 - tenths.length)
    return .scalar (.float x)

/-! ### Strings -/

/-- The value of a hexadecimal digit. -/
def hexValue? (c : Char) : Option Nat :=
  if c.isDigit then some (c.toNat - 48)
  else if 'a' ≤ c && c ≤ 'f' then some (c.toNat - 87)
  else if 'A' ≤ c && c ≤ 'F' then some (c.toNat - 55)
  else none

/-- The four hexadecimal digits at the front of a text, and what follows them. -/
def fourHex? : List Char → Option (Nat × List Char)
  | a :: b :: c :: d :: cs => do
    let n := ((← hexValue? a) * 16 + (← hexValue? b)) * 256 + (← hexValue? c) * 16 + (← hexValue? d)
    return (n, cs)
  | _ => none

/-- The second half of a surrogate pair at the front of a text, and what follows it. -/
def lowHalf? : List Char → Option (Nat × List Char)
  | '\\' :: 'u' :: cs => (fourHex? cs).filter fun r => 0xdc00 ≤ r.1 && r.1 < 0xe000
  | _ => none

/-- Takes the rest of an escape by number. Two numbers of a surrogate pair give one character; half
a pair stays what it is. -/
def numbered : Reads CodePoint := fun cs =>
  match fourHex? cs with
  | none => .error .malformed
  | some (n, rest) =>
    match lowHalf? rest with
    | some (m, rest') =>
      if 0xd800 ≤ n && n < 0xdc00 then
        .ok (.char (Char.ofNat (0x10000 + (n - 0xd800) * 0x400 + (m - 0xdc00))), rest')
      else
        .ok (.ofUnit n, rest)
    | none => .ok (.ofUnit n, rest)

/-- Takes the rest of an escape. -/
def escape : Reads CodePoint := do
  match ← char with
  | '"' => return .char '"'
  | '\\' => return .char '\\'
  | '/' => return .char '/'
  | 'b' => return .char '\x08'
  | 'f' => return .char '\x0c'
  | 'n' => return .char '\n'
  | 'r' => return .char '\r'
  | 't' => return .char '\t'
  | 'u' => numbered
  | _ => fail

/-- Takes the rest of a string of at most `bound` characters, its closing quote included. -/
def stringWithin : Nat → Reads (List CodePoint)
  | 0 => fail
  | bound + 1 => do
    let c ← char
    if c = '"' then
      return []
    else if c = '\\' then
      let p ← escape
      return p :: (← stringWithin bound)
    else if c.toNat < 0x20 then
      fail
    else
      return .char c :: (← stringWithin bound)

/-- Takes a string after its opening quote. -/
def string : Reads (List CodePoint) := do
  stringWithin ((← left) + 1)

/-! ### Values -/

/-- Takes the elements of an array after one of them, its closing bracket included. -/
def elements (value : Reads Json) : Nat → Reads (List Json)
  | 0 => fail
  | bound + 1 => do
    spaces
    if ← char? ']' then
      return []
    else
      exactly ','
      spaces
      let v ← value
      return v :: (← elements value bound)

/-- Takes one member of an object. -/
def member (value : Reads Json) : Reads (List CodePoint × Json) := do
  exactly '"'
  let name ← string
  spaces
  exactly ':'
  spaces
  return (name, ← value)

/-- Takes the members of an object after those in `before`, its closing brace included. -/
def members (value : Reads Json) :
    Nat → List (List CodePoint × Json) → Reads (List (List CodePoint × Json))
  | 0, _ => fail
  | bound + 1, before => do
    spaces
    if ← char? '\x7d' then
      return before
    else
      exactly ','
      spaces
      let (name, v) ← member value
      members value bound (putMember before name v)

/-- Takes a value of at most `bound` characters. -/
def valueWithin : Nat → Reads Json
  | 0 => fail
  | bound + 1 => do
    match ← peek with
    | some 'n' => word "null" (.scalar .null)
    | some 't' => word "true" (.scalar (.bool true))
    | some 'f' => word "false" (.scalar (.bool false))
    | some 'N' => word "NaN" (.scalar (.float (0.0 / 0.0)))
    | some 'I' => word "Infinity" (.scalar (.float (1.0 / 0.0)))
    | some '-' =>
      let _ ← char
      if (← peek) = some 'I' then word "Infinity" (.scalar (.float (-1.0 / 0.0))) else number true
    | some '"' =>
      let _ ← char
      return .scalar (.str (← string))
    | some '[' =>
      let _ ← char
      spaces
      if ← char? ']' then
        return .arr []
      else
        let v ← valueWithin bound
        return .arr (v :: (← elements (valueWithin bound) ((← left) + 1)))
    | some '\x7b' =>
      let _ ← char
      spaces
      if ← char? '\x7d' then
        return .obj []
      else
        let (name, v) ← member (valueWithin bound)
        return .obj (← members (valueWithin bound) ((← left) + 1) [(name, v)])
    | _ => number false

end Reads

/-- The value that a text writes, if it writes one and nothing else. -/
def parse (text : String) : Except Fault Json := do
  let read : Reads Json := do
    Reads.spaces
    let v ← Reads.valueWithin ((← Reads.left) + 1)
    Reads.spaces
    return v
  match ← read text.toList with
  | (v, []) => return v
  | _ => throw .malformed

end BorrowCheck.Json
