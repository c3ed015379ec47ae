import BorrowCheck.Decimal.Shortest

/-!
# Reading and writing floating-point numbers

A number is written with its shortest digits: with a point and at least one digit after it while
its first digit lies between the fourth place after the point and the sixteenth before it, and
otherwise with an exponent of a sign and at least two digits.
-/

namespace BorrowCheck.Decimal

/-- The number nearest to `m · 10 ^ e`, negated when `negative` says so. Beyond the range of
exponents it is infinite or zero. -/
def toFloat (negative : Bool) (m : Nat) (e : Int) : Float :=
  let size := e + (Nat.toDigits 10 m).length
  let x :=
    if m = 0 || size < -330 then 0.0
    else if 310 < size then 1.0 / 0.0
    else Float.ofScientific m (e < 0) e.natAbs
  if negative then -x else x

/-- Writes `n · 10 ^ e`, with `n` positive. -/
def write (n : Nat) (e : Int) : String :=
  let all := Nat.toDigits 10 n
  let digits := (all.reverse.dropWhile (· = '0')).reverse
  let lead := e + all.length - 1
  let zeros (k : Nat) : List Char := List.replicate k '0'
  if lead < -4 || 16 ≤ lead then
    let exponent := Nat.toDigits 10 lead.natAbs
    let tail := if digits.length ≤ 1 then [] else '.' :: digits.drop 1
    String.ofList (digits.take 1 ++ tail ++ 'e' :: (if lead < 0 then '-' else '+') ::
      (zeros (2 - exponent.length) ++ exponent))
  else if lead < 0 then
    String.ofList ('0' :: '.' :: (zeros (lead.natAbs - 1) ++ digits))
  else
    let whole := lead.toNat + 1
    let tail := digits.drop whole
    String.ofList (digits.take whole ++ zeros (whole - digits.length) ++ '.' ::
      (if tail.isEmpty then ['0'] else tail))

/-- The text of a floating-point number. -/
def text (x : Float) : String :=
  let bits := x.toBits.toNat
  let sign := if bits / Nat.pow 2 63 = 1 then "-" else ""
  let exponent : Nat := bits / Nat.pow 2 52 % Nat.pow 2 11
  let fraction : Nat := bits % Nat.pow 2 52
  if exponent = 2047 then
    if fraction = 0 then sign ++ "inf" else "nan"
  else if exponent = 0 && fraction = 0 then
    sign ++ "0.0"
  else
    let m := if exponent = 0 then fraction else Nat.pow 2 52 + fraction
    let q : Int := ((if exponent = 0 then 1 else exponent : Nat) : Int) - 1075
    let (n, e) := shortest m q (fraction = 0 && 1 < exponent)
    sign ++ write n e

end BorrowCheck.Decimal
