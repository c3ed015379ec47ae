/-!
# The shortest decimal of a binary number

A binary floating-point number stands for an interval of reals, those that round to it. The
**shortest decimal** is the one with the fewest digits in that interval, and among those the
nearest to the number, an even last digit deciding a tie. All of it is exact arithmetic on natural
numbers: a positive number is `m · 2 ^ q`, and a decimal is `n · 10 ^ e`.
-/

namespace BorrowCheck.Decimal

/-- A positive real as a quotient of natural numbers. -/
structure Ratio where
  num : Nat
  den : Nat

namespace Ratio

/-- `n · b ^ e` -/
def scaled (n b : Nat) (e : Int) : Ratio :=
  match e with
  | .ofNat k => { num := n * b.pow k, den := 1 }
  | .negSucc k => { num := n, den := b.pow (k + 1) }

/-- Whether `x ≤ y`. -/
def le (x y : Ratio) : Bool :=
  x.num * y.den ≤ y.num * x.den

/-- Whether `x < y`. -/
def lt (x y : Ratio) : Bool :=
  x.num * y.den < y.num * x.den

/-- The product of two reals. -/
def mul (x y : Ratio) : Ratio :=
  { num := x.num * y.num, den := x.den * y.den }

/-- The greatest natural number that is at most `x`. -/
def floor (x : Ratio) : Nat :=
  x.num / x.den

end Ratio

/-- The exponent of the first decimal digit of a positive real; below one it is looked for down to
`-bound`. -/
def leadingExponent (bound : Nat) (x : Ratio) : Int :=
  if x.den ≤ x.num then (Nat.toDigits 10 x.floor).length - 1
  else
    match (List.range bound).find? fun k => x.den ≤ x.num * Nat.pow 10 (k + 1) with
    | some k => -(k + 1 : Int)
    | none => -(bound : Int)

/-- The interval of reals that round to one number: its two ends, and whether they belong to it. -/
structure Interval where
  low : Ratio
  high : Ratio
  closed : Bool

/-- Whether `x` lies in the interval. -/
def Interval.contains (i : Interval) (x : Ratio) : Bool :=
  if i.closed then i.low.le x && x.le i.high else i.low.lt x && x.lt i.high

/-- The decimal with `digits` digits in the interval that is nearest to `v`, whose first digit has
the exponent `lead`: as a whole number and the exponent of its last digit. Only the neighbours of
`v` on the grid come into question. -/
def onGrid? (i : Interval) (v : Ratio) (lead : Int) (digits : Nat) : Option (Nat × Int) :=
  let e := lead - digits + 1
  let n := (v.mul (Ratio.scaled 1 10 (-e))).floor
  let hits (k : Nat) : Bool := i.contains (Ratio.scaled k 10 e)
  -- the middle between the two neighbours, in halves of a grid step
  let middle := Ratio.mul (Ratio.scaled (2 * n + 1) 10 e) { num := 1, den := 2 }
  let below := v.lt middle || (v.le middle && n % 2 == 0)
  if hits n && hits (n + 1) then some (if below then n else n + 1, e)
  else if hits n then some (n, e)
  else if hits (n + 1) then some (n + 1, e)
  else none

/-- The shortest decimal of `m · 2 ^ q`, as a whole number and the exponent of its last digit. The
gap to the next smaller number is `m · 2 ^ q - (m - 1) · 2 ^ q`, or half of it when `narrow` says
so. -/
def shortest (m : Nat) (q : Int) (narrow : Bool) : Nat × Int :=
  let v := Ratio.scaled m 2 q
  let i : Interval :=
    { low := Ratio.scaled (4 * m - if narrow then 1 else 2) 2 (q - 2)
      high := Ratio.scaled (4 * m + 2) 2 (q - 2)
      closed := m % 2 == 0 }
  let lead := leadingExponent 400 v
  ((List.range 17).findSome? fun k => onGrid? i v lead (k + 1)).getD (m, 0)

end BorrowCheck.Decimal
