/-
# Doubles as decimal text

A double is written with the fewest digits that read back as the same double, always in
positional notation and without a trailing fraction of zero.  This is how a constant appears in
a report, for one in the line that says which constants were folded into which.

The reals that round to `m · 2^e` form an interval around it, whose ends belong to it when
`m` is even.  For one digit, two digits and so on, `shortest` looks at the two multiples of
the power of ten next to the value and takes the first grid on which one of them lies in the
interval; of two it takes the nearer one, and the upper one on a tie.  All of this is exact
arithmetic on natural numbers: a positive real is a fraction, compared by cross-multiplication,
and no step of the search rounds.

The search goes through the first seventeen grids.  Seventeen digits always suffice to tell two
doubles apart; that this is so is not needed to define the search, only to know that its fallback
is never reached.
-/
import WasmTrim.F64.Basic

namespace WasmTrim

/-! ## 1. Decimals

A decimal is what the search finds: a natural number and a power of ten.  Its text has no
exponent, however large or small the number is. -/

/-- The number `digits · 10^exponent`, which is how a double is written out. The sign is kept apart.
-/
structure Decimal where
  digits : Nat
  exponent : Int
deriving DecidableEq

namespace Decimal

/-- The digits of a number, most significant first. -/
def digitsOf (n : Nat) : List Char := Nat.toDigits 10 n

/-- Positional notation: the point is written only when nonzero digits follow it. -/
def positional (d : Decimal) : String :=
  let ds := digitsOf d.digits
  if 0 ≤ d.exponent then
    String.ofList (ds ++ List.replicate d.exponent.toNat '0')
  else
    let places := (-d.exponent).toNat
    let padded := List.replicate (places + 1 - ds.length) '0' ++ ds
    let whole := padded.take (padded.length - places)
    let fraction := (padded.drop (padded.length - places)).reverse.dropWhile (· = '0') |>.reverse
    if fraction.isEmpty then String.ofList whole
    else String.ofList (whole ++ '.' :: fraction)

end Decimal

namespace F64

/-! ## 2. The interval of a double

The ends of the interval are half way to the neighbours.  The neighbour below a power of two is
nearer than the one above. -/

/-- A positive rational, by numerator and denominator. It need not be in lowest terms, as two of
them are compared by multiplying crosswise. -/
structure Ratio where
  num : Nat
  den : Nat

/-- The number `n · 2^e`. -/
def Ratio.ofPow2 (n : Nat) (e : Int) : Ratio :=
  if 0 ≤ e then ⟨n <<< e.toNat, 1⟩ else ⟨n, 1 <<< (-e).toNat⟩

/-- The number `n · 10^e`. -/
def Ratio.ofPow10 (n : Nat) (e : Int) : Ratio :=
  if 0 ≤ e then ⟨n * Nat.pow 10 e.toNat, 1⟩ else ⟨n, Nat.pow 10 (-e).toNat⟩

/-- Whether `a ≤ b`, by cross-multiplication; the denominators are positive. -/
def Ratio.le (a b : Ratio) : Bool := a.num * b.den ≤ b.num * a.den

/-- Whether `a < b`, by cross-multiplication; the denominators are positive. -/
def Ratio.lt (a b : Ratio) : Bool := a.num * b.den < b.num * a.den

/-- The reals that round to one double: those between the midpoints to its two neighbours. The
midpoints themselves belong to it exactly if its significand is even. -/
structure Interval where
  lower : Ratio
  upper : Ratio
  closed : Bool

/-- Whether a number lies in the interval, and so is read back as the double in question. -/
def Interval.contains (i : Interval) (x : Ratio) : Bool :=
  if i.closed then i.lower.le x && x.le i.upper else i.lower.lt x && x.lt i.upper

/-- The reals that round to `m · 2^e`.  They reach half a unit to either side, but only a
quarter downwards from a power of two, below which the doubles lie twice as dense. -/
def interval (m : Nat) (e : Int) : Interval where
  lower := .ofPow2 (4 * m - if m = leadingBit ∧ -1074 < e then 1 else 2) (e - 2)
  upper := .ofPow2 (4 * m + 2) (e - 2)
  closed := m % 2 = 0

/-! ## 3. The shortest decimal

A grid is the multiples of one power of ten.  Each further digit makes the grid ten times finer,
and the first grid with a point in the interval gives the shortest text. -/

/-- The number `k` with `10^(k-1) ≤ x < 10^k`, for `x` not below `10^(-324)`. -/
def magnitude (x : Ratio) : Int :=
  (Decimal.digitsOf (x.num * Nat.pow 10 324 / x.den)).length - 324

/-- Of the two multiples of `10^unit` next to `x`, the one nearest to `x` that lies in the
interval. -/
def onGrid (i : Interval) (x : Ratio) (unit : Int) : Option Decimal :=
  let scaled : Ratio :=
    if 0 ≤ unit then ⟨x.num, x.den * Nat.pow 10 unit.toNat⟩
    else ⟨x.num * Nat.pow 10 (-unit).toNat, x.den⟩
  let below := scaled.num / scaled.den
  let rest := scaled.num % scaled.den
  let hits := fun n : Nat => i.contains (.ofPow10 n unit)
  if hits below && (!hits (below + 1) || 2 * rest < scaled.den) then some ⟨below, unit⟩
  else if hits (below + 1) then some ⟨below + 1, unit⟩
  else none

/-- The decimal with the fewest digits among those that read back as `m · 2^e`. -/
def shortest (m : Nat) (e : Int) : Decimal :=
  let x := Ratio.ofPow2 m e
  let k := magnitude x
  let grids := (List.range 17).map fun n : Nat => k - (n + 1 : Nat)
  (grids.findSome? (onGrid (interval m e) x)).getD ⟨0, 0⟩

/-- The text of a double: `NaN`, `inf`, or the shortest decimal, with a sign if the sign bit is
set and the double is a number. -/
def text (x : F64) : String :=
  match x.decode with
  | .nan => "NaN"
  | .infinite s => if s then "-inf" else "inf"
  | .finite s m e =>
    let magnitude := if m = 0 then "0" else (shortest m e).positional
    if s then "-" ++ magnitude else magnitude

end F64
end WasmTrim
