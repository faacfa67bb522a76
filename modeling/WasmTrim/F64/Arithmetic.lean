/-
# Arithmetic on doubles

Sum, difference and product are computed exactly on significands and exponents and rounded
once.  That is what the standard asks of them, and it makes each a composition of three steps
that can be read separately: decode both operands, form the exact integer or product, round.

A NaN operand is passed on, made quiet, the left one first; an operation that has no value of
its own (`∞ - ∞`, `0 · ∞`) gives the quiet NaN with the sign set.  The standard leaves both
choices open.  They are fixed here as the processor makes them, since a folded constant is
written into the binary bit by bit.

Truncation toward zero saturates at the bounds of the integer type it aims at and takes a NaN
to zero.  It is defined for any pair of bounds, so that the four integer types the optimizer
truncates to are one function.
-/
import WasmTrim.F64.Basic

namespace WasmTrim
namespace F64

/-! ## 1. NaNs

A NaN is quiet when the first bit of its fraction is set.  No operation gives one that is not. -/

/-- The NaN of an operation without a value, such as the difference of two infinities. Its sign is
set and its payload empty. -/
def invalid : F64 := ⟨0xfff8000000000000#64⟩

/-- The quiet NaN with the payload of the given one. -/
def quiet (x : F64) : F64 := ⟨x.bits ||| 0x0008000000000000#64⟩

/-- Applies a binary operation to two operands that are not NaN, and passes NaNs on. -/
def lift₂ (f : Reading → Reading → F64) (x y : F64) : F64 :=
  if x.isNaN then x.quiet else if y.isNaN then y.quiet else f x.decode y.decode

/-! ## 2. Sum, difference and product

Two finite terms are brought to the smaller of their exponents, where both are integers; the sum
of these is exact.  Infinities are treated before that, by cases. -/

/-- The same number with the other sign, also for a zero and an infinity. A NaN has no sign to speak
of. -/
def Reading.neg : Reading → Reading
  | .finite s m e => .finite (!s) m e
  | .infinite s => .infinite (!s)
  | .nan => .nan

/-- The exact integer `± m · 2^(e - base)`, for an exponent `e` not below `base`. -/
def scaled (negative : Bool) (m : Nat) (e base : Int) : Int :=
  let n : Int := (m <<< (e - base).toNat : Nat)
  if negative then -n else n

/-- The rounded sum of two numbers.  A sum of zero is negative only when both terms are. -/
def sum : Reading → Reading → F64
  | .finite s m e, .finite s' m' e' =>
    let base := min e e'
    let total := scaled s m e base + scaled s' m' e' base
    if total = 0 then zero (s && s') else round (total < 0) total.natAbs base
  | .infinite s, .infinite s' => if s = s' then infinity s else invalid
  | .infinite s, _ => infinity s
  | _, .infinite s => infinity s
  | _, _ => invalid

/-- The rounded product of two numbers: the significands are multiplied and the exponents added,
both exactly, and the result is rounded once. Zero times infinity has no value. -/
def product : Reading → Reading → F64
  | .finite s m e, .finite s' m' e' => round (s ^^ s') (m * m') (e + e')
  | .infinite s, .infinite s' => infinity (s ^^ s')
  | .infinite s, .finite s' m _ => if m = 0 then invalid else infinity (s ^^ s')
  | .finite s m _, .infinite s' => if m = 0 then invalid else infinity (s ^^ s')
  | _, _ => invalid

/-- The sum of two doubles, rounded once. A NaN among the operands decides the result. -/
def add : F64 → F64 → F64 := lift₂ sum

/-- The difference of two doubles: the sum with the second number's sign changed. -/
def sub : F64 → F64 → F64 := lift₂ fun x y => sum x y.neg

/-- The product of two doubles, rounded once. A NaN among the operands decides the result. -/
def mul : F64 → F64 → F64 := lift₂ product

/-! ## 3. Truncation

The whole part of a number with a nonnegative exponent is the number itself, so large doubles are
cut off only by the bounds. -/

/-- The number `m · 2^e` without its fractional part. -/
def wholePart (m : Nat) (e : Int) : Nat :=
  if 0 ≤ e then m <<< e.toNat else m >>> (-e).toNat

/-- The integer between `lo` and `hi` closest to the truncated number; zero for a NaN. -/
def truncate (lo hi : Int) (x : F64) : Int :=
  match x.decode with
  | .nan => 0
  | .infinite s => if s then lo else hi
  | .finite s m e =>
    let z : Int := if s then -(wholePart m e : Int) else wholePart m e
    max lo (min hi z)

end F64
end WasmTrim
