/-
# Double-precision numbers as bit patterns

A double is its 64 bits, so that two doubles are equal exactly when they are written the same
way in a binary: the two zeros differ, and NaNs differ when their payloads do.

This is the equality that a byte-for-byte comparison of two binaries sees.  It is *not* the
equality of the constants in memory, which compares numbers and for which a NaN differs from
itself; the optimizer never compares two doubles, so nothing depends on the difference, and the
finer one lets two programs be compared by equality.

`decode` reads a pattern as a sign, a significand `m` and an exponent `e` with value
`± m · 2^e`; `round` goes the other way and takes any such product to the nearest double, a
tie going to the even significand.  Everything that has to be rounded is rounded there: sums and
products are exact on significands before it, and conversions of integers are a single call.
Natural numbers have no width, so no intermediate result is ever too large.

The arithmetic of doubles is used at two places, folding and the shortest decimal text of a
constant in a report.  The operations of the machine that the optimizer never evaluates, square
root for one, are not defined here.
-/
namespace WasmTrim

/-- A double-precision number, by its bits: sign, eleven bits of exponent, 52 of fraction. -/
structure F64 where
  bits : BitVec 64
deriving DecidableEq

namespace F64

/-! ## 1. Reading a pattern

The significand of an ordinary number includes the leading bit that the pattern leaves out, so
that `m` is a plain natural number and the exponent is that of its last bit. -/

/-- What a pattern stands for: one of the two infinities, a finite number, or no number.  The
payload of a NaN is not part of the reading; who passes it on goes back to the bits. -/
inductive Reading where
  /-- The number `m · 2^e`, negated when the sign is set. -/
  | finite (negative : Bool) (significand : Nat) (exponent : Int)
  | infinite (negative : Bool)
  | nan
deriving DecidableEq

/-- The sign bit, the highest of the 64. -/
def negative (x : F64) : Bool := x.bits.msb

/-- The biased exponent, between 0 and 2047. The smallest is that of zeros and subnormal numbers,
the largest that of infinities and NaNs. -/
def exponentField (x : F64) : Nat := (x.bits.extractLsb' 52 11).toNat

/-- The fraction, below `2^52`. The leading bit of a normal number is not among its bits. -/
def fractionField (x : F64) : Nat := (x.bits.extractLsb' 0 52).toNat

/-- The leading bit of a significand, which stands before the 52 bits of the fraction and is not
written. -/
def leadingBit : Nat := 1 <<< 52

/-- Reads a pattern: exponent 2047 holds the infinities and the NaNs, exponent 0 the numbers
without the implicit leading bit. -/
def decode (x : F64) : Reading :=
  if x.exponentField = 2047 then
    if x.fractionField = 0 then .infinite x.negative else .nan
  else if x.exponentField = 0 then
    .finite x.negative x.fractionField (-1074)
  else
    .finite x.negative (x.fractionField + leadingBit) (x.exponentField - 1075)

/-- Whether the pattern is one of the NaNs, of which there are many: all with the largest exponent
and a fraction. -/
def isNaN (x : F64) : Bool := x.decode = .nan

/-! ## 2. Writing a pattern -/

/-- Adds a sign to the 63 bits of a magnitude. -/
def ofMagnitude (negative : Bool) (magnitude : Nat) : F64 :=
  ⟨BitVec.ofNat 64 ((if negative then 1 <<< 63 else 0) + magnitude)⟩

/-- The infinity of the given sign: the largest exponent and no fraction. -/
def infinity (negative : Bool) : F64 := ofMagnitude negative (2047 <<< 52)

/-- The zero of the given sign: two patterns, hence two different constants. -/
def zero (negative : Bool) : F64 := ofMagnitude negative 0

/-! ## 3. Rounding

Rounding is to nearest, ties to even, the only mode there is.  It takes place on the significand
alone: the exponent of the result is fixed first, from the size of the number. -/

/-- The quotient `m / 2^s` to the nearest integer, a half going to the even neighbour. -/
def roundShift (m s : Nat) : Nat :=
  let q := m >>> s
  let r := m % (1 <<< s)
  if 1 <<< s < 2 * r ∨ (1 <<< s = 2 * r ∧ q % 2 = 1) then q + 1 else q

/-- The double nearest to `± m · 2^e`.  The unit `2^q` of the result leaves it 53 significant
bits, but is never finer than the smallest double; a significand that rounds up to `2^53`
carries into the exponent by itself, and what lies past the largest double is infinite. -/
def round (negative : Bool) (m : Nat) (e : Int) : F64 :=
  if m = 0 then zero negative
  else
    let q : Int := max (e + m.log2 - 52) (-1074)
    let significand := if e < q then roundShift m (q - e).toNat else m <<< (e - q).toNat
    ofMagnitude negative (min (((q + 1074).toNat <<< 52) + significand) (2047 <<< 52))

/-- The double nearest to an integer, exact up to `2^53` in absolute value. -/
def ofInt (z : Int) : F64 := round (z < 0) z.natAbs 0

end F64

end WasmTrim
