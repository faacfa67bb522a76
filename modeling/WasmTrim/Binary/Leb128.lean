/-
# LEB128

Integers of the binary format are written in groups of seven bits, the lowest first; every
byte but the last has its high bit set.  Signed numbers are written in two's complement, with
as many groups as it takes for the last one to show the sign.

Writing gives the shortest form.  Reading also takes longer ones, up to the number of groups
that the width of the number calls for.

The assembler writes, the validator reads.  Lengths, positions and most immediates are written
without a sign, integer constants with one.  A constant is read with the width of its type, so
that the bits beyond it in the last group have to repeat the sign; what is written for an integer
in range has this form, and reading then gives the integer back.
-/
import WasmTrim.Binary.Reader

namespace WasmTrim.Leb128

/-! ## 1. Writing

One group at a time, as long as the rest does not fit into one.  The rest gets smaller in absolute
value, since it is divided by 128. -/

/-- A natural number in groups of seven bits, the lowest first. Every byte but the last has its high
bit set, and no group is written that is not needed. -/
def unsigned (n : Nat) : Bytes :=
  if n < 128 then [n.toUInt8] else (n % 128 + 128).toUInt8 :: unsigned (n / 128)
termination_by n
decreasing_by omega

/-- An integer in two's complement, in groups of seven bits like a natural number. One byte is
enough from -64 to 63, since bit six of the last byte is the sign. -/
def signed (z : Int) : Bytes :=
  if -64 ≤ z ∧ z < 64 then [(z % 128).toNat.toUInt8]
  else ((z % 128).toNat + 128).toUInt8 :: signed (z / 128)
termination_by z.natAbs
decreasing_by omega

/-! ## 2. Reading

First the groups, then the check that the number is in range. -/

/-- A natural number in at most the given number of groups. -/
def unsignedGroups : Nat → Reader Nat
  | 0 => .fail
  | n + 1 => do
    let b ← Reader.byte
    if b < 128 then return b.toNat
    let high ← unsignedGroups n
    return b.toNat - 128 + 128 * high

/-- An integer in at most the given number of groups. -/
def signedGroups : Nat → Reader Int
  | 0 => .fail
  | n + 1 => do
    let b ← Reader.byte
    if b < 64 then return b.toNat
    if b < 128 then return (b.toNat : Int) - 128
    let high ← signedGroups n
    return (b.toNat : Int) - 128 + 128 * high

/-- A natural number below `2 ^ width`. It may take more groups than it needs, but not more than the
width does, and what they give has to be in range. -/
def readUnsigned (width : Nat) : Reader Nat := do
  let n ← unsignedGroups ((width + 6) / 7)
  Reader.check (n < 1 <<< width)
  return n

/-- An integer of the given width in two's complement, in no more groups than the width takes. What
they give has to be in range. -/
def readSigned (width : Nat) : Reader Int := do
  let z ← signedGroups ((width + 6) / 7)
  let bound : Int := (1 <<< (width - 1) : Nat)
  Reader.check (-bound ≤ z && z < bound)
  return z

end WasmTrim.Leb128
