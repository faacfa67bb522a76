/-
# Operations on constants

What an operation gives when its operands are constants, for the operations that the optimizer
evaluates ahead of time: saturating truncations (`fold_trunc`), conversions to double
(`fold_convert`), and the sum, difference and product of two constants of one type (`evaluate`).

Whether to evaluate is a separate question from what the value is.  Truncations and conversions
are always evaluated.  A sum of integers is evaluated only when both operands are short, that is
when each takes a single byte as an immediate: the constant that replaces three instructions is
then never longer than they were.  Doubles all have one size, so there the question does not
arise.

Integers are bit vectors and wrap around at their width; doubles are their bit patterns and are
rounded once.  The operations of the machine on the same operands are defined through the
functions below (see `Proofs/Semantics/Numeric`), so that evaluating ahead of time and at run
time agree by construction wherever both are defined, and what has to be proved is only that the
optimizer picks the right one.
-/
import WasmTrim.F64.Arithmetic
import WasmTrim.Instr.Basic

namespace WasmTrim

/-! ## 1. Conversions

Only truncations that saturate are evaluated.  One that traps has no value on a NaN or out of
range, and the optimizer leaves it alone even where it has one. -/

/-- The signed integer of the given width nearest to a truncated double: out of range it is the
nearest bound, and a NaN gives zero. -/
def F64.toSigned (width : Nat) (x : F64) : BitVec width :=
  .ofInt width (x.truncate (BitVec.intMin width).toInt (BitVec.intMax width).toInt)

/-- The unsigned integer of the given width nearest to a truncated double.  Whatever is negative
gives zero. -/
def F64.toUnsigned (width : Nat) (x : F64) : BitVec width :=
  .ofInt width (x.truncate 0 (BitVec.allOnes width).toNat)

/-- The integer that a saturating truncation makes of a double, and nothing for any other
operation.  These are the operations that `fold_trunc` matches. -/
def NumOp.truncate? (x : F64) : NumOp → Option Value
  | .i32TruncSatF64S => some (.i32 (x.toSigned 32))
  | .i32TruncSatF64U => some (.i32 (x.toUnsigned 32))
  | .i64TruncSatF64S => some (.i64 (x.toSigned 64))
  | .i64TruncSatF64U => some (.i64 (x.toUnsigned 64))
  | _ => none

/-- The double nearest to an integer constant, read with or without its sign, when the operation
is a conversion from that type of constant.  These are the pairs that `fold_convert` matches. -/
def NumOp.convert? : Value → NumOp → Option F64
  | .i32 n, .f64ConvertI32S => some (.ofInt n.toInt)
  | .i32 n, .f64ConvertI32U => some (.ofInt n.toNat)
  | .i64 n, .f64ConvertI64S => some (.ofInt n.toInt)
  | .i64 n, .f64ConvertI64U => some (.ofInt n.toNat)
  | _, _ => none

/-! ## 2. Arithmetic

Nine operations fold: three kinds, each on three types.  Divisions do not, since they can trap,
and neither do comparisons or shifts. -/

/-- The three operations that are evaluated on two constants (`BinOp`). -/
inductive Arith where
  | add
  | sub
  | mul
deriving DecidableEq

namespace Arith

/-- On integers, modulo the width, like the wrapping operations of `evaluate`. The sign plays no
part in these three. -/
def onBits {w : Nat} (x y : BitVec w) : Arith → BitVec w
  | add => x + y
  | sub => x - y
  | mul => x * y

/-- On doubles, with the result rounded to nearest, ties to even. -/
def onF64 (x y : F64) : Arith → F64
  | add => x.add y
  | sub => x.sub y
  | mul => x.mul y

end Arith

/-- The arithmetic that a numeric operation performs, and on which type (`binop`, which forgets
the type; `evaluate` looks at it again). -/
def NumOp.arith? : NumOp → Option (ValueType × Arith)
  | .i32Add => some (.i32, .add)
  | .i32Sub => some (.i32, .sub)
  | .i32Mul => some (.i32, .mul)
  | .i64Add => some (.i64, .add)
  | .i64Sub => some (.i64, .sub)
  | .i64Mul => some (.i64, .mul)
  | .f64Add => some (.f64, .add)
  | .f64Sub => some (.f64, .sub)
  | .f64Mul => some (.f64, .mul)
  | _ => none

/-- Whether the operation is a sum or a difference, of any type: the operations that the rules on
increments accept. -/
def NumOp.isIncrement (op : NumOp) : Bool :=
  match op.arith? with
  | some (_, .add) | some (_, .sub) => true
  | _ => false

/-- Whether an integer takes a single byte as an immediate (`is_short_immediate`): one byte of a
signed LEB128 number holds seven bits. -/
def isShort (z : Int) : Bool := -64 ≤ z && z ≤ 63

/-- The value of an operation on two constants (`evaluate`).  Integers are evaluated only when
both take a single byte as immediates; doubles, whose immediates all have one size, always.
Constants of different types, or of a type that is not the operation's, have no value. -/
def NumOp.evaluate? (lhs rhs : Value) (op : NumOp) : Option Value :=
  match lhs, rhs, op.arith? with
  | .i32 x, .i32 y, some (.i32, a) =>
    if isShort x.toInt && isShort y.toInt then some (.i32 (a.onBits x y)) else none
  | .i64 x, .i64 y, some (.i64, a) =>
    if isShort x.toInt && isShort y.toInt then some (.i64 (a.onBits x y)) else none
  | .f64 x, .f64 y, some (.f64, a) => some (.f64 (a.onF64 x y))
  | _, _, _ => none

end WasmTrim
