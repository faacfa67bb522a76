/-
# What numeric operations compute

A numeric operation takes one or two operands and gives a value or a trap (`NumOp.compute?`).
The operations that the optimizer evaluates ahead of time are computed by the very functions it
evaluates them with: sums, differences and products, saturating truncations, and conversions to
double.  The remaining operations on doubles do not matter to it, so they are a parameter
(`FloatUnit`): whatever a processor makes of a square root, the optimizer moves the operation
around and never asks.  Integer operations are defined in full, divisions with their traps
included, although no rule evaluates them; a body that divides can then be followed as well.

Three facts are needed later.

* Operands of the right types give a result of the right type (`NumOp.compute?_typed`), and
  operands of other types give none.  This is the arithmetic part of type soundness.
* What is evaluated ahead of time is what the operation computes (`compute?_of_truncate?` and the
  two like it), whatever the parameter is.
* A 32-bit integer survives the way to a double and back (`F64.whole?_ofInt`), in fact any integer
  below `2^53` does.  It takes the only proof about rounding in the library: such an integer needs
  no rounding, because its significand, shifted to 53 bits, is exact.

The second of these fixes the rounding of folded doubles as that of the machine.  It is not
derived from a standard; it is what is meant by folding at all.
-/
import Mathlib.Algebra.Group.Int.Defs
import Mathlib.Algebra.Group.Nat.Defs
import WasmTrim.Constant

namespace WasmTrim

/-! ## 1. Values

Values of the three types by their bits, and the truth values among them. -/

/-- The value that a local of the given type starts with, unless it is a parameter. -/
def Value.zero : ValueType → Value
  | .i32 => .i32 0
  | .i64 => .i64 0
  | .f64 => .f64 ⟨0⟩

@[simp] theorem Value.type_zero (t : ValueType) : (zero t).type = t := by cases t <;> rfl

/-- A truth value as a 32-bit integer, which is what comparisons and tests leave on the stack. -/
def Value.ofBool (b : Bool) : Value := .i32 (if b then 1 else 0)

@[simp] theorem Value.type_ofBool (b : Bool) : (ofBool b).type = .i32 := rfl

/-! ## 2. Operations

One function for each shape of operands.  An operation that is not of the shape gives nothing
there, which is how operands of the wrong types are told from a trap. -/

/-- The operations on doubles that the library leaves open.  Comparisons are among them, since no
rule decides one. -/
structure FloatUnit where
  unary : NumOp → F64 → F64
  binary : NumOp → F64 → F64 → F64
  compare : NumOp → F64 → F64 → Bool

/-- What an operation on operands gives, if these have the right types: a value, or a trap, as after
a division by zero. -/
inductive NumResult where
  | value (v : Value)
  | trap
deriving DecidableEq

/-- The whole part of a double, if it is a number. It is an integer of any size, and the double is
cut off towards zero. -/
def F64.whole? (x : F64) : Option Int :=
  match x.decode with
  | .finite s m e => some (if s then -(wholePart m e : Int) else wholePart m e)
  | _ => none

/-- A truncation to 32 bits that traps outside of the given bounds. -/
def F64.truncateTo (lo hi : Int) (x : F64) : NumResult :=
  match x.whole? with
  | some z => if lo ≤ z ∧ z ≤ hi then .value (.i32 (.ofInt 32 z)) else .trap
  | none => .trap

/-- A quotient or remainder, which traps when it has no value: where the divisor is zero, or the
quotient does not fit. -/
def divide {w : Nat} (wrap : BitVec w → Value) (undefined : Bool) (q : BitVec w) : NumResult :=
  if undefined then .trap else .value (wrap q)

namespace NumOp

/-- On a 32-bit integer: the test for zero, the two extensions, and the conversions to double. -/
def onI32 (x : BitVec 32) : NumOp → Option NumResult
  | .i32Eqz => some (.value (.ofBool (x = 0)))
  | .i64ExtendI32S => some (.value (.i64 (x.signExtend 64)))
  | .i64ExtendI32U => some (.value (.i64 (x.setWidth 64)))
  | op => (op.convert? (.i32 x)).map fun y => .value (.f64 y)

/-- What a numeric operation gives on two 32-bit integers, if it takes these. Comparisons give 1 or
0, and arithmetic wraps around. -/
def onI32s (x y : BitVec 32) : NumOp → Option NumResult
  | .i32Eq => some (.value (.ofBool (x = y)))
  | .i32Ne => some (.value (.ofBool (x ≠ y)))
  | .i32LtS => some (.value (.ofBool (x.slt y)))
  | .i32LtU => some (.value (.ofBool (x.ult y)))
  | .i32GtS => some (.value (.ofBool (y.slt x)))
  | .i32GtU => some (.value (.ofBool (y.ult x)))
  | .i32LeS => some (.value (.ofBool (x.sle y)))
  | .i32LeU => some (.value (.ofBool (x.ule y)))
  | .i32GeS => some (.value (.ofBool (y.sle x)))
  | .i32GeU => some (.value (.ofBool (y.ule x)))
  | .i32DivS => some (divide .i32 (y = 0 || (x = .intMin 32 && y = -1)) (x.sdiv y))
  | .i32DivU => some (divide .i32 (y = 0) (x / y))
  | .i32RemS => some (divide .i32 (y = 0) (x.srem y))
  | .i32RemU => some (divide .i32 (y = 0) (x % y))
  | .i32And => some (.value (.i32 (x &&& y)))
  | .i32Or => some (.value (.i32 (x ||| y)))
  | .i32Xor => some (.value (.i32 (x ^^^ y)))
  | .i32Shl => some (.value (.i32 (x <<< (y.toNat % 32))))
  | .i32ShrS => some (.value (.i32 (x.sshiftRight (y.toNat % 32))))
  | .i32ShrU => some (.value (.i32 (x >>> (y.toNat % 32))))
  | op =>
    match op.arith? with
    | some (.i32, a) => some (.value (.i32 (a.onBits x y)))
    | _ => none

/-- What a numeric operation gives on a 64-bit integer, if it takes one. -/
def onI64 (x : BitVec 64) : NumOp → Option NumResult
  | .i64Eqz => some (.value (.ofBool (x = 0)))
  | .i32WrapI64 => some (.value (.i32 (x.setWidth 32)))
  | .f64ReinterpretI64 => some (.value (.f64 ⟨x⟩))
  | op => (op.convert? (.i64 x)).map fun y => .value (.f64 y)

/-- On two 64-bit integers: comparisons, arithmetic modulo the width, bits and shifts, and divisions
with their traps. -/
def onI64s (x y : BitVec 64) : NumOp → Option NumResult
  | .i64Eq => some (.value (.ofBool (x = y)))
  | .i64Ne => some (.value (.ofBool (x ≠ y)))
  | .i64LtS => some (.value (.ofBool (x.slt y)))
  | .i64GtS => some (.value (.ofBool (y.slt x)))
  | .i64LeS => some (.value (.ofBool (x.sle y)))
  | .i64GeS => some (.value (.ofBool (y.sle x)))
  | .i64DivS => some (divide .i64 (y = 0 || (x = .intMin 64 && y = -1)) (x.sdiv y))
  | .i64RemS => some (divide .i64 (y = 0) (x.srem y))
  | .i64And => some (.value (.i64 (x &&& y)))
  | .i64Or => some (.value (.i64 (x ||| y)))
  | .i64Xor => some (.value (.i64 (x ^^^ y)))
  | .i64Shl => some (.value (.i64 (x <<< (y.toNat % 64))))
  | .i64ShrS => some (.value (.i64 (x.sshiftRight (y.toNat % 64))))
  | .i64ShrU => some (.value (.i64 (x >>> (y.toNat % 64))))
  | op =>
    match op.arith? with
    | some (.i64, a) => some (.value (.i64 (a.onBits x y)))
    | _ => none

/-- What a numeric operation gives on a double, if it takes one. Truncation is exact or traps; the
functions that the passes do not evaluate are left to the floating point unit. -/
def onDouble (u : FloatUnit) (x : F64) : NumOp → Option NumResult
  | .i32TruncF64S => some (x.truncateTo (BitVec.intMin 32).toInt (BitVec.intMax 32).toInt)
  | .i32TruncF64U => some (x.truncateTo 0 (BitVec.allOnes 32).toNat)
  | .i64ReinterpretF64 => some (.value (.i64 x.bits))
  | op =>
    match op.truncate? x with
    | some v => some (.value v)
    | none => if op.result = .f64 then some (.value (.f64 (u.unary op x))) else none

/-- What a numeric operation gives on two doubles, if it takes these. The arithmetic that the passes
evaluate is fixed, and the rest is left to the floating point unit. -/
def onDoubles (u : FloatUnit) (x y : F64) (op : NumOp) : Option NumResult :=
  match op.arith? with
  | some (.f64, a) => some (.value (.f64 (a.onF64 x y)))
  | _ =>
    if op.result = .f64 then some (.value (.f64 (u.binary op x y)))
    else some (.value (.ofBool (u.compare op x y)))

/-- The result of an operation on the given operands, the deepest first; nothing when they are
not of the types that the operation takes. -/
def compute? (u : FloatUnit) (op : NumOp) (args : List Value) : Option NumResult :=
  if args.map Value.type = op.operands then
    match args with
    | [.i32 x] => op.onI32 x
    | [.i32 x, .i32 y] => op.onI32s x y
    | [.i64 x] => op.onI64 x
    | [.i64 x, .i64 y] => op.onI64s x y
    | [.f64 x] => op.onDouble u x
    | [.f64 x, .f64 y] => op.onDoubles u x y
    | _ => none
  else none

/-! ## 3. Types of results

The cases follow the functions above: one lemma for each shape of operands, and one that puts
them together along the number of operands. -/

/-- A result is a trap or a value of the given type; in particular there is a result. -/
def Gives (r : Option NumResult) (t : ValueType) : Prop :=
  r = some .trap ∨ ∃ v, r = some (.value v) ∧ v.type = t

theorem gives_value {v : Value} {t : ValueType} (h : v.type = t) : Gives (some (.value v)) t :=
  .inr ⟨v, rfl, h⟩

theorem gives_divide {w : Nat} {wrap : BitVec w → Value} {b : Bool} {q : BitVec w} {t : ValueType}
    (h : (wrap q).type = t) : Gives (some (divide wrap b q)) t := by
  cases b
  · exact .inr ⟨wrap q, rfl, h⟩
  · exact .inl rfl

theorem gives_truncateTo (lo hi : Int) (x : F64) : Gives (some (x.truncateTo lo hi)) .i32 := by
  unfold F64.truncateTo
  split
  · split
    · exact gives_value rfl
    · exact .inl rfl
  · exact .inl rfl

theorem onI32_gives {op : NumOp} (h : op.operands = [.i32]) (x : BitVec 32) :
    Gives (op.onI32 x) op.result := by
  cases op with
  | i32Eqz | i64ExtendI32S | i64ExtendI32U | f64ConvertI32S | f64ConvertI32U =>
    exact gives_value rfl
  | _ => cases h

theorem onI32s_gives {op : NumOp} (h : op.operands = [.i32, .i32]) (x y : BitVec 32) :
    Gives (op.onI32s x y) op.result := by
  cases op with
  | i32DivS | i32DivU | i32RemS | i32RemU => exact gives_divide rfl
  | i32Eq | i32Ne | i32LtS | i32LtU | i32GtS | i32GtU | i32LeS | i32LeU | i32GeS | i32GeU | i32Add
  | i32Sub | i32Mul | i32And | i32Or | i32Xor | i32Shl | i32ShrS | i32ShrU =>
    exact gives_value rfl
  | _ => cases h

theorem onI64_gives {op : NumOp} (h : op.operands = [.i64]) (x : BitVec 64) :
    Gives (op.onI64 x) op.result := by
  cases op with
  | i64Eqz | i32WrapI64 | f64ConvertI64S | f64ConvertI64U | f64ReinterpretI64 =>
    exact gives_value rfl
  | _ => cases h

theorem onI64s_gives {op : NumOp} (h : op.operands = [.i64, .i64]) (x y : BitVec 64) :
    Gives (op.onI64s x y) op.result := by
  cases op with
  | i64DivS | i64RemS => exact gives_divide rfl
  | i64Eq | i64Ne | i64LtS | i64GtS | i64LeS | i64GeS | i64Add | i64Sub | i64Mul | i64And | i64Or
  | i64Xor | i64Shl | i64ShrS | i64ShrU =>
    exact gives_value rfl
  | _ => cases h

theorem onDouble_gives {op : NumOp} (h : op.operands = [.f64]) (u : FloatUnit) (x : F64) :
    Gives (op.onDouble u x) op.result := by
  cases op with
  | i32TruncF64S | i32TruncF64U => exact gives_truncateTo _ _ x
  | i32TruncSatF64S | i32TruncSatF64U | i64TruncSatF64S | i64TruncSatF64U | i64ReinterpretF64
  | f64Abs | f64Neg | f64Ceil | f64Floor | f64Trunc | f64Nearest | f64Sqrt =>
    exact gives_value rfl
  | _ => cases h

theorem onDoubles_gives {op : NumOp} (h : op.operands = [.f64, .f64]) (u : FloatUnit) (x y : F64) :
    Gives (op.onDoubles u x y) op.result := by
  cases op with
  | f64Eq | f64Ne | f64Lt | f64Gt | f64Le | f64Ge | f64Add | f64Sub | f64Mul | f64Div | f64Min
  | f64Max | f64Copysign =>
    exact gives_value rfl
  | _ => cases h

/-- An arithmetic operation takes two operands of one type and gives a result of it. -/
theorem operands_of_arith? {op : NumOp} {t : ValueType} {a : Arith} (h : op.arith? = some (t, a)) :
    op.operands = [t, t] ∧ op.result = t := by
  cases op with
  | i32Add | i32Sub | i32Mul | i64Add | i64Sub | i64Mul | f64Add | f64Sub | f64Mul =>
    cases h
    exact ⟨rfl, rfl⟩
  | _ => cases h

/-- So does a sum or a difference, which are the increments that the rules look for. -/
theorem operands_of_isIncrement {op : NumOp} (h : op.isIncrement) :
    ∃ t, op.operands = [t, t] ∧ op.result = t := by
  unfold isIncrement at h
  split at h
  · rename_i harith
    exact ⟨_, operands_of_arith? harith⟩
  · rename_i harith
    exact ⟨_, operands_of_arith? harith⟩
  · cases h

/-- **Operands of the right types** give a trap or a result of the right type. With other operands,
or another number of them, an operation has no result at all. -/
theorem compute?_typed (u : FloatUnit) {op : NumOp} {args : List Value}
    (h : args.map Value.type = op.operands) : Gives (op.compute? u args) op.result := by
  unfold compute?
  rw [if_pos h]
  obtain ⟨t, -, ht | ht⟩ := op.operands_uniform
  · obtain ⟨a, rfl, ha⟩ := List.map_eq_singleton_iff.mp (h.trans ht)
    cases a with
    | i32 x => exact onI32_gives h.symm x
    | i64 x => exact onI64_gives h.symm x
    | f64 x => exact onDouble_gives h.symm u x
  · obtain ⟨a, rest, rfl, ha, hrest⟩ := List.map_eq_cons_iff.mp (h.trans ht)
    obtain ⟨b, rfl, hb⟩ := List.map_eq_singleton_iff.mp hrest
    have hsame : a.type = b.type := ha.trans hb.symm
    cases a with
    | i32 x =>
      cases b with
      | i32 y => exact onI32s_gives h.symm x y
      | _ => cases hsame
    | i64 x =>
      cases b with
      | i64 y => exact onI64s_gives h.symm x y
      | _ => cases hsame
    | f64 x =>
      cases b with
      | f64 y => exact onDoubles_gives h.symm u x y
      | _ => cases hsame

/-! ### What is evaluated ahead of time

The values that the optimizer puts in are those that the operations compute. -/

/-- A truncation that is made ahead of time has the value that the machine computes, whatever unit
for doubles it has. -/
theorem compute?_of_truncate? {op : NumOp} {x : F64} {v : Value} (h : op.truncate? x = some v) :
    op.operands = [.f64] ∧ op.result = v.type ∧ ∀ u, op.compute? u [.f64 x] = some (.value v) := by
  cases op with
  | i32TruncSatF64S | i32TruncSatF64U | i64TruncSatF64S | i64TruncSatF64U =>
    cases h
    exact ⟨rfl, rfl, fun _ => rfl⟩
  | _ => cases h

/-- A conversion that is made ahead of time has the value that the machine computes, whatever unit
for doubles it has. -/
theorem compute?_of_convert? {op : NumOp} {a : Value} {x : F64} (h : op.convert? a = some x) :
    op.operands = [a.type] ∧ op.result = .f64 ∧
      ∀ u, op.compute? u [a] = some (.value (.f64 x)) := by
  cases a with
  | i32 n =>
    cases op with
    | f64ConvertI32S | f64ConvertI32U =>
      cases h
      exact ⟨rfl, rfl, fun _ => rfl⟩
    | _ => cases h
  | i64 n =>
    cases op with
    | f64ConvertI64S | f64ConvertI64U =>
      cases h
      exact ⟨rfl, rfl, fun _ => rfl⟩
    | _ => cases h
  | f64 y => simp [convert?] at h

theorem compute?_i32s (u : FloatUnit) {op : NumOp} {a : Arith} (h : op.arith? = some (.i32, a))
    (x y : BitVec 32) :
    op.compute? u [.i32 x, .i32 y] = some (.value (.i32 (a.onBits x y))) := by
  cases op with
  | i32Add | i32Sub | i32Mul =>
    cases h
    rfl
  | _ => cases h

theorem compute?_i64s (u : FloatUnit) {op : NumOp} {a : Arith} (h : op.arith? = some (.i64, a))
    (x y : BitVec 64) :
    op.compute? u [.i64 x, .i64 y] = some (.value (.i64 (a.onBits x y))) := by
  cases op with
  | i64Add | i64Sub | i64Mul =>
    cases h
    rfl
  | _ => cases h

theorem compute?_doubles (u : FloatUnit) {op : NumOp} {a : Arith} (h : op.arith? = some (.f64, a))
    (x y : F64) : op.compute? u [.f64 x, .f64 y] = some (.value (.f64 (a.onF64 x y))) := by
  cases op with
  | f64Add | f64Sub | f64Mul =>
    cases h
    rfl
  | _ => cases h

/-- An operation on two constants that is made ahead of time. -/
theorem compute?_of_evaluate? {op : NumOp} {a b v : Value} (h : op.evaluate? a b = some v) :
    (∃ t, op.operands = [t, t] ∧ op.result = v.type) ∧
      ∀ u, op.compute? u [a, b] = some (.value v) := by
  unfold evaluate? at h
  split at h
  · rename_i x y c hc
    split at h
    · obtain rfl := Option.some.inj h
      exact ⟨⟨_, operands_of_arith? hc⟩, fun u => compute?_i32s u hc x y⟩
    · cases h
  · rename_i x y c hc
    split at h
    · obtain rfl := Option.some.inj h
      exact ⟨⟨_, operands_of_arith? hc⟩, fun u => compute?_i64s u hc x y⟩
    · cases h
  · rename_i x y c hc
    obtain rfl := Option.some.inj h
    exact ⟨⟨_, operands_of_arith? hc⟩, fun u => compute?_doubles u hc x y⟩
  · cases h

end NumOp

/-! ## 4. Integers as doubles

The pattern that is written for an integer is decoded again.  The significand of a nonzero integer
below `2^53` is shifted up to 53 bits and the exponent lowered by as much, so the number read is
the integer times a power of two, divided by it. -/

namespace F64

/-- The pattern with the given sign, exponent and fraction is read back. -/
theorem decode_ofMagnitude {s : Bool} {x f : Nat} (hx : 0 < x) (hx' : x < 2047) (hf : f < 2 ^ 52) :
    (ofMagnitude s (x * 2 ^ 52 + f)).decode = .finite s (f + leadingBit) (x - 1075) := by
  have hmag : x * 2 ^ 52 + f < 2 ^ 63 := by omega
  have hbits : (ofMagnitude s (x * 2 ^ 52 + f)).bits.toNat
      = (if s then 2 ^ 63 else 0) + (x * 2 ^ 52 + f) := by
    rw [ofMagnitude, BitVec.toNat_ofNat]
    exact Nat.mod_eq_of_lt (by split <;> omega)
  have hexp : (ofMagnitude s (x * 2 ^ 52 + f)).exponentField = x := by
    rw [exponentField, BitVec.extractLsb'_toNat, hbits, Nat.shiftRight_eq_div_pow]
    split <;> omega
  have hfrac : (ofMagnitude s (x * 2 ^ 52 + f)).fractionField = f := by
    rw [fractionField, BitVec.extractLsb'_toNat, hbits, Nat.shiftRight_zero]
    split <;> omega
  have hneg : (ofMagnitude s (x * 2 ^ 52 + f)).negative = s := by
    rw [negative, BitVec.msb_eq_decide, hbits]
    cases s with
    | false =>
      simp only [Bool.false_eq_true, if_false, decide_eq_false_iff_not]
      omega
    | true => simp
  rw [decode, hexp, hfrac, hneg, if_neg (by omega), if_neg (by omega)]

/-- The significand of a small integer is scaled to 53 bits. -/
theorem scaled_bounds {m : Nat} (h : m ≠ 0) (hm : m < 2 ^ 53) :
    m.log2 ≤ 52 ∧ 2 ^ 52 ≤ m * 2 ^ (52 - m.log2) ∧ m * 2 ^ (52 - m.log2) < 2 ^ 53 := by
  have hlo : 2 ^ m.log2 ≤ m := Nat.log2_self_le h
  have hhi : m < 2 ^ (m.log2 + 1) := Nat.lt_log2_self
  have hL : m.log2 ≤ 52 := by
    have := (Nat.log2_lt h).mpr hm
    omega
  have e : 2 ^ m.log2 * 2 ^ (52 - m.log2) = 2 ^ 52 := by
    rw [← Nat.pow_add]
    congr 1
    omega
  have hpos : 0 < 2 ^ (52 - m.log2) := Nat.two_pow_pos _
  refine ⟨hL, ?_, ?_⟩
  · rw [← e]
    exact Nat.mul_le_mul_right _ hlo
  · calc m * 2 ^ (52 - m.log2) < 2 ^ (m.log2 + 1) * 2 ^ (52 - m.log2) :=
          Nat.mul_lt_mul_of_pos_right hhi hpos
      _ = 2 ^ 53 := by rw [← Nat.pow_add]; congr 1; omega

/-- A nonzero significand below `2^53` is written without rounding: the unit of the result is at
most one, and shifting to it loses nothing. -/
theorem round_of_small {s : Bool} {m : Nat} (hz : m ≠ 0) (h : m < 2 ^ 53) :
    round s m 0
      = ofMagnitude s ((m.log2 + 1023) * 2 ^ 52 + (m * 2 ^ (52 - m.log2) - 2 ^ 52)) := by
  obtain ⟨hL, hlo, hhi⟩ := scaled_bounds hz h
  -- the unit of the result is `2^(log2 m - 52)`, which is not above one
  have hq : max ((0 : Int) + (m.log2 : Int) - 52) (-1074) = (m.log2 : Int) - 52 := by omega
  have hshift : ((0 : Int) - ((m.log2 : Int) - 52)).toNat = 52 - m.log2 := by omega
  have hexp : ((m.log2 : Int) - 52 + 1074).toNat = m.log2 + 1022 := by omega
  simp only [round, if_neg hz, hq, hshift, hexp, Nat.shiftLeft_eq]
  rw [if_neg (by omega)]
  generalize m * 2 ^ (52 - m.log2) = x at *
  exact congrArg (ofMagnitude s) (by omega)

/-- **Integers below `2^53` are doubles.**  The double made of such an integer reads as a number
whose whole part is the integer. -/
theorem decode_ofInt {z : Int} (h : z.natAbs < 2 ^ 53) :
    ∃ m e, (ofInt z).decode = .finite (z < 0) m e ∧ wholePart m e = z.natAbs := by
  by_cases hz : z.natAbs = 0
  · obtain rfl : z = 0 := Int.natAbs_eq_zero.mp hz
    exact ⟨0, -1074, rfl, by rw [wholePart, if_neg (by decide), Nat.zero_shiftRight]; rfl⟩
  obtain ⟨hL, hlo, hhi⟩ := scaled_bounds hz h
  refine ⟨z.natAbs * 2 ^ (52 - z.natAbs.log2), (z.natAbs.log2 : Int) - 52, ?_, ?_⟩
  · rw [ofInt, round_of_small hz h]
    generalize z.natAbs * 2 ^ (52 - z.natAbs.log2) = x at *
    rw [decode_ofMagnitude (by omega) (by omega) (by omega)]
    have hlead : leadingBit = 2 ^ 52 := rfl
    simp only [Reading.finite.injEq, true_and, hlead]
    constructor <;> omega
  · unfold wholePart
    split
    · have e : z.natAbs.log2 = 52 := by omega
      rw [e]
      simp
    · have e : (-((z.natAbs.log2 : Int) - 52)).toNat = 52 - z.natAbs.log2 := by omega
      rw [e, Nat.shiftRight_eq_div_pow]
      exact Nat.mul_div_cancel _ (Nat.two_pow_pos _)

/-- **A small integer survives the way to a double and back.** A double has 53 bits for its
significand, and an integer with no more of them is not rounded. -/
theorem whole?_ofInt {z : Int} (h : z.natAbs < 2 ^ 53) : (ofInt z).whole? = some z := by
  obtain ⟨m, e, hd, hw⟩ := decode_ofInt h
  rw [whole?, hd]
  simp only [hw, Option.some.injEq, decide_eq_true_eq]
  split <;> omega

theorem truncate_ofInt {lo hi z : Int} (h : z.natAbs < 2 ^ 53) (hlo : lo ≤ z) (hhi : z ≤ hi) :
    truncate lo hi (ofInt z) = z := by
  obtain ⟨m, e, hd, hw⟩ := decode_ofInt h
  rw [truncate, hd]
  simp only [hw, decide_eq_true_eq]
  split <;> omega

end F64

end WasmTrim
