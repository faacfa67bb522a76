/-
# Numeric operations

The operations that pop one or two operands and push one result, with no immediate: tests and
comparisons, arithmetic, and conversions between value types.  Everything that the library
needs to know about one of them is a row of a table over this enumeration: its mnemonic, its
operand types, its result type and, in the binary format, its opcode.

They are 77 of the operations of the lowered form, and they are gathered in a type of their own
because nearly everything treats them alike.  A pass that does not match on one by name treats
all of them as one case; the rules that do are those on `i32.eq`, on `i32.wrap_i64`, on the
conversions and on sums and differences.

The enumeration is that of the lowered form and not of the machine: there are no unsigned
comparisons or divisions of 64-bit integers, because no code is generated that needs them.  A
program that would is not a value of these types, so that it needs no treatment anywhere.
-/
import WasmTrim.ValueType

namespace WasmTrim

/-! ## 1. The enumeration

The order is that of the opcodes in the source of the lowered form: comparisons by type, then
arithmetic by type, then conversions. -/

/-- An operation on operands alone: the opcodes that carry no immediate and neither touch control
flow nor locals, globals or memory. -/
inductive NumOp where
  | i32Eqz | i32Eq | i32Ne | i32LtS | i32LtU | i32GtS | i32GtU | i32LeS | i32LeU | i32GeS
  | i32GeU | i64Eqz | i64Eq | i64Ne | i64LtS | i64GtS | i64LeS | i64GeS | f64Eq | f64Ne | f64Lt
  | f64Gt | f64Le | f64Ge
  | i32Add | i32Sub | i32Mul | i32DivS | i32DivU | i32RemS | i32RemU | i32And | i32Or | i32Xor
  | i32Shl | i32ShrS | i32ShrU | i64Add | i64Sub | i64Mul | i64DivS | i64RemS | i64And | i64Or
  | i64Xor | i64Shl | i64ShrS | i64ShrU | f64Abs | f64Neg | f64Ceil | f64Floor | f64Trunc
  | f64Nearest | f64Sqrt | f64Add | f64Sub | f64Mul | f64Div | f64Min | f64Max | f64Copysign
  | i32WrapI64 | i64ExtendI32S | i64ExtendI32U | i32TruncF64S | i32TruncF64U | i32TruncSatF64S
  | i32TruncSatF64U | i64TruncSatF64S | i64TruncSatF64U | f64ConvertI32S | f64ConvertI32U
  | f64ConvertI64S | f64ConvertI64U | i64ReinterpretF64 | f64ReinterpretI64
deriving DecidableEq

namespace NumOp

/-! ## 2. Operands and results

Comparisons give a 32-bit truth value whatever they compare.  An operation has one operand or two
of one type; no operation mixes types, and none has three operands. -/

/-- The types of the operands, the deepest first. There are one or two; unlike the other operations,
these take and leave the same whatever surrounds them. -/
def operands : NumOp → List ValueType
  | .i32Eqz | .i64ExtendI32S | .i64ExtendI32U | .f64ConvertI32S | .f64ConvertI32U =>
    [.i32]
  | .i32Eq | .i32Ne | .i32LtS | .i32LtU | .i32GtS | .i32GtU | .i32LeS | .i32LeU | .i32GeS
  | .i32GeU | .i32Add | .i32Sub | .i32Mul | .i32DivS | .i32DivU | .i32RemS | .i32RemU | .i32And
  | .i32Or | .i32Xor | .i32Shl | .i32ShrS | .i32ShrU =>
    [.i32, .i32]
  | .i64Eqz | .i32WrapI64 | .f64ConvertI64S | .f64ConvertI64U | .f64ReinterpretI64 =>
    [.i64]
  | .i64Eq | .i64Ne | .i64LtS | .i64GtS | .i64LeS | .i64GeS | .i64Add | .i64Sub | .i64Mul
  | .i64DivS | .i64RemS | .i64And | .i64Or | .i64Xor | .i64Shl | .i64ShrS | .i64ShrU =>
    [.i64, .i64]
  | .f64Eq | .f64Ne | .f64Lt | .f64Gt | .f64Le | .f64Ge | .f64Add | .f64Sub | .f64Mul | .f64Div
  | .f64Min | .f64Max | .f64Copysign =>
    [.f64, .f64]
  | .f64Abs | .f64Neg | .f64Ceil | .f64Floor | .f64Trunc | .f64Nearest | .f64Sqrt
  | .i32TruncF64S | .i32TruncF64U | .i32TruncSatF64S | .i32TruncSatF64U | .i64TruncSatF64S
  | .i64TruncSatF64U | .i64ReinterpretF64 =>
    [.f64]

/-- The type of the result, of which there is always exactly one. -/
def result : NumOp → ValueType
  | .i32Eqz | .i32Eq | .i32Ne | .i32LtS | .i32LtU | .i32GtS | .i32GtU | .i32LeS | .i32LeU
  | .i32GeS | .i32GeU | .i64Eqz | .i64Eq | .i64Ne | .i64LtS | .i64GtS | .i64LeS | .i64GeS
  | .f64Eq | .f64Ne | .f64Lt | .f64Gt | .f64Le | .f64Ge | .i32Add | .i32Sub | .i32Mul
  | .i32DivS | .i32DivU | .i32RemS | .i32RemU | .i32And | .i32Or | .i32Xor | .i32Shl | .i32ShrS
  | .i32ShrU | .i32WrapI64 | .i32TruncF64S | .i32TruncF64U | .i32TruncSatF64S
  | .i32TruncSatF64U =>
    .i32
  | .i64Add | .i64Sub | .i64Mul | .i64DivS | .i64RemS | .i64And | .i64Or | .i64Xor | .i64Shl
  | .i64ShrS | .i64ShrU | .i64ExtendI32S | .i64ExtendI32U | .i64TruncSatF64S | .i64TruncSatF64U
  | .i64ReinterpretF64 =>
    .i64
  | .f64Abs | .f64Neg | .f64Ceil | .f64Floor | .f64Trunc | .f64Nearest | .f64Sqrt | .f64Add
  | .f64Sub | .f64Mul | .f64Div | .f64Min | .f64Max | .f64Copysign | .f64ConvertI32S
  | .f64ConvertI32U | .f64ConvertI64S | .f64ConvertI64U | .f64ReinterpretI64 =>
    .f64

/-- An operation takes one operand, or two of one type. -/
theorem operands_uniform (op : NumOp) :
    ∃ t ∈ [ValueType.i32, .i64, .f64], op.operands = [t] ∨ op.operands = [t, t] := by
  cases op <;> decide

/-! ## 3. Mnemonics

The mnemonics (`mnemonic`) are those of the text format and all different, so an operation can
be found by its own. -/

/-- The name of the operation in the text format, as logs and errors show it (`mnemonic`). -/
def mnemonic : NumOp → String
  | .i32Eqz => "i32.eqz"
  | .i32Eq => "i32.eq"
  | .i32Ne => "i32.ne"
  | .i32LtS => "i32.lt_s"
  | .i32LtU => "i32.lt_u"
  | .i32GtS => "i32.gt_s"
  | .i32GtU => "i32.gt_u"
  | .i32LeS => "i32.le_s"
  | .i32LeU => "i32.le_u"
  | .i32GeS => "i32.ge_s"
  | .i32GeU => "i32.ge_u"
  | .i64Eqz => "i64.eqz"
  | .i64Eq => "i64.eq"
  | .i64Ne => "i64.ne"
  | .i64LtS => "i64.lt_s"
  | .i64GtS => "i64.gt_s"
  | .i64LeS => "i64.le_s"
  | .i64GeS => "i64.ge_s"
  | .f64Eq => "f64.eq"
  | .f64Ne => "f64.ne"
  | .f64Lt => "f64.lt"
  | .f64Gt => "f64.gt"
  | .f64Le => "f64.le"
  | .f64Ge => "f64.ge"
  | .i32Add => "i32.add"
  | .i32Sub => "i32.sub"
  | .i32Mul => "i32.mul"
  | .i32DivS => "i32.div_s"
  | .i32DivU => "i32.div_u"
  | .i32RemS => "i32.rem_s"
  | .i32RemU => "i32.rem_u"
  | .i32And => "i32.and"
  | .i32Or => "i32.or"
  | .i32Xor => "i32.xor"
  | .i32Shl => "i32.shl"
  | .i32ShrS => "i32.shr_s"
  | .i32ShrU => "i32.shr_u"
  | .i64Add => "i64.add"
  | .i64Sub => "i64.sub"
  | .i64Mul => "i64.mul"
  | .i64DivS => "i64.div_s"
  | .i64RemS => "i64.rem_s"
  | .i64And => "i64.and"
  | .i64Or => "i64.or"
  | .i64Xor => "i64.xor"
  | .i64Shl => "i64.shl"
  | .i64ShrS => "i64.shr_s"
  | .i64ShrU => "i64.shr_u"
  | .f64Abs => "f64.abs"
  | .f64Neg => "f64.neg"
  | .f64Ceil => "f64.ceil"
  | .f64Floor => "f64.floor"
  | .f64Trunc => "f64.trunc"
  | .f64Nearest => "f64.nearest"
  | .f64Sqrt => "f64.sqrt"
  | .f64Add => "f64.add"
  | .f64Sub => "f64.sub"
  | .f64Mul => "f64.mul"
  | .f64Div => "f64.div"
  | .f64Min => "f64.min"
  | .f64Max => "f64.max"
  | .f64Copysign => "f64.copysign"
  | .i32WrapI64 => "i32.wrap_i64"
  | .i64ExtendI32S => "i64.extend_i32_s"
  | .i64ExtendI32U => "i64.extend_i32_u"
  | .i32TruncF64S => "i32.trunc_f64_s"
  | .i32TruncF64U => "i32.trunc_f64_u"
  | .i32TruncSatF64S => "i32.trunc_sat_f64_s"
  | .i32TruncSatF64U => "i32.trunc_sat_f64_u"
  | .i64TruncSatF64S => "i64.trunc_sat_f64_s"
  | .i64TruncSatF64U => "i64.trunc_sat_f64_u"
  | .f64ConvertI32S => "f64.convert_i32_s"
  | .f64ConvertI32U => "f64.convert_i32_u"
  | .f64ConvertI64S => "f64.convert_i64_s"
  | .f64ConvertI64U => "f64.convert_i64_u"
  | .i64ReinterpretF64 => "i64.reinterpret_f64"
  | .f64ReinterpretI64 => "f64.reinterpret_i64"

/-- Every numeric operation, each once. What has to be decided for all of them is decided along this
list. -/
def all : List NumOp :=
  [.i32Eqz, .i32Eq, .i32Ne, .i32LtS, .i32LtU, .i32GtS, .i32GtU, .i32LeS, .i32LeU, .i32GeS,
   .i32GeU, .i64Eqz, .i64Eq, .i64Ne, .i64LtS, .i64GtS, .i64LeS, .i64GeS, .f64Eq, .f64Ne, .f64Lt,
   .f64Gt, .f64Le, .f64Ge, .i32Add, .i32Sub, .i32Mul, .i32DivS, .i32DivU, .i32RemS, .i32RemU,
   .i32And, .i32Or, .i32Xor, .i32Shl, .i32ShrS, .i32ShrU, .i64Add, .i64Sub, .i64Mul, .i64DivS,
   .i64RemS, .i64And, .i64Or, .i64Xor, .i64Shl, .i64ShrS, .i64ShrU, .f64Abs, .f64Neg, .f64Ceil,
   .f64Floor, .f64Trunc, .f64Nearest, .f64Sqrt, .f64Add, .f64Sub, .f64Mul, .f64Div, .f64Min,
   .f64Max, .f64Copysign, .i32WrapI64, .i64ExtendI32S, .i64ExtendI32U, .i32TruncF64S,
   .i32TruncF64U, .i32TruncSatF64S, .i32TruncSatF64U, .i64TruncSatF64S, .i64TruncSatF64U,
   .f64ConvertI32S, .f64ConvertI32U, .f64ConvertI64S, .f64ConvertI64U, .i64ReinterpretF64,
   .f64ReinterpretI64]

theorem mem_all (op : NumOp) : op ∈ all := by cases op <;> decide

/-- The operation with the given mnemonic, of which there is at most one. -/
def ofMnemonic? (name : String) : Option NumOp := all.find? fun op => op.mnemonic = name

end NumOp

end WasmTrim
