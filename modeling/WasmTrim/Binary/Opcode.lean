/-
# Operations in the binary format

An operation is an opcode followed by its immediates (`compile_instruction`).  Saturating
truncations have an opcode of two bytes: a prefix, and a number behind it.

Operations, types and values are written as the binary format prescribes.  Everything that has an
index is followed by the index as an unsigned number; a region is followed by its result, a branch
table by a vector of labels and the label that stands for all others.  Memory is always the first
and only one, so the immediate of a memory access is an alignment and an offset, and the
operations on its size are followed by a zero.

The alignment is written as it stands in the program.  Its bit number six has a meaning of its
own in the format (the number of a memory follows), and nothing here keeps a program from having
it.
-/
import WasmTrim.Binary.Leb128
import WasmTrim.Instr.Basic

namespace WasmTrim

open Leb128

/-! ## 1. Types and values

A type is one byte, and so is the result of a region: the byte of its type, or the one for none. -/

/-- The byte of a value type (`to_val_type`), the same in signatures, locals, globals and regions.
-/
def ValueType.byte : ValueType → UInt8
  | .i32 => 0x7f
  | .i64 => 0x7e
  | .f64 => 0x7c

/-- The byte of a block type: that of the result, or the one for no result. Regions take no
parameters, so no position in the type table is ever written here. -/
def ResultType.byte : ResultType → UInt8
  | none => 0x40
  | some t => t.byte

/-- The eight bytes of a double, the lowest first. -/
def F64.bytes (x : F64) : Bytes :=
  (List.range 8).map fun k => .ofBitVec (x.bits.extractLsb' (8 * k) 8)

/-- A vector: its length and then its items, each in its own encoding and without anything between
them. -/
def encodeVector {α : Type} (encode : α → Bytes) (items : List α) : Bytes :=
  unsigned items.length ++ items.flatMap encode

/-! ## 2. Opcodes

The opcodes are all different, so an operation can be read back from its bytes
(`Proofs/Binary/Operations`). -/

/-- The opcode of a numeric operation. All take one byte but the saturating truncations, which stand
behind a prefix. -/
def NumOp.opcode : NumOp → Bytes
  | .i32Eqz => [0x45]
  | .i32Eq => [0x46]
  | .i32Ne => [0x47]
  | .i32LtS => [0x48]
  | .i32LtU => [0x49]
  | .i32GtS => [0x4a]
  | .i32GtU => [0x4b]
  | .i32LeS => [0x4c]
  | .i32LeU => [0x4d]
  | .i32GeS => [0x4e]
  | .i32GeU => [0x4f]
  | .i64Eqz => [0x50]
  | .i64Eq => [0x51]
  | .i64Ne => [0x52]
  | .i64LtS => [0x53]
  | .i64GtS => [0x55]
  | .i64LeS => [0x57]
  | .i64GeS => [0x59]
  | .f64Eq => [0x61]
  | .f64Ne => [0x62]
  | .f64Lt => [0x63]
  | .f64Gt => [0x64]
  | .f64Le => [0x65]
  | .f64Ge => [0x66]
  | .i32Add => [0x6a]
  | .i32Sub => [0x6b]
  | .i32Mul => [0x6c]
  | .i32DivS => [0x6d]
  | .i32DivU => [0x6e]
  | .i32RemS => [0x6f]
  | .i32RemU => [0x70]
  | .i32And => [0x71]
  | .i32Or => [0x72]
  | .i32Xor => [0x73]
  | .i32Shl => [0x74]
  | .i32ShrS => [0x75]
  | .i32ShrU => [0x76]
  | .i64Add => [0x7c]
  | .i64Sub => [0x7d]
  | .i64Mul => [0x7e]
  | .i64DivS => [0x7f]
  | .i64RemS => [0x81]
  | .i64And => [0x83]
  | .i64Or => [0x84]
  | .i64Xor => [0x85]
  | .i64Shl => [0x86]
  | .i64ShrS => [0x87]
  | .i64ShrU => [0x88]
  | .f64Abs => [0x99]
  | .f64Neg => [0x9a]
  | .f64Ceil => [0x9b]
  | .f64Floor => [0x9c]
  | .f64Trunc => [0x9d]
  | .f64Nearest => [0x9e]
  | .f64Sqrt => [0x9f]
  | .f64Add => [0xa0]
  | .f64Sub => [0xa1]
  | .f64Mul => [0xa2]
  | .f64Div => [0xa3]
  | .f64Min => [0xa4]
  | .f64Max => [0xa5]
  | .f64Copysign => [0xa6]
  | .i32WrapI64 => [0xa7]
  | .i64ExtendI32S => [0xac]
  | .i64ExtendI32U => [0xad]
  | .i32TruncF64S => [0xaa]
  | .i32TruncF64U => [0xab]
  | .i32TruncSatF64S => [0xfc, 0x02]
  | .i32TruncSatF64U => [0xfc, 0x03]
  | .i64TruncSatF64S => [0xfc, 0x06]
  | .i64TruncSatF64U => [0xfc, 0x07]
  | .f64ConvertI32S => [0xb7]
  | .f64ConvertI32U => [0xb8]
  | .f64ConvertI64S => [0xb9]
  | .f64ConvertI64U => [0xba]
  | .i64ReinterpretF64 => [0xbd]
  | .f64ReinterpretI64 => [0xbf]

/-- The opcode that opens a region. -/
def RegionKind.opcode : RegionKind → UInt8
  | .block => 0x02
  | .loop => 0x03
  | .ifThen => 0x04
  | .tryCatch => 0x06

/-- The opcode of a load. The two that read less than a word read it without a sign. -/
def Access.loadOpcode : Access → UInt8
  | .i32 => 0x28
  | .i64 => 0x29
  | .f64 => 0x2b
  | .i32Byte => 0x2d
  | .i32Half => 0x2f

/-- The opcode of a store. -/
def Access.storeOpcode : Access → UInt8
  | .i32 => 0x36
  | .i64 => 0x37
  | .f64 => 0x39
  | .i32Byte => 0x3a
  | .i32Half => 0x3b

/-! ## 3. Operations

Markers are not written: they are notes for the optimizer. -/

/-- Alignment and offset of an access (`mem_arg`). The alignment is written as it stands; a reader
takes bit six of it for the sign that an index of a memory follows. -/
def MemArg.encode (arg : MemArg) : Bytes := unsigned arg.align ++ unsigned arg.offset

/-- The operation that pushes a constant. Integers are signed however they are used, and a double is
its eight bytes as they are, a NaN included. -/
def Value.encode : Value → Bytes
  | .i32 bits => 0x41 :: signed bits.toInt
  | .i64 bits => 0x42 :: signed bits.toInt
  | .f64 number => 0x44 :: number.bytes

/-- An operation with its immediates (`compile_instruction`), without the marker that it may have.
Indices and labels are written as natural numbers. -/
def Op.encode : Op → Bytes
  | .unreachable => [0x00]
  | .nop => [0x01]
  | .enter kind result => [kind.opcode, ResultType.byte result]
  | .elseArm => [0x05]
  | .close => [0x0b]
  | .br label => 0x0c :: unsigned label
  | .brIf label => 0x0d :: unsigned label
  | .brTable targets fallback => 0x0e :: encodeVector unsigned targets ++ unsigned fallback
  | .ret => [0x0f]
  | .call target => 0x10 :: unsigned target
  | .returnCall target => 0x12 :: unsigned target
  | .catchTag tag => 0x07 :: unsigned tag
  | .catchAll => [0x19]
  | .throwTag tag => 0x08 :: unsigned tag
  | .rethrow label => 0x09 :: unsigned label
  | .delegate label => 0x18 :: unsigned label
  | .drop => [0x1a]
  | .select => [0x1b]
  | .localGet index => 0x20 :: unsigned index
  | .localSet index => 0x21 :: unsigned index
  | .localTee index => 0x22 :: unsigned index
  | .globalGet index => 0x23 :: unsigned index
  | .globalSet index => 0x24 :: unsigned index
  | .load access arg => access.loadOpcode :: arg.encode
  | .store access arg => access.storeOpcode :: arg.encode
  | .memorySize => [0x3f, 0x00]
  | .memoryGrow => [0x40, 0x00]
  | .const v => v.encode
  | .num op => op.opcode

end WasmTrim
