/-
# Immediates of instructions

How the immediates of an instruction are read back from a binary.

The immediate of a memory access starts with the alignment.  Its bit 6 is not part of the
alignment: it announces the index of a memory, which then stands before the offset.  So an
access that is written with an alignment of 64 or more is not read as it was written: its
offset is taken for the memory, and the bytes of what follows are taken for its offset.

This is the reason why a body is checked as bytes and not as a list of operations.  For operations
whose alignments are small the two are the same (`Proofs/Typing/Bytes`); for the others only the
bytes tell what the validator does, and a rule that removes an instruction behind such an access
changes what its offset is read as.

The immediates are read with the limits that the format sets: numbers have 32 bits, a vector of
handlers has a largest length, a lane has an index below the number of lanes.
-/
import WasmTrim.Binary.Leb128
import WasmTrim.Validation.Rule

namespace WasmTrim.Validation

open Reader

/-! ## 1. Numbers

Numbers of up to 32 bits, as all indices are, and the lane of a vector, which is one byte. -/

/-- An index, a label, or another number of 32 bits. -/
def u32 : Reader Nat := Leb128.readUnsigned 32

/-- The given number of bytes, whatever they are. -/
def skip (count : Nat) : Reader Unit := do
  let _ ← byte.times count

/-- A lane of a vector with the given number of lanes. -/
def lane (count : Nat) : Reader Unit := do
  let index ← byte
  check (index.toNat < count)

/-! ## 2. Memory accesses

Which memory is meant is kept, since it has to exist; the alignment is checked and forgotten, and
the offset is only checked to have 32 bits. -/

/-- How far an access may be aligned. Ordinary accesses may be aligned less than their size asks
for, atomic ones may not. -/
inductive Alignment where
  /-- At most to the given power of two. -/
  | upTo (exponent : Nat)
  /-- To exactly the given power of two. -/
  | exactly (exponent : Nat)

/-- Whether an access with the given exponent is allowed: for an ordinary access any that is small
enough, and for an atomic one exactly its own. -/
def Alignment.allows : Alignment → Nat → Bool
  | upTo bound, exponent => exponent ≤ bound
  | exactly bound, exponent => exponent = bound

/-- The immediate of a memory access, of which only the memory is kept. -/
def memArg (alignment : Alignment) : Reader Nat := do
  let flags ← u32
  let named := flags / 64 % 2 = 1
  let memory ← if named then u32 else pure 0
  let _offset ← u32
  check (alignment.allows (if named then flags - 64 else flags))
  return memory

/-- A memory access that takes operands and leaves results. The index of its memory is read with its
alignment and checked later. -/
def memoryAccess (alignment : Alignment) (takes leaves : List OperandType) : Reader Rule := do
  let memory ← memArg alignment
  return .memory [memory] takes leaves

/-! ## 3. Types

A type is a negative number of one byte, or the position of a declared type. -/

/-- The heap types that are written as one byte. -/
def abstractHeap? : UInt8 → Option HeapType
  | 0x69 => some .exception
  | 0x6a => some .array
  | 0x6b => some .struct
  | 0x6c => some .i31
  | 0x6d => some .eq
  | 0x6e => some .any
  | 0x6f => some .host
  | 0x70 => some .func
  | 0x71 => some .noAny
  | 0x72 => some .noHost
  | 0x73 => some .noFunc
  | 0x74 => some .noException
  | _ => none

/-- The position of a type.  It is written as a signed number, so that it differs from the
one-byte types, which are negative. -/
def typeIndex : Reader Nat := do
  let index ← Leb128.readSigned 33
  check (0 ≤ index)
  return index.toNat

/-- A heap type: one of the built-in ones by its byte, or a type of the program by its number. -/
def heapType : Reader HeapType := do
  match abstractHeap? (← peek) with
  | some heap =>
    let _ ← byte
    return heap
  | none => return .type (← typeIndex)

/-- The operand types that are written as one byte. -/
def simpleOperand? : UInt8 → Option OperandType
  | 0x7f => some .i32
  | 0x7e => some .i64
  | 0x7d => some .f32
  | 0x7c => some .f64
  | 0x7b => some .v128
  | b => (abstractHeap? b).map .optional

/-- An operand type: one byte for most, and for a reference one byte more and what it refers to. -/
def operandType : Reader OperandType := do
  let b ← byte
  match simpleOperand? b with
  | some type => return type
  | none =>
    match b with
    | 0x63 => return .ref ⟨true, ← heapType⟩
    | 0x64 => return .ref ⟨false, ← heapType⟩
    | _ => fail

/-- The type of a region: none, a value type, or the number of a signature. The three are told apart
by the first byte, which is looked at before it is read. -/
def blockType : Reader BlockType := do
  let b ← peek
  if b = 0x40 then
    let _ ← byte
    return .empty
  else if (simpleOperand? b).isSome || b = 0x63 || b = 0x64 then return .value (← operandType)
  else return .index (← typeIndex)

/-! ## 4. Handlers

The handlers of the newer form of exception handling, which no program that is compiled uses. -/

/-- A handler of a region: for one tag or for all exceptions, with or without a reference to the
exception, and the label it goes to. -/
def handler : Reader Handler := do
  match ← byte with
  | 0x00 => return .tag (← u32) false (← u32)
  | 0x01 => return .tag (← u32) true (← u32)
  | 0x02 => return .all false (← u32)
  | 0x03 => return .all true (← u32)
  | _ => fail

/-- The handlers of a region, of which there may be ten thousand. -/
def handlers : Reader (List Handler) := do
  let count ← u32
  check (count ≤ 10000)
  handler.times count

end WasmTrim.Validation
