/-
# The instruction set

The typing rule of every instruction that a binary can hold, by its opcode.  Instructions on
tables, segments and continuations are refused, since a module without any has nothing they
could refer to.

The features that are enabled are those that the validator enables by default, with tail calls,
exceptions and the older form of exceptions besides (`validate`).  An instruction of a feature
that is not enabled has no rule here, and neither has an opcode that means nothing.

Tables of ranges keep this short: comparisons, arithmetic and vector operations differ in what
they compute and not in their types.  What is left are the instructions with immediates, which
are listed one by one.
-/
import WasmTrim.Validation.Immediate
import WasmTrim.Validation.Rule

namespace WasmTrim.Validation

open Reader

/-! ## 1. Tables

Opcodes of instructions with the same typing mostly follow each other.  A table lists such ranges;
an instruction in one of them has no immediates, and its rule is an arrow. -/

/-- The opcodes from `first` to `last` take and leave operands of the given types. -/
structure OpcodeRange where
  first : Nat
  last : Nat
  takes : List OperandType
  leaves : List OperandType

/-- The rule of an opcode, if a range of the table has it. -/
def ruleIn? (table : List OpcodeRange) (opcode : Nat) : Option Rule :=
  (table.find? fun r => r.first ≤ opcode && opcode ≤ r.last).map fun r => .arrow r.takes r.leaves

/-! ## 2. Numeric instructions

All of them, with those on single floats that no lowered program holds. -/

/-- The numeric instructions with an opcode of one byte, as ranges of opcodes with the same operands
and results. -/
def numericTable : List OpcodeRange :=
  [⟨0x45, 0x45, [.i32], [.i32]⟩, ⟨0x46, 0x4f, [.i32, .i32], [.i32]⟩,
   ⟨0x50, 0x50, [.i64], [.i32]⟩, ⟨0x51, 0x5a, [.i64, .i64], [.i32]⟩,
   ⟨0x5b, 0x60, [.f32, .f32], [.i32]⟩, ⟨0x61, 0x66, [.f64, .f64], [.i32]⟩,
   ⟨0x67, 0x69, [.i32], [.i32]⟩, ⟨0x6a, 0x78, [.i32, .i32], [.i32]⟩,
   ⟨0x79, 0x7b, [.i64], [.i64]⟩, ⟨0x7c, 0x8a, [.i64, .i64], [.i64]⟩,
   ⟨0x8b, 0x91, [.f32], [.f32]⟩, ⟨0x92, 0x98, [.f32, .f32], [.f32]⟩,
   ⟨0x99, 0x9f, [.f64], [.f64]⟩, ⟨0xa0, 0xa6, [.f64, .f64], [.f64]⟩,
   ⟨0xa7, 0xa7, [.i64], [.i32]⟩, ⟨0xa8, 0xa9, [.f32], [.i32]⟩, ⟨0xaa, 0xab, [.f64], [.i32]⟩,
   ⟨0xac, 0xad, [.i32], [.i64]⟩, ⟨0xae, 0xaf, [.f32], [.i64]⟩, ⟨0xb0, 0xb1, [.f64], [.i64]⟩,
   ⟨0xb2, 0xb3, [.i32], [.f32]⟩, ⟨0xb4, 0xb5, [.i64], [.f32]⟩, ⟨0xb6, 0xb6, [.f64], [.f32]⟩,
   ⟨0xb7, 0xb8, [.i32], [.f64]⟩, ⟨0xb9, 0xba, [.i64], [.f64]⟩, ⟨0xbb, 0xbb, [.f32], [.f64]⟩,
   ⟨0xbc, 0xbc, [.f32], [.i32]⟩, ⟨0xbd, 0xbd, [.f64], [.i64]⟩,
   ⟨0xbe, 0xbe, [.i32], [.f32]⟩, ⟨0xbf, 0xbf, [.i64], [.f64]⟩,
   ⟨0xc0, 0xc1, [.i32], [.i32]⟩, ⟨0xc2, 0xc4, [.i64], [.i64]⟩]

/-- The saturating truncations, and the bulk operations on memory, by the number behind
`0xfc`. -/
def bulkRule : Nat → Reader Rule
  | 0x00 | 0x01 => return .arrow [.f32] [.i32]
  | 0x02 | 0x03 => return .arrow [.f64] [.i32]
  | 0x04 | 0x05 => return .arrow [.f32] [.i64]
  | 0x06 | 0x07 => return .arrow [.f64] [.i64]
  | 0x0a => return .memory [← u32, ← u32] [.i32, .i32, .i32] []
  | 0x0b => return .memory [← u32] [.i32, .i32, .i32] []
  | _ => fail

/-! ## 3. Loads and stores

An access may be aligned to at most the number of bytes it reads or writes. -/

/-- A load of a value, with the binary logarithm of its size. -/
def load (type : OperandType) (alignment : Nat) : Reader Rule :=
  memoryAccess (.upTo alignment) [.i32] [type]

/-- A store of a value, with the binary logarithm of its size. -/
def store (type : OperandType) (alignment : Nat) : Reader Rule :=
  memoryAccess (.upTo alignment) [.i32, type] []

/-! ## 4. References

Casts, and conversions between kinds of references, have opcodes of two numbers, the first of which
is `0xfb`.  Instructions on structures and arrays need a structure or an array type, of which a
module with function types only has none; they are refused here. -/

/-- A reference type with the given nullability. -/
def refType (nullable : Bool) : Reader RefType := do return ⟨nullable, ← heapType⟩

/-- A branch on the outcome of a cast: which types are nullable, the label, and the types
before and after the cast. -/
def branchOnCast (rule : Nat → RefType → RefType → Rule) : Reader Rule := do
  let flags ← byte
  check (flags < 4)
  let label ← u32
  let source ← refType (flags % 2 = 1)
  let target ← refType (2 ≤ flags)
  return rule label source target

/-- The instruction on references of the given number behind its prefix: arrays, tests and casts,
and the short integers that fit into a reference. -/
def referenceRule : Nat → Reader Rule
  | 0x0f => return .arrow [.optional .array] [.i32]
  | 0x14 => return .refTest (← refType false)
  | 0x15 => return .refTest (← refType true)
  | 0x16 => return .refCast (← refType false)
  | 0x17 => return .refCast (← refType true)
  | 0x18 => branchOnCast .brOnCast
  | 0x19 => branchOnCast .brOnCastFail
  | 0x1a => return .refConvert .host .any
  | 0x1b => return .refConvert .any .host
  | 0x1c => return .arrow [.i32] [.ref ⟨false, .i31⟩]
  | 0x1d | 0x1e => return .arrow [.optional .i31] [.i32]
  | _ => fail

/-! ## 5. Atomic accesses

The atomic accesses to memory have opcodes of two numbers, the first of which is `0xfe`.  They must
be aligned to exactly their size.  Loads, stores, read-modify-write operations and exchanges each
come in the same seven widths. -/

/-- The seven widths: the type of the value and the binary logarithm of the bytes accessed. -/
def atomicWidths : List (OperandType × Nat) :=
  [(.i32, 2), (.i64, 3), (.i32, 0), (.i32, 1), (.i64, 0), (.i64, 1), (.i64, 2)]

/-- An atomic access in one of the seven widths. -/
def atomicAccess (width : Nat) (takes leaves : OperandType → List OperandType) : Reader Rule :=
  match atomicWidths[width]? with
  | some (type, alignment) =>
    memoryAccess (.exactly alignment) (.i32 :: takes type) (leaves type)
  | none => fail

/-- The atomic instruction of the given number behind its prefix. All of them access memory at
exactly their own alignment, but for the fence, which has no operands. -/
def atomicRule (opcode : Nat) : Reader Rule :=
  match opcode with
  | 0x00 => memoryAccess (.exactly 2) [.i32, .i32] [.i32]
  | 0x01 => memoryAccess (.exactly 2) [.i32, .i32, .i64] [.i32]
  | 0x02 => memoryAccess (.exactly 3) [.i32, .i64, .i64] [.i32]
  | 0x03 => do
    check ((← byte) = 0)
    return .arrow [] []
  | _ =>
    if opcode < 0x10 then fail
    else if opcode < 0x17 then atomicAccess (opcode - 0x10) (fun _ => []) fun t => [t]
    else if opcode < 0x1e then atomicAccess (opcode - 0x17) (fun t => [t]) fun _ => []
    -- six families of read-modify-write operations
    else if opcode < 0x48 then
      atomicAccess ((opcode - 0x1e) % 7) (fun t => [t]) fun t => [t]
    else atomicAccess (opcode - 0x48) (fun t => [t, t]) fun t => [t]

/-! ## 6. Vectors

The instructions on vectors of 128 bits have opcodes of two numbers, the first of which is `0xfd`.
They are told apart here by the second. -/

/-- The vector instructions without immediates, as ranges of numbers with the same operands and
results. The numbers between the ranges belong to no instruction of this kind. -/
def vectorTable : List OpcodeRange :=
  let unary := fun first last => OpcodeRange.mk first last [.v128] [.v128]
  let binary := fun first last => OpcodeRange.mk first last [.v128, .v128] [.v128]
  let ternary := fun first last => OpcodeRange.mk first last [.v128, .v128, .v128] [.v128]
  let test := fun first last => OpcodeRange.mk first last [.v128] [.i32]
  let shift := fun first last => OpcodeRange.mk first last [.v128, .i32] [.v128]
  [binary 0x0e 0x0e,
   ⟨0x0f, 0x11, [.i32], [.v128]⟩, ⟨0x12, 0x12, [.i64], [.v128]⟩,
   ⟨0x13, 0x13, [.f32], [.v128]⟩, ⟨0x14, 0x14, [.f64], [.v128]⟩,
   binary 0x23 0x4c, unary 0x4d 0x4d, binary 0x4e 0x51, ternary 0x52 0x52, test 0x53 0x53,
   unary 0x5e 0x62, test 0x63 0x64, binary 0x65 0x66, unary 0x67 0x6a, shift 0x6b 0x6d,
   binary 0x6e 0x73, unary 0x74 0x75, binary 0x76 0x79, unary 0x7a 0x7a, binary 0x7b 0x7b,
   unary 0x7c 0x81, binary 0x82 0x82, test 0x83 0x84, binary 0x85 0x86, unary 0x87 0x8a,
   shift 0x8b 0x8d, binary 0x8e 0x93, unary 0x94 0x94, binary 0x95 0x99, binary 0x9b 0x9f,
   unary 0xa0 0xa1, test 0xa3 0xa4, unary 0xa7 0xaa, shift 0xab 0xad, binary 0xae 0xae,
   binary 0xb1 0xb1, binary 0xb5 0xba, binary 0xbc 0xbf,
   unary 0xc0 0xc1, test 0xc3 0xc4, unary 0xc7 0xca, shift 0xcb 0xcd, binary 0xce 0xce,
   binary 0xd1 0xd1, binary 0xd5 0xdf,
   unary 0xe0 0xe1, unary 0xe3 0xe3, binary 0xe4 0xeb,
   unary 0xec 0xed, unary 0xef 0xef, binary 0xf0 0xf7, unary 0xf8 0xff,
   binary 0x100 0x100, unary 0x101 0x104, ternary 0x105 0x10c, binary 0x10d 0x112,
   ternary 0x113 0x113]

/-- A load of a vector. -/
def loadVector (alignment : Nat) : Reader Rule := memoryAccess (.upTo alignment) [.i32] [.v128]

/-- A load of one lane into a vector. -/
def loadLane (alignment lanes : Nat) : Reader Rule := do
  let rule ← memoryAccess (.upTo alignment) [.i32, .v128] [.v128]
  lane lanes
  return rule

/-- A store of one lane of a vector. -/
def storeLane (alignment lanes : Nat) : Reader Rule := do
  let rule ← memoryAccess (.upTo alignment) [.i32, .v128] []
  lane lanes
  return rule

/-- The value of a lane. The number of lanes depends on the shape, and the lane has to be one of
them. -/
def extractLane (lanes : Nat) (type : OperandType) : Reader Rule := do
  lane lanes
  return .arrow [.v128] [type]

/-- A vector with a new value in one lane. -/
def replaceLane (lanes : Nat) (type : OperandType) : Reader Rule := do
  lane lanes
  return .arrow [.v128, type] [.v128]

/-- The vector instruction of the given number behind its prefix: first those with immediates one by
one, then the table of the others. -/
def vectorRule : Nat → Reader Rule
  | 0x00 => loadVector 4
  | 0x01 | 0x02 | 0x03 | 0x04 | 0x05 | 0x06 => loadVector 3
  | 0x07 => loadVector 0
  | 0x08 => loadVector 1
  | 0x09 | 0x5c => loadVector 2
  | 0x0a | 0x5d => loadVector 3
  | 0x0b => memoryAccess (.upTo 4) [.i32, .v128] []
  | 0x0c => do
    skip 16
    return .arrow [] [.v128]
  | 0x0d => do
    let _ ← (lane 32).times 16
    return .arrow [.v128, .v128] [.v128]
  | 0x15 | 0x16 => extractLane 16 .i32
  | 0x17 => replaceLane 16 .i32
  | 0x18 | 0x19 => extractLane 8 .i32
  | 0x1a => replaceLane 8 .i32
  | 0x1b => extractLane 4 .i32
  | 0x1c => replaceLane 4 .i32
  | 0x1d => extractLane 2 .i64
  | 0x1e => replaceLane 2 .i64
  | 0x1f => extractLane 4 .f32
  | 0x20 => replaceLane 4 .f32
  | 0x21 => extractLane 2 .f64
  | 0x22 => replaceLane 2 .f64
  | 0x54 => loadLane 0 16
  | 0x55 => loadLane 1 8
  | 0x56 => loadLane 2 4
  | 0x57 => loadLane 3 2
  | 0x58 => storeLane 0 16
  | 0x59 => storeLane 1 8
  | 0x5a => storeLane 2 4
  | 0x5b => storeLane 3 2
  | opcode =>
    match ruleIn? vectorTable opcode with
    | some rule => return rule
    | none => fail

/-! ## 7. All instructions

The first byte decides; four values of it are prefixes of the longer opcodes above. -/

/-- The rule of the instruction with the given opcode; its immediates are read. -/
def instruction : UInt8 → Reader Rule
  | 0x00 => return .stop []
  | 0x01 => return .arrow [] []
  | 0x02 => return .enter .block (← blockType)
  | 0x03 => return .enter .loop (← blockType)
  | 0x04 => return .enter .ifThen (← blockType)
  | 0x05 => return .elseArm
  | 0x06 => return .enter .tryCatch (← blockType)
  | 0x07 => return .catchTag (← u32)
  | 0x08 => return .throwTag (← u32)
  | 0x09 => return .rethrow (← u32)
  | 0x0a => return .stop [.optional .exception]
  | 0x0b => return .close
  | 0x0c => return .br (← u32)
  | 0x0d => return .brIf (← u32)
  | 0x0e => return .brTable (← u32.times (← u32)) (← u32)
  | 0x0f => return .ret
  | 0x10 => return .call (← u32)
  | 0x12 => return .returnCall (← u32)
  | 0x14 => return .callRef (← u32)
  | 0x15 => return .returnCallRef (← u32)
  | 0x18 => return .delegate (← u32)
  | 0x19 => return .catchAll
  | 0x1a => return .drop
  | 0x1b => return .select
  | 0x1c => do
    check ((← u32) = 1)
    let type ← operandType
    return .arrow [type, type, .i32] [type]
  | 0x1f => return .enterHandled (← blockType) (← handlers)
  | 0x20 => return .localGet (← u32)
  | 0x21 => return .localSet (← u32)
  | 0x22 => return .localTee (← u32)
  | 0x23 => return .globalGet (← u32)
  | 0x24 => return .globalSet (← u32)
  | 0x28 => load .i32 2
  | 0x29 => load .i64 3
  | 0x2a => load .f32 2
  | 0x2b => load .f64 3
  | 0x2c | 0x2d => load .i32 0
  | 0x2e | 0x2f => load .i32 1
  | 0x30 | 0x31 => load .i64 0
  | 0x32 | 0x33 => load .i64 1
  | 0x34 | 0x35 => load .i64 2
  | 0x36 => store .i32 2
  | 0x37 => store .i64 3
  | 0x38 => store .f32 2
  | 0x39 => store .f64 3
  | 0x3a => store .i32 0
  | 0x3b => store .i32 1
  | 0x3c => store .i64 0
  | 0x3d => store .i64 1
  | 0x3e => store .i64 2
  | 0x3f => return .memory [← u32] [] [.i32]
  | 0x40 => return .memory [← u32] [.i32] [.i32]
  | 0x41 => do
    let _ ← Leb128.readSigned 32
    return .arrow [] [.i32]
  | 0x42 => do
    let _ ← Leb128.readSigned 64
    return .arrow [] [.i64]
  | 0x43 => do
    skip 4
    return .arrow [] [.f32]
  | 0x44 => do
    skip 8
    return .arrow [] [.f64]
  | 0xd0 => return .arrow [] [.optional (← heapType)]
  | 0xd1 => return .refIsNull
  | 0xd2 => return .refFunc (← u32)
  | 0xd3 => return .arrow [.optional .eq, .optional .eq] [.i32]
  | 0xd4 => return .refAsNonNull
  | 0xd5 => return .brOnNull (← u32)
  | 0xd6 => return .brOnNonNull (← u32)
  | 0xfb => do referenceRule (← u32)
  | 0xfc => do bulkRule (← u32)
  | 0xfd => do vectorRule (← u32)
  | 0xfe => do atomicRule (← u32)
  | opcode =>
    match ruleIn? numericTable opcode.toNat with
    | some rule => return rule
    | none => fail

end WasmTrim.Validation
