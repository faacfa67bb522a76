/-
# Operations and instructions

A function body is a flat list of instructions.  An instruction (`Instruction`) is an operation
with its immediates (`Opcode`) and, optionally, a marker (`Marker`): a note left by the stage that
produced the body, which never changes what the operation does but tells the optimizer where a
dispatch over runtime types begins, which type a guard tests, and where the dispatch ends.

Structure is implicit in the list: an opener starts a region and an `end` (or, for a handler,
`delegate`) closes the innermost one.  Bodies need not be well nested; every function of the
library is defined on all of them, and its theorems say where they need nesting.

Everything that a pass asks of an operation is asked through one of the classes and maps below.
`mapLocal` and `mapCall` change the two kinds of index that a pass renumbers, those of locals
and those of functions; labels, globals and tags keep their numbers, as no pass removes any of
what they name.  Indices are natural numbers here and 32 bits in an instruction; the two places
where the difference can be seen are the end of the table of locals (`indexLimit`) and the
length of a body, and the first is a fault that every theorem about the optimizer has to
exclude.
-/
import WasmTrim.F64.Basic
import WasmTrim.Instr.NumOp
import WasmTrim.RuntimeType

namespace WasmTrim

/-! ## 1. Values

A constant carries a value, and the machine has values on its stack and in its locals: the type
is the same.  Integers have no sign; an operation reads one into them. -/

/-- A value of the stack machine. Integers are patterns of bits, read as signed or unsigned by the
operation that takes them, and doubles are patterns too, so that every NaN is a value of its own. -/
inductive Value where
  | i32 (bits : BitVec 32)
  | i64 (bits : BitVec 64)
  | f64 (number : F64)
deriving DecidableEq

/-- The type of a value. -/
def Value.type : Value → ValueType
  | .i32 _ => .i32
  | .i64 _ => .i64
  | .f64 _ => .f64

/-! ## 2. Immediates

All ten memory accesses of the lowered form are two operations with an immediate for the width.
The alignment is a promise that changes nothing but what a binary says. -/

/-- The four kinds of region (`RegionKind`). They differ in what their label stands for: that of a
`loop` goes back to its start, the others leave the region. -/
inductive RegionKind where
  | block
  | loop
  | ifThen
  | tryCatch
deriving DecidableEq

/-- How memory is accessed: a whole value, or the low 8 or 16 bits of a 32-bit one. -/
inductive Access where
  | i32
  | i64
  | f64
  | i32Byte
  | i32Half
deriving DecidableEq

namespace Access

/-- The type of the value that is loaded or stored. -/
def type : Access → ValueType
  | i32 | i32Byte | i32Half => .i32
  | i64 => .i64
  | f64 => .f64

/-- The binary logarithm of the number of bytes accessed, which is the largest alignment that an
access may announce. -/
def alignment : Access → Nat
  | i32 => 2
  | i64 | f64 => 3
  | i32Byte => 0
  | i32Half => 1

end Access

/-- The immediate of a memory access: a static offset, and the binary logarithm of the
promised alignment. -/
structure MemArg where
  offset : Nat
  align : Nat
deriving DecidableEq

/-! ## 3. Operations

The 77 opcodes of `NumOp` are one constructor, and so are the four openers of regions, the
three constants, the five loads and the five stores.  Everything else is as in the lowered
form. -/

/-- An operation with its immediates (`Opcode`). The four openers are one constructor here, and so
are the numeric operations, the loads and the stores, each with its kind as a field. -/
inductive Op where
  | unreachable
  | nop
  /-- Opens a region: `block`, `loop`, `if` and `try`. -/
  | enter (kind : RegionKind) (result : ResultType)
  /-- Ends the first arm of the innermost `if`: `else`. -/
  | elseArm
  /-- Closes the innermost region: `end`. -/
  | close
  | br (label : Nat)
  | brIf (label : Nat)
  | brTable (targets : List Nat) (fallback : Nat)
  /-- Leaves the function: `return`. -/
  | ret
  | call (target : Nat)
  | returnCall (target : Nat)
  | catchTag (tag : Nat)
  | catchAll
  | throwTag (tag : Nat)
  | rethrow (label : Nat)
  /-- Closes the innermost region and hands its exceptions to an enclosing one. -/
  | delegate (label : Nat)
  | drop
  | select
  | localGet (index : Nat)
  | localSet (index : Nat)
  | localTee (index : Nat)
  | globalGet (index : Nat)
  | globalSet (index : Nat)
  | load (access : Access) (arg : MemArg)
  | store (access : Access) (arg : MemArg)
  | memorySize
  | memoryGrow
  | const (value : Value)
  | num (op : NumOp)
deriving DecidableEq

namespace Op

/-- The 32-bit constant. -/
abbrev i32Const (v : BitVec 32) : Op := .const (.i32 v)

/-- The 64-bit constant. -/
abbrev i64Const (v : BitVec 64) : Op := .const (.i64 v)

/-- The floating-point constant. -/
abbrev f64Const (v : F64) : Op := .const (.f64 v)

/-! ## 4. Classes of operations

The questions that passes ask of an operation, each by the name it has there: `opens_region`,
`references_label`, `is_exception_op`, `is_const` and `stack_effect`. -/

/-- Opens a region (`opens_region`), which some later operation has to close. -/
def opensRegion : Op → Bool
  | .enter _ _ => true
  | _ => false

/-- Closes the innermost region. A `delegate` stands in the place of the `end` of its `try`. -/
def closesRegion : Op → Bool
  | .close | .delegate _ => true
  | _ => false

/-- Carries a label, that is a number of regions to leave (`references_label`).  A block without
such an operation inside can be taken away without renumbering anything. -/
def referencesLabel : Op → Bool
  | .br _ | .brIf _ | .brTable _ _ | .rethrow _ | .delegate _ => true
  | _ => false

/-- Raises, handles or passes on exceptions (`is_exception_op`). A function with such an operation
is never inlined. -/
def isException : Op → Bool
  | .enter .tryCatch _ | .catchTag _ | .catchAll | .throwTag _ | .rethrow _ | .delegate _ => true
  | _ => false

/-- Pushes a constant (`is_const`). -/
def isConst : Op → Bool
  | .const _ => true
  | _ => false

/-- Reads, writes or resizes memory. A function that has one of these in its body ought to carry the
flag `uses_memory`, which is what decides whether the program gets a memory. -/
def touchesMemory : Op → Bool
  | .load _ _ | .store _ _ | .memorySize | .memoryGrow => true
  | _ => false

/-- The numbers of values popped and pushed by an operation that works on operands only
(`stack_effect`).  Control flow and calls have none, since their effect depends on labels and
signatures. -/
def stackEffect? : Op → Option (Nat × Nat)
  | .nop => some (0, 0)
  | .drop | .localSet _ | .globalSet _ => some (1, 0)
  | .select => some (3, 1)
  | .localGet _ | .globalGet _ | .memorySize | .const _ => some (0, 1)
  | .localTee _ | .memoryGrow | .load _ _ => some (1, 1)
  | .store _ _ => some (2, 0)
  | .num op => some (op.operands.length, 1)
  | _ => none

/-! ## 5. Indices inside operations

At most one index of a local and at most one of a function stand in an operation
(`local_index_mut`, `call_target_mut`). -/

/-- The local that is read or written (`local_index_mut`), if the operation is on a local at all. -/
def localIndex? : Op → Option Nat
  | .localGet i | .localSet i | .localTee i => some i
  | _ => none

/-- The local that is written, by a `local.set` or a `local.tee`. -/
def storedLocal? : Op → Option Nat
  | .localSet i | .localTee i => some i
  | _ => none

/-- A local that is written is one that is used. -/
theorem localIndex?_of_storedLocal? {op : Op} {i : Nat} (h : op.storedLocal? = some i) :
    op.localIndex? = some i := by
  cases op with
  | localSet _ | localTee _ => exact h
  | _ => cases h

/-- Renumbers the local that is read or written. -/
def mapLocal (f : Nat → Nat) : Op → Op
  | .localGet i => .localGet (f i)
  | .localSet i => .localSet (f i)
  | .localTee i => .localTee (f i)
  | op => op

/-- The function that is called, plainly or as a tail call (`call_target_mut`). -/
def callTarget? : Op → Option Nat
  | .call i | .returnCall i => some i
  | _ => none

/-- Renumbers the function that is called. -/
def mapCall (f : Nat → Nat) : Op → Op
  | .call i => .call (f i)
  | .returnCall i => .returnCall (f i)
  | op => op

@[simp] theorem localIndex?_mapLocal (f : Nat → Nat) (op : Op) :
    (op.mapLocal f).localIndex? = op.localIndex?.map f := by cases op <;> rfl

@[simp] theorem storedLocal?_mapLocal (f : Nat → Nat) (op : Op) :
    (op.mapLocal f).storedLocal? = op.storedLocal?.map f := by cases op <;> rfl

@[simp] theorem callTarget?_mapCall (f : Nat → Nat) (op : Op) :
    (op.mapCall f).callTarget? = op.callTarget?.map f := by cases op <;> rfl

end Op

/-! ## 6. Instructions

An instruction that a pass puts in carries no marker.  One that a pass changes in place keeps
its own. -/

/-- A note on an instruction (`Marker`), left by the code generator. It says where a dispatch on a
runtime type begins and ends, and never changes what the instruction does. -/
inductive Marker where
  /-- On the `local.set` that captures the tag a dispatch is made on. -/
  | typeSwitch
  /-- On the first instruction of the guard of one case. -/
  | typeCase (type : RuntimeType)
  /-- On the `end` of a dispatch. -/
  | typeSwitchEnd
deriving DecidableEq

/-- An operation, perhaps with a marker (`Instruction`). Most passes copy the marker along with the
operation and give new instructions none. -/
structure Instr where
  op : Op
  marker : Option Marker
deriving DecidableEq

/-- The instruction that performs an operation and carries no marker. -/
def Op.plain (op : Op) : Instr := ⟨op, none⟩

@[simp] theorem Op.op_plain (op : Op) : op.plain.op = op := rfl

@[simp] theorem Op.marker_plain (op : Op) : op.plain.marker = none := rfl

namespace Instr

/-- Renumbers the local that is read or written. -/
def mapLocal (f : Nat → Nat) (i : Instr) : Instr := { i with op := i.op.mapLocal f }

/-- Renumbers the function that is called. -/
def mapCall (f : Nat → Nat) (i : Instr) : Instr := { i with op := i.op.mapCall f }

@[simp] theorem op_mapLocal (f : Nat → Nat) (i : Instr) : (i.mapLocal f).op = i.op.mapLocal f := rfl

@[simp] theorem op_mapCall (f : Nat → Nat) (i : Instr) : (i.mapCall f).op = i.op.mapCall f := rfl

end Instr

/-! ## 7. Bodies

Reads and uses are counted over the whole body, whether or not control can reach them. -/

/-- The instructions of a function, in order. -/
abbrev Body := List Instr

namespace Body

/-- How often a local is read (`count_gets`).  A `local.tee` writes; it is not a reading, although
its value stays on the stack. -/
def reads (body : Body) (index : Nat) : Nat := body.countP fun i => i.op = .localGet index

/-- How often a local is read or written. A local other than a parameter that is used not once can
go. -/
def uses (body : Body) (index : Nat) : Nat := body.countP fun i => i.op.localIndex? = some index

@[simp] theorem reads_nil (index : Nat) : reads [] index = 0 := rfl

@[simp] theorem reads_append (a b : Body) (index : Nat) :
    reads (a ++ b) index = reads a index + reads b index := List.countP_append

/-- A local is read at most as often as it is used. -/
theorem reads_le_uses (body : Body) (index : Nat) : body.reads index ≤ body.uses index :=
  List.countP_mono_left fun i _ h => by
    have e : i.op = .localGet index := of_decide_eq_true h
    simp [e, Op.localIndex?]

end Body

/-! ## 8. Faults

There is one: the index after the last one is asked for (`next_local_index`).  Everything that may
declare a local passes it on. -/

/-- Why a request about a body or its locals was refused.  Everything else is total. -/
inductive Fault where
  /-- A function has a local at the last index, so there is no next one. -/
  | localIndexOverflow
  /-- A position lies past the end of the body. -/
  | positionPastEnd
deriving DecidableEq

/-- Local indices are below this bound: an operand holds an index in 32 bits. -/
def indexLimit : Nat := UInt32.size

end WasmTrim
