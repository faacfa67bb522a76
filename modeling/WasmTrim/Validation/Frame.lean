/-
# Frames of the type checker

The checker follows a body with a stack of frames, one for each open region and one for the
function.  A frame owns the operands that were pushed since its region was opened, so no
instruction can reach below its region.  After an instruction from which control does not run
on, the frame is *unreachable*: its operands are forgotten, and as many operands of any type
as are needed may be popped.

What is popped from an unreachable frame beyond what was pushed is an operand of which nothing is
known, and it can be pushed again: by a branch that keeps its operands, or by a selection between
two of them.  This is why an operand is not simply a type.

Frames change in few ways, and everything that is proved about the checker goes through those:
operands are pushed, popped and, all at once, forgotten.  The kind and the type of a frame never
change.
-/
import WasmTrim.Validation.OperandType

namespace WasmTrim.Validation

/-! ## 1. Operands

An operand of which nothing is known serves as anything.  One known to be a reference serves as any
reference. -/

/-- What is known about an operand: nothing, that it is a reference, or its type. -/
inductive Operand where
  | unknown
  | unknownRef
  | known (type : OperandType)
deriving DecidableEq

namespace Operand

/-- Whether an operand may be used as one of the given type. -/
def serves : Operand → OperandType → Bool
  | unknown, _ => true
  | unknownRef, .ref _ => true
  | unknownRef, _ => false
  | known t, u => t.serves u

/-- The operand as a reference, if it can be one. -/
def asRef? : Operand → Option Operand
  | unknown | unknownRef => some unknownRef
  | known (.ref r) => some (known (.ref r))
  | known _ => none

/-- Whether the operand is a reference that may be missing. -/
def isNullable : Operand → Bool
  | known (.ref r) => r.nullable
  | _ => false

/-- The same operand, a reference never missing. -/
def present : Operand → Operand
  | known (.ref r) => known (.ref r.present)
  | o => o

/-- The common type of two operands that are not references, if they can have one. -/
def join? : Operand → Operand → Option Operand
  | unknownRef, _ | _, unknownRef | known (.ref _), _ | _, known (.ref _) => none
  | unknown, o | o, unknown => some o
  | known t, known u => if t = u then some (known t) else none

end Operand

/-! ## 2. Frames

The type of a frame is that of its region.  A branch to a loop starts it again and carries what it
takes; any other branch carries what it leaves. -/

/-- The kinds of frames.  The arms of an `if` and of a `try` are told apart, and the function
counts as a block. -/
inductive FrameKind where
  | block
  | loop
  | thenArm
  | elseArm
  | tryBody
  | catchArm
  | catchAllArm
deriving DecidableEq

/-- The types that a region takes from the stack and leaves on it. -/
structure RegionType where
  takes : List OperandType
  leaves : List OperandType
deriving DecidableEq

/-- An open region with its operands, the top one first. -/
structure Frame where
  kind : FrameKind
  type : RegionType
  operands : List Operand
  unreachable : Bool
deriving DecidableEq

namespace Frame

/-- A frame that starts with operands of the given types, the last one on top. -/
def start (kind : FrameKind) (type : RegionType) (operands : List OperandType) : Frame :=
  ⟨kind, type, operands.reverse.map .known, false⟩

/-- The frame of a region that has just been opened. -/
def enter (kind : FrameKind) (type : RegionType) : Frame := start kind type type.takes

/-- The types that a branch to the frame carries: the parameters for a loop, which a branch starts
again, and the results otherwise. -/
def labelTypes (f : Frame) : List OperandType :=
  match f.kind with
  | .loop => f.type.takes
  | _ => f.type.leaves

/-! ## 3. The stack of a frame

Popping past the bottom fails in a reachable frame and succeeds in an unreachable one. -/

/-- Pushes an operand, which may be one of unknown type. -/
def pushOperand (f : Frame) (o : Operand) : Frame := { f with operands := o :: f.operands }

/-- Pushes an operand of a known type. -/
def push (f : Frame) (t : OperandType) : Frame := f.pushOperand (.known t)

/-- Pushes operands, the last one on top, as the results of an operation are pushed. -/
def pushAll (f : Frame) (ts : List OperandType) : Frame := ts.foldl push f

/-- Pops an operand, whatever its type. Behind an operation that control does not pass, an empty
frame still gives operands, of which nothing is known. -/
def popAny (f : Frame) : Option (Operand × Frame) :=
  match f.operands with
  | o :: rest => some (o, { f with operands := rest })
  | [] => if f.unreachable then some (.unknown, f) else none

/-- Pops an operand that is used as one of the given type, and shows it. -/
def popAs (f : Frame) (t : OperandType) : Option (Operand × Frame) := do
  let (o, f) ← f.popAny
  if o.serves t then some (o, f) else none

/-- Pops an operand that is used as one of the given type. -/
def pop (f : Frame) (t : OperandType) : Option Frame := (f.popAs t).map Prod.snd

/-- Pops operands of the given types, the last one from the top. -/
def popAll (f : Frame) (ts : List OperandType) : Option Frame := ts.reverse.foldlM pop f

/-- Pops a reference, or an operand of unknown type in its place. -/
def popRef (f : Frame) : Option (Operand × Frame) := do
  let (o, f) ← f.popAny
  let o ← o.asRef?
  return (o, f)

/-- The frame after an instruction from which control does not run on. -/
def stop (f : Frame) : Frame := { f with operands := [], unreachable := true }

/-- Whether exactly the results of the region are on its stack. -/
def isComplete (f : Frame) : Bool := (f.popAll f.type.leaves).any fun f => f.operands.isEmpty

end Frame

end WasmTrim.Validation
