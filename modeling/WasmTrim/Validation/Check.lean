/-
# Type checking

A body is checked one instruction after the other, as the bytes give them: the state of the
checker is the list of open frames, innermost first, and the empty list stands for a function
that has been closed.  A body is well typed when its last byte closes the function.

Instructions that only take operands and leave results are given by their types
(`Env.arrow?`); the others act on the frames themselves (`control`).

The checker goes on with the bytes behind the end of the function only to refuse them: a state
without frames accepts no instruction.  So a body is well typed when its bytes are whole
instructions, every one of them has a rule that can be applied, and the last one is the `end` that
closes the function.

This is the validator of the binary format (`Validator`), restricted to what can be in a module of
the shape that the assembler writes.  The sections of such a module are well formed by
construction, so only the globals, the bodies and the sizes of things are left to check
(`WasmTrim.Validation.Program`).
-/
import WasmTrim.Program.Basic
import WasmTrim.Validation.Frame
import WasmTrim.Validation.InstructionSet

namespace WasmTrim.Validation

/-! ## 1. Surroundings

What can be referred to by index from inside a body.  An index past the end refers to nothing, and
the instruction has no type. -/

/-- What all bodies of a program may refer to. It is computed once from the program and does not
depend on its bodies. -/
structure Surroundings where
  types : List Signature
  signatures : List Signature
  globals : List Global
  tags : List Tag
  hasMemory : Bool
  /-- The functions that may be referred to, because they are exported. -/
  declared : List Nat

/-- What the body of one function may refer to: all of that, its locals, and the result that it has
to leave. -/
structure Env extends Surroundings where
  locals : List ValueType
  result : ResultType

namespace Env

/-- The types of the results of the function. -/
def results (env : Env) : List OperandType := env.result.types.map .num

/-- Whether a heap type refers to a type that exists. -/
def knowsHeap (env : Env) : HeapType → Bool
  | .type index => index < env.types.length
  | _ => true

/-- Whether an operand type refers to types that exist. -/
def knows (env : Env) : OperandType → Bool
  | .ref r => env.knowsHeap r.heap
  | _ => true

/-- Whether there is a memory at the given index. There is at most one, and it is declared if some
function has the flag for it. -/
def hasMemoryAt (env : Env) (index : Nat) : Bool := env.hasMemory && index = 0

/-- The type of a region, if what it says is known: a value type that the program may use, or the
number of a signature in the type table. -/
def regionType? (env : Env) : BlockType → Option RegionType
  | .empty => some ⟨[], []⟩
  | .value t => if env.knows t then some ⟨[], [t]⟩ else none
  | .index index => do
    let s ← env.types[index]?
    return ⟨s.params.map .num, s.result.types.map .num⟩

/-- The types that an instruction takes from the stack and leaves on it. -/
def arrow? (env : Env) : Rule → Option (List OperandType × List OperandType)
  | .arrow takes leaves =>
    if takes.all env.knows && leaves.all env.knows then some (takes, leaves) else none
  | .memory indices takes leaves =>
    if indices.all env.hasMemoryAt then some (takes, leaves) else none
  | .call target => do
    let s ← env.signatures[target]?
    return (s.params.map .num, s.result.types.map .num)
  | .callRef type => do
    let s ← env.types[type]?
    return (s.params.map .num ++ [.optional (.type type)], s.result.types.map .num)
  | .localGet index => do
    let t ← env.locals[index]?
    return ([], [.num t])
  | .localSet index => do
    let t ← env.locals[index]?
    return ([.num t], [])
  | .localTee index => do
    let t ← env.locals[index]?
    return ([.num t], [.num t])
  | .globalGet index => do
    let g ← env.globals[index]?
    return ([], [.num g.type])
  | .globalSet index => do
    let g ← env.globals[index]?
    if g.mutable then some ([.num g.type], []) else none
  | .refFunc index => do
    let s ← env.signatures[index]?
    if index ∈ env.declared then some ([], [.ref ⟨false, .type (env.types.idxOf s)⟩]) else none
  | .refTest type =>
    if env.knowsHeap type.heap then some ([.optional type.heap.top], [.i32]) else none
  | .refCast type =>
    if env.knowsHeap type.heap then some ([.optional type.heap.top], [.ref type]) else none
  | _ => none

end Env

/-! ## 2. One instruction

A step pops what the instruction takes, in the order from the top of the stack, and pushes what it
leaves.  Control instructions do the same and then open, close or leave a frame. -/

/-- The open frames, innermost first; none when the function has been closed. -/
abbrev State := List Frame

/-- Ends the innermost region and leaves its results in the one around it. -/
def leave (f : Frame) : State → State
  | [] => []
  | g :: outer => g.pushAll f.type.leaves :: outer

/-- The frame kind of a region that has just been opened. -/
def FrameKind.ofRegion : RegionKind → FrameKind
  | .block => .block
  | .loop => .loop
  | .ifThen => .thenArm
  | .tryCatch => .tryBody

/-- The types that the opening of a region takes besides the operands of the region. -/
def regionCondition : RegionKind → List OperandType
  | .ifThen => [.i32]
  | _ => []

/-- Whether a handler may follow: the frame is a `try` or one of its handlers, other than the
last. -/
def FrameKind.admitsHandler (k : FrameKind) : Bool := k = .tryBody || k = .catchArm

/-- Whether a frame can be closed.  The arm of an `if` without an `else` is followed by one
that leaves what it was given. -/
def Frame.isClosable (f : Frame) : Bool :=
  f.isComplete && (f.kind ≠ .thenArm || (Frame.enter .elseArm f.type).isComplete)

/-- Whether a branch with operands of the given types may leave to a label. -/
def carries (types label : List OperandType) : Bool :=
  types.length = label.length && (types.zip label).all fun (t, u) => t.serves u

/-- The reference that a handler passes on, if it passes one on. -/
def exceptionRef (withRef : Bool) : List OperandType :=
  if withRef then [.ref ⟨false, .exception⟩] else []

/-- Whether a handler branches to a label of the right type. -/
def handlerFits (env : Env) (state : State) : Handler → Bool
  | .tag tag withRef label =>
    match env.tags[tag]?, state[label]? with
    | some t, some target =>
      carries (t.params.map .num ++ exceptionRef withRef) target.labelTypes
    | _, _ => false
  | .all withRef label =>
    (state[label]?).any fun target => carries (exceptionRef withRef) target.labelTypes

/-- Takes the operands of a branch off a frame and puts them back with the types of the
label. -/
def retype (f : Frame) (label : List OperandType) : Option Frame := do
  let f ← f.popAll label
  return f.pushAll label

/-- A branch on the outcome of a cast from `source` to `target`: the label is given a reference
of one type, and a reference of another stays. -/
def castBranch (env : Env) (f : Frame) (outer : State) (label : Nat)
    (source target given kept : RefType) : Option State := do
  let label ← (f :: outer)[label]?
  let last ← label.labelTypes.getLast?
  if env.knowsHeap source.heap && env.knowsHeap target.heap && target.within source
      && OperandType.serves (.ref given) last then
    let f ← f.pop (.ref source)
    let f ← retype f label.labelTypes.dropLast
    return f.push (.ref kept) :: outer
  else none

/-- The effect of an instruction on the innermost frame `f` and the frames around it. -/
def control (env : Env) (f : Frame) (outer : State) : Rule → Option State
  | .stop takes => do
    let f ← f.popAll takes
    return f.stop :: outer
  | .enter kind type => do
    let type ← env.regionType? type
    let f ← f.popAll (type.takes ++ regionCondition kind)
    return .enter (.ofRegion kind) type :: f :: outer
  | .enterHandled type handlers => do
    let type ← env.regionType? type
    let f ← f.popAll type.takes
    if handlers.all (handlerFits env (f :: outer)) then some (.enter .block type :: f :: outer)
    else none
  | .elseArm =>
    if f.kind = .thenArm && f.isComplete then some (.enter .elseArm f.type :: outer) else none
  | .close => if f.isClosable then some (leave f outer) else none
  | .br label => do
    let target ← (f :: outer)[label]?
    let f ← f.popAll target.labelTypes
    return f.stop :: outer
  | .brIf label => do
    let target ← (f :: outer)[label]?
    let f ← f.pop .i32
    let f ← retype f target.labelTypes
    return f :: outer
  | .brTable targets fallback => do
    let f ← f.pop .i32
    let last ← (f :: outer)[fallback]?
    -- every target takes the operands that are there, and as many as the last one
    let accepts := fun label => ((f :: outer)[label]?).any fun target =>
      target.labelTypes.length = last.labelTypes.length && (f.popAll target.labelTypes).isSome
    if targets.all accepts then
      let f ← f.popAll last.labelTypes
      return f.stop :: outer
    else none
  | .ret => do
    let f ← f.popAll env.results
    return f.stop :: outer
  | .returnCall target => do
    let s ← env.signatures[target]?
    let f ← f.popAll (s.params.map .num)
    if s.result = env.result then some (f.stop :: outer) else none
  | .returnCallRef type => do
    let s ← env.types[type]?
    let f ← f.popAll (s.params.map .num ++ [.optional (.type type)])
    if s.result = env.result then some (f.stop :: outer) else none
  | .catchTag tag => do
    let t ← env.tags[tag]?
    if f.kind.admitsHandler && f.isComplete then
      some (.start .catchArm f.type (t.params.map .num) :: outer)
    else none
  | .catchAll =>
    if f.kind.admitsHandler && f.isComplete then some (.start .catchAllArm f.type [] :: outer)
    else none
  | .throwTag tag => do
    let t ← env.tags[tag]?
    let f ← f.popAll (t.params.map .num)
    return f.stop :: outer
  | .rethrow label => do
    let target ← (f :: outer)[label]?
    if target.kind = .catchArm || target.kind = .catchAllArm then some (f.stop :: outer) else none
  | .delegate label =>
    if f.kind = .tryBody && f.isComplete && label < outer.length then some (leave f outer)
    else none
  | .drop => do
    let (_, f) ← f.popAny
    return f :: outer
  | .select => do
    let f ← f.pop .i32
    let (a, f) ← f.popAny
    let (b, f) ← f.popAny
    let o ← Operand.join? a b
    return f.pushOperand o :: outer
  | .refIsNull => do
    let (_, f) ← f.popRef
    return f.push .i32 :: outer
  | .refAsNonNull => do
    let (o, f) ← f.popRef
    return f.pushOperand o.present :: outer
  | .brOnNull label => do
    let (o, f) ← f.popRef
    let target ← (f :: outer)[label]?
    let f ← retype f target.labelTypes
    return f.pushOperand o.present :: outer
  | .brOnNonNull label => do
    let target ← (f :: outer)[label]?
    match target.labelTypes.getLast? with
    | some (.ref r) =>
      let f ← f.pop (.ref r.optional)
      let f ← retype f target.labelTypes.dropLast
      return f :: outer
    | _ => none
  | .brOnCast label source target =>
    castBranch env f outer label source target target (source.minus target)
  | .brOnCastFail label source target =>
    castBranch env f outer label source target (source.minus target) target
  | .refConvert source target => do
    let (o, f) ← f.popAs (.optional source)
    return f.push (.ref ⟨o.isNullable, target⟩) :: outer
  | rule => do
    let (takes, leaves) ← env.arrow? rule
    let f ← f.popAll takes
    return f.pushAll leaves :: outer

/-- One step of the checker.  Nothing may follow the end of the function. -/
def step (env : Env) : State → Rule → Option State
  | [], _ => none
  | f :: outer, rule => control env f outer rule

/-! ## 3. Bodies

Instructions are read one at a time from what is left of the bytes. -/

/-- The state after the given bytes, which must be whole instructions. -/
def run (env : Env) (state : State) (bytes : Bytes) : Option State :=
  match bytes with
  | [] => some state
  | opcode :: bytes =>
    match h : (instruction opcode).read bytes with
    | none => none
    | some (rule, rest) =>
      match step env state rule with
      | none => none
      | some state =>
        have _shorter := (instruction opcode).length_le h
        run env state rest
termination_by bytes.length
decreasing_by
  simp only [List.length_cons]
  omega

/-- The state at the start of a function: the body is itself a region, and its results are those of
the function. -/
def start (env : Env) : State := [.enter .block ⟨[], env.results⟩]

/-- Whether the bytes of a body close the function and nothing else. -/
def isValidBody (env : Env) (bytes : Bytes) : Bool := run env (start env) bytes = some []

end WasmTrim.Validation
