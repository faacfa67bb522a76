/-
# Typing rules

A `Rule` is what the checker has to know about one instruction of a binary.  Most
instructions take operands of fixed types and leave others: for them the rule is an arrow,
with or without a memory that must exist.  The remaining rules depend on the surroundings, on
what is open, or on the operands that are there.

Reading an instruction gives its rule and nothing else.  What the instruction computes is of no
interest to the checker, so two instructions with one rule are the same to it, and the several
hundred instructions of the format come down to the constructors below.
-/
import WasmTrim.Instr.Basic
import WasmTrim.Validation.OperandType

namespace WasmTrim.Validation

/-- The type of a region as it is written: nothing, one result, or the position of a function
type. -/
inductive BlockType where
  | empty
  | value (type : OperandType)
  | index (index : Nat)
deriving DecidableEq

/-- A handler of a region that branches out with the exception: for one tag or for all, with
or without a reference to the exception. -/
inductive Handler where
  | tag (tag : Nat) (withRef : Bool) (label : Nat)
  | all (withRef : Bool) (label : Nat)
deriving DecidableEq

/-- The typing rule of an instruction, with the immediates that matter to it. Instructions that the
checker cannot tell apart have the same rule. -/
inductive Rule where
  /-- Takes operands and leaves results. -/
  | arrow (takes leaves : List OperandType)
  /-- Takes operands and leaves results, by way of the memories at the given indices. -/
  | memory (indices : List Nat) (takes leaves : List OperandType)
  /-- Takes operands, and control does not run on. -/
  | stop (takes : List OperandType)
  | enter (kind : RegionKind) (type : BlockType)
  | enterHandled (type : BlockType) (handlers : List Handler)
  | elseArm
  | close
  | br (label : Nat)
  | brIf (label : Nat)
  | brTable (targets : List Nat) (fallback : Nat)
  | ret
  | call (target : Nat)
  | returnCall (target : Nat)
  /-- Calls a function of the type at an index, given by a reference. -/
  | callRef (type : Nat)
  | returnCallRef (type : Nat)
  | catchTag (tag : Nat)
  | catchAll
  | throwTag (tag : Nat)
  | rethrow (label : Nat)
  | delegate (label : Nat)
  | drop
  | select
  | localGet (index : Nat)
  | localSet (index : Nat)
  | localTee (index : Nat)
  | globalGet (index : Nat)
  | globalSet (index : Nat)
  /-- A reference to the function at an index. -/
  | refFunc (index : Nat)
  /-- Whether a reference is missing. -/
  | refIsNull
  /-- The same reference, which must not be missing. -/
  | refAsNonNull
  /-- Branches if the reference is missing, or else if it is not. -/
  | brOnNull (label : Nat)
  | brOnNonNull (label : Nat)
  /-- Whether a reference is of a type, and the same reference at that type. -/
  | refTest (type : RefType)
  | refCast (type : RefType)
  /-- Branches if a reference of the first type is of the second, or else if it is not. -/
  | brOnCast (label : Nat) (source target : RefType)
  | brOnCastFail (label : Nat) (source target : RefType)
  /-- Turns references of one heap type into references of another. -/
  | refConvert (source target : HeapType)
deriving DecidableEq

end WasmTrim.Validation
