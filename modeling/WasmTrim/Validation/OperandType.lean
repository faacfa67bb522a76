/-
# Types of operands

The checker reads binaries, and a binary can hold more than a program can say: besides the
three value types there are single floats, vectors and references.  References are ordered by
what they may refer to, and an operand serves wherever a wider type is asked for (`serves`).

Every type of the type section is a function type, so a reference to such a type is a
reference to a function.  That keeps the order of heap types finite and simple: what a reference
to a position of the type section may be used as is decided by the position alone, since no type
section declares a subtype.

None of these types occurs in a program that is being compiled.  They occur in what a body can be
mistaken for: an immediate that is not read as it was written moves the reader out of step, and
from there on it reads whatever the bytes say.  Whether such a body is refused is decided by the
whole of the instruction set, so the whole of it has a type here.
-/
import WasmTrim.ValueType

namespace WasmTrim.Validation

/-! ## 1. References

Three hierarchies of heap types with a fourth one for exceptions, each with a widest type and one
that nothing has.  A null reference has the types of its hierarchy and no other. -/

/-- What a reference may refer to. Nothing that this library assembles has references; they are here
since the validator knows them, and bytes that are read askew may call for them. -/
inductive HeapType where
  /-- Any value of the program's own heap, and its classes. -/
  | any
  | eq
  | i31
  | struct
  | array
  | noAny
  /-- Any function, a function of the type at an index, and no function. -/
  | func
  | type (index : Nat)
  | noFunc
  /-- A value of the host, and none. -/
  | host
  | noHost
  /-- A caught exception, and none. -/
  | exception
  | noException
deriving DecidableEq

namespace HeapType

/-- Whether every referent of the first type is one of the second. -/
def within : HeapType → HeapType → Bool
  | .eq, .any => true
  | .i31, .any | .i31, .eq => true
  | .struct, .any | .struct, .eq => true
  | .array, .any | .array, .eq => true
  | .noAny, .any | .noAny, .eq | .noAny, .i31 | .noAny, .struct | .noAny, .array => true
  | .type _, .func => true
  | .noFunc, .func | .noFunc, .type _ => true
  | .noHost, .host => true
  | .noException, .exception => true
  | a, b => a = b

/-- The widest type above a given one. -/
def top : HeapType → HeapType
  | .any | .eq | .i31 | .struct | .array | .noAny => .any
  | .func | .type _ | .noFunc => .func
  | .host | .noHost => .host
  | .exception | .noException => .exception

@[simp] theorem within_self (h : HeapType) : h.within h = true := by cases h <;> simp [within]

end HeapType

/-- A reference, which may be missing when the type is nullable. -/
structure RefType where
  nullable : Bool
  heap : HeapType
deriving DecidableEq

namespace RefType

/-- The same reference, never missing. -/
def present (r : RefType) : RefType := { r with nullable := false }

/-- The same reference, possibly missing. -/
def optional (r : RefType) : RefType := { r with nullable := true }

/-- Whether every reference of the first type is one of the second. -/
def within (a b : RefType) : Bool := (!a.nullable || b.nullable) && a.heap.within b.heap

/-- What is left of a type when the references of another are taken out. -/
def minus (a b : RefType) : RefType := { a with nullable := a.nullable && !b.nullable }

end RefType

/-! ## 2. Operand types

Only references have a proper order; any other type serves as itself. -/

/-- The type of an operand. Those that the program itself can name are the value types; the others
can only come from bytes that were not meant as an instruction. -/
inductive OperandType where
  /-- A value type. -/
  | num (type : ValueType)
  /-- A single-precision number. -/
  | f32
  /-- A vector of 128 bits. -/
  | v128
  | ref (type : RefType)
deriving DecidableEq

namespace OperandType

/-- The 32-bit integers. -/
abbrev i32 : OperandType := .num .i32

/-- The 64-bit integers. -/
abbrev i64 : OperandType := .num .i64

/-- The double-precision numbers. -/
abbrev f64 : OperandType := .num .f64

/-- Possibly missing references to a heap type. -/
abbrev optional (heap : HeapType) : OperandType := .ref ⟨true, heap⟩

/-- Whether an operand of the first type may be used as one of the second. -/
def serves : OperandType → OperandType → Bool
  | .ref a, .ref b => a.within b
  | a, b => a = b

@[simp] theorem serves_num (t u : ValueType) : serves (.num t) (.num u) = (t = u : Bool) := by
  simp [serves]

@[simp] theorem serves_self (t : OperandType) : t.serves t = true := by
  cases t with
  | ref r => cases r with | mk n h => cases n <;> simp [serves, RefType.within]
  | _ => simp [serves]

end OperandType

end WasmTrim.Validation
