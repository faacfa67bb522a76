/-
# Value types, result types and signatures

The stack machine works on three value types: two widths of integer and the double.  A
function returns, and a structured region leaves behind, at most one value, so a single notion
of *result type* serves both (`BlockType`, and the `returns` of a function): either no value or
one value of a given type.  No region takes parameters.

A signature (`FunctionSignature`) pairs the parameter types of a callable with its result type.
Two callables share an entry of the type section exactly when their signatures are equal, which
is why equality of signatures has to be decidable and nothing else about them matters there.

The two spellings of a type, `i32` inside a mnemonic and `I32` inside the annotation of a
region, come from different texts: the first from the name of the operation, the second from
the derived text of the type.
-/

namespace WasmTrim

/-! ## 1. Value types

The references and vectors of the binary format are not among them: no lowered program can
hold one.  The validator knows them all the same, and has a type of its own for them. -/

/-- The type of one operand, local or global (`ValueType`).  There is no 32-bit float. -/
inductive ValueType where
  | i32
  | i64
  | f64
deriving DecidableEq

/-- The name of a value type inside a mnemonic, as in `i32.const`. -/
def ValueType.name : ValueType → String
  | .i32 => "i32"
  | .i64 => "i64"
  | .f64 => "f64"

/-- The name of a value type as a result annotation, as in `block (result I32)`. -/
def ValueType.label : ValueType → String
  | .i32 => "I32"
  | .i64 => "I64"
  | .f64 => "F64"

/-! ## 2. Result types

A function, an import or a region leaves one value or none (`BlockType`), which makes the number of
results and the list of their types easy to exchange for each other. -/

/-- What a function returns or a region leaves on the stack: nothing, or one value.  The
`BlockType` of a region and the `returns` of a function are both this. -/
abbrev ResultType := Option ValueType

namespace ResultType

/-- The types left on the stack, in stack order. -/
def types (r : ResultType) : List ValueType := r.toList

/-- The number of values left on the stack (`arity`), which is also the number that a branch to
the region carries, unless the region is a loop. -/
def arity (r : ResultType) : Nat := r.types.length

@[simp] theorem types_none : types none = [] := rfl
@[simp] theorem types_some (t : ValueType) : types (some t) = [t] := rfl
@[simp] theorem arity_none : arity none = 0 := rfl
@[simp] theorem arity_some (t : ValueType) : arity (some t) = 1 := rfl

end ResultType

/-! ## 3. Signatures

What a caller has to know of a callable, and what the type section lists (`FunctionSignature`). -/

/-- The parameters and the result of a callable, be it an import, a function of the program or,
with no result, a tag. -/
structure Signature where
  params : List ValueType
  result : ResultType
deriving DecidableEq

end WasmTrim
