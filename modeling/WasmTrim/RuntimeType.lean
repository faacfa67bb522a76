/-
# Runtime types and their usage

Dynamically typed values carry a tag naming their *runtime type* (`RuntimeType`).  Some of these
types are built by the program itself and their construction is recorded; the others are assumed
to exist in every program.  `TypeUsage` is the record: the set of runtime types that were marked
as constructed.

The optimizer asks it one question, `isConstructed`, and draws one conclusion from a negative
answer: a dispatch over runtime types need not keep the case of a type that no value can have.
That the conclusion is right is a promise of whoever filled the record, and it is a hypothesis of
the theorems about that rule.  Nothing here can check it.

The record is a set, so that marking a type twice is marking it once and two records with the
same members are equal; a characteristic function over the eight types has exactly these
properties.
-/

namespace WasmTrim

/-! ## 1. Runtime types

The tags are not consecutive: the two types above the gap live in linear memory.  A guard
compares the tag of a value with the number of a type, so the numbers must differ. -/

/-- The tag carried next to a dynamically typed value (`RuntimeType`). -/
inductive RuntimeType where
  | number
  | boolean
  | string
  | undefined
  | object
  | function
  | array
  | byteString
deriving DecidableEq

namespace RuntimeType

/-- Every runtime type, in the order of their tags. -/
def all : List RuntimeType :=
  [number, boolean, string, undefined, object, function, array, byteString]

theorem mem_all (t : RuntimeType) : t ∈ all := by cases t <;> decide

/-- The number that stands for the type in a type check (`id`), the operand of the `i32.const`
that a guard compares with. -/
def tag : RuntimeType → Nat
  | number => 0x00
  | boolean => 0x01
  | string => 0x02
  | undefined => 0x03
  | object => 0x04
  | function => 0x05
  | array => 0x10
  | byteString => 0x12

/-- Whether constructing a value of the type is recorded (`is_tracked`).  A type that is not
tracked counts as constructed in every program. -/
def isTracked : RuntimeType → Bool
  | array | string | byteString => true
  | _ => false

/-- The name of the type inside a marker, when an instruction is quoted with its marker. -/
def name : RuntimeType → String
  | number => "Number"
  | boolean => "Boolean"
  | string => "String"
  | undefined => "Undefined"
  | object => "Object"
  | function => "Function"
  | array => "Array"
  | byteString => "ByteString"

/-- The name of the type in running text: the report on a removed case and the list of types
that are kept both use it. -/
def text : RuntimeType → String
  | number => "number"
  | boolean => "boolean"
  | string => "string"
  | undefined => "undefined"
  | object => "object"
  | function => "function"
  | array => "array"
  | byteString => "bytestring"

end RuntimeType

/-! ## 2. Usage

The optimizer never marks a type.  It reads the record once, before its first pass, and every
pass sees that reading. -/

/-- The runtime types marked as constructed (`TypeUsage`), as a characteristic function. -/
structure TypeUsage where
  marked : RuntimeType → Bool

namespace TypeUsage

/-- No type has been marked. The types that are not tracked count as constructed all the same. -/
def empty : TypeUsage := ⟨fun _ => false⟩

/-- Record that a type is constructed (`mark`).  Untracked types may be marked too, to no
effect. -/
def mark (u : TypeUsage) (t : RuntimeType) : TypeUsage := ⟨fun s => s = t || u.marked s⟩

/-- The usage in which exactly the listed types are marked. -/
def ofList (ts : List RuntimeType) : TypeUsage := ts.foldl mark empty

/-- Untracked types always count as constructed, tracked ones when they are marked
(`is_constructed`).  This is all that the optimizer asks. -/
def isConstructed (u : TypeUsage) (t : RuntimeType) : Bool := !t.isTracked || u.marked t

/-- The types that count as constructed, in tag order: those that were marked, and those that are
not tracked (`is_constructed`). -/
def live (u : TypeUsage) : List RuntimeType := RuntimeType.all.filter u.isConstructed

@[simp] theorem marked_empty (t : RuntimeType) : empty.marked t = false := rfl

@[simp] theorem marked_mark (u : TypeUsage) (s t : RuntimeType) :
    (u.mark t).marked s = (decide (s = t) || u.marked s) := rfl

theorem ext_marked {u v : TypeUsage} (h : ∀ t, u.marked t = v.marked t) : u = v := by
  cases u; cases v; exact congrArg TypeUsage.mk (funext h)

/-- Usages are compared type by type. -/
instance : DecidableEq TypeUsage := fun u v =>
  if h : RuntimeType.all.all (fun t => u.marked t = v.marked t) then
    isTrue (ext_marked fun t => by simpa using List.all_eq_true.mp h t t.mem_all)
  else
    isFalse fun e => h (by simp [e])

end TypeUsage

end WasmTrim
