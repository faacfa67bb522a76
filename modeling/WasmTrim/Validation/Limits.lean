/-
# Limits

However well formed, a module is refused when it is too large.  The limits are generous; those
that a program of a reasonable size can meet are the numbers of parameters and locals of a
function and the lengths of names.

The optimizer changes two of these numbers, and both only so far: a function gains a local for
each parameter of what is inlined into it and loses those that nobody uses, and functions go away.
Parameters, names and imports stay as they are, and with them the sizes of all types.
-/
import WasmTrim.Binary.Assemble

namespace WasmTrim

/-! ## 1. The limits

As the validator documents them.  A program that goes past one of them is refused however well typed
it is. -/

namespace Limit

/-- How many parameters a signature may have, in a program that is accepted. -/
def params : Nat := 1000

/-- How many locals a function may have, its parameters included. -/
def locals : Nat := 50000

/-- How many bytes a name may have. -/
def nameBytes : Nat := 100000

/-- How many entries a section may have. One number serves for types, functions, globals and tags.
-/
def entries : Nat := 1000000

/-- What the types of all imports and exports together must stay below in size. -/
def typeSize : Nat := 1000000

end Limit

/-! ## 2. Keeping them

The size of a type counts its parameters and results.  Types are counted as often as they are
imported or exported. -/

/-- The size of a function type, which the validator adds up over the type table and limits as a
whole. -/
def Signature.size (s : Signature) : Nat := 2 + s.params.length + s.result.arity

/-- Whether the names of an import are short enough, in bytes and not in characters. -/
def Import.withinLimits (i : Import) : Bool :=
  i.origin.utf8ByteSize ≤ Limit.nameBytes && i.name.utf8ByteSize ≤ Limit.nameBytes

/-- Whether a function has few enough locals, its parameters included. -/
def Function.withinLimits (f : Function) : Bool :=
  f.params.length + f.localTypes.length ≤ Limit.locals

namespace Program

/-- The size of the types of all imports and exports; a memory counts as one. -/
def interfaceSize (p : Program) : Nat :=
  p.imports.foldl (fun n i => n + i.signature.size) 0
    + ((p.functionNamed? entryName).map fun f => f.signature.size).getD 0
    + if p.usesMemory then 1 else 0

/-- Whether a program keeps all limits. They are large, but a program can exceed them, and is
refused then though its bodies type-check. -/
def withinLimits (p : Program) : Bool :=
  p.signatureUses.all (fun s => s.params.length ≤ Limit.params)
    && p.imports.all Import.withinLimits
    && p.functions.all Function.withinLimits
    && p.typeTable.length ≤ Limit.entries
    && p.imports.length + p.functions.length ≤ Limit.entries
    && p.globals.length ≤ Limit.entries
    && p.tags.length ≤ Limit.entries
    && p.interfaceSize < Limit.typeSize

end Program

end WasmTrim
