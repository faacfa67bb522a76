/-
# Valid programs

A program is valid when it keeps the limits, each global starts as a constant of its type, and
the bytes that each body is written as are well typed (`validate`).

The validator sees a binary and not a program.  For a program that can be assembled the two come
to the same, because the sections are written from the program item by item and can be read back
(`Proofs/Binary/Image`): every check of an item of a section is a check of the item of the program
that it was written from.  What the bodies are checked for is left to their bytes, since that is
where what was written and what is read can differ.

Bodies are checked with the memory that the program has.  When no function has the flag for it,
there is none, and any operation on memory makes its body invalid.
-/
import WasmTrim.Validation.Check
import WasmTrim.Validation.Limits

namespace WasmTrim

open Validation

/-- Whether a global starts as a constant of its type. -/
def Global.isValid (g : Global) : Bool :=
  match g.init with
  | .const v => v.type = g.type
  | _ => false

namespace Program

/-- What the bodies of a program may refer to.  Callables are numbered by position, imports
first. -/
def surroundings (p : Program) : Surroundings where
  types := p.typeTable
  signatures := p.imports.map Import.signature ++ p.functions.map Function.signature
  globals := p.globals
  tags := p.tags
  hasMemory := p.usesMemory
  declared := (p.functionNamed? entryName).toList.map Function.index

end Program

/-- What the body of a function may refer to: its parameters are its first locals. -/
def Function.env (s : Surroundings) (f : Function) : Env :=
  { s with locals := f.params ++ f.localTypes, result := f.result }

/-- Whether the body of a function is well typed. Its bytes are read back and checked, so that what
is checked is what a host would run. -/
def Function.isValid (s : Surroundings) (f : Function) : Bool := isValidBody (f.env s) f.code

/-- Whether a program is valid (`validate`): it keeps the limits, its globals begin with constants
of their types, and the bytes of every body are accepted. -/
def Program.isValid (p : Program) : Bool :=
  let s := p.surroundings
  p.withinLimits && p.globals.all Global.isValid && p.functions.all (Function.isValid s)

end WasmTrim
