/-
# The assembler

An assembler writes one program after the other.  While it writes a program it keeps the signatures
that it has met, in the order in which they came, and beside them a look-up table from signatures
to positions.  A signature that is in the table has a position already; any other is put at the end.

The imports, functions and tags of a program are entered in this order, each with the position of
its signature.  The table is cleared when a program begins.  A program that cannot be assembled is
given up where this is noticed: at once if a function is misplaced, and after all signatures
have been registered otherwise.

The state is what makes this more than a way to compute `Program.binary`.  An assembler
(`WasmCodeGen`) can be used again, after a program that failed as well as after one that did not,
and then carries the signatures of that program.  That nothing of them shows in the next binary is
a consequence of clearing, and the theorem on it is about sequences of programs
(`Proofs/Binary/TypeSection`).
-/
import WasmTrim.Binary.Assemble

namespace WasmTrim

open Leb128

/-! ## 1. Registering signatures

The look-up table says nothing that the list does not say; it is there to find a position without
searching the list.  Every new signature goes into both. -/

/-- The signatures that have been met: in order, and with the position of each (`WasmCodeGen`). -/
structure Assembler where
  signatures : List Signature
  positions : List (Signature × Nat)

namespace Assembler

/-- An assembler that has met nothing (`WasmCodeGen::new`). Every program can be given to such an
assembler or to one that has been used before. -/
def fresh : Assembler := ⟨[], []⟩

/-- Forgets the signatures of the program before, in the table and in the look-up of positions; it
is the first thing that `generate` does. -/
def clear (a : Assembler) : Assembler := { a with signatures := [], positions := [] }

/-- The position of a signature, which is put at the end if it has none (`signature`). -/
def register (a : Assembler) (s : Signature) : Nat × Assembler :=
  match a.positions.lookup s with
  | some position => (position, a)
  | none =>
    let position := a.signatures.length
    (position, ⟨a.signatures ++ [s], (s, position) :: a.positions⟩)

/-- Writes the entries of some items, each with the position of its signature. -/
def enter {α : Type} (signature : α → Signature) (encode : Nat → α → Bytes) (a : Assembler) :
    List α → List Bytes × Assembler
  | [] => ([], a)
  | x :: xs =>
    let (position, a) := a.register (signature x)
    let (entries, a) := a.enter signature encode xs
    (encode position x :: entries, a)

end Assembler

/-! ## 2. Entries

How the items that refer to a signature are written, once its position is known. -/

/-- An import whose type is at the given position, which the assembler has looked up or handed out
before. -/
def Import.entry (position : Nat) (i : Import) : Bytes :=
  encodeName i.origin ++ encodeName i.name ++ 0x00 :: unsigned position

/-- The declaration of a function whose type is at the given position. -/
def Function.entry (position : Nat) (_ : Function) : Bytes := unsigned position

/-- A tag whose type is at the given position. -/
def Tag.entry (position : Nat) (_ : Tag) : Bytes := 0x00 :: unsigned position

/-- The module with the given types, and with entries that refer to them. -/
def Program.layOut (p : Program) (types : List Signature) (imports functions tags : List Bytes) :
    Bytes :=
  preamble
    ++ encodeSection 1 (encodeVector Signature.encode types)
    ++ encodeSectionUnless p.imports.isEmpty 2 (encodeVector id imports)
    ++ encodeSection 3 (encodeVector id functions)
    ++ encodeSectionUnless (!p.usesMemory) 5 (encodeVector id [memoryType])
    ++ encodeSectionUnless p.tags.isEmpty 13 (encodeVector id tags)
    ++ encodeSectionUnless p.globals.isEmpty 6 (encodeVector Global.encode p.globals)
    ++ encodeSection 7 (encodeVector id p.exports)
    ++ encodeSection 10 (encodeVector Function.encode p.functions)

/-! ## 3. Programs

The state after a failure is the state at the point of failure. -/

namespace Assembler

/-- Assembles a program (`generate`), and tells what the assembler then holds. -/
def assemble (a : Assembler) (p : Program) : Except AssembleError Bytes × Assembler :=
  let a := a.clear
  match p.misplaced? with
  | some e => (.error e, a)
  | none =>
    let (imports, a) := a.enter Import.signature Import.entry p.imports
    let (functions, a) := a.enter Function.signature Function.entry p.functions
    let (tags, a) := a.enter Tag.signature Tag.entry p.tags
    match p.notConstant? <|> p.scatteredLocals? with
    | some e => (.error e, a)
    | none => (.ok (p.layOut a.signatures imports functions tags), a)

/-- Assembles programs in order with one assembler, which each leaves behind as it is, also when a
program is refused half-way. -/
def assembleAll (a : Assembler) : List Program → List (Except AssembleError Bytes) × Assembler
  | [] => ([], a)
  | p :: ps =>
    let (result, a) := a.assemble p
    let (results, a) := a.assembleAll ps
    (result :: results, a)

end Assembler

end WasmTrim
