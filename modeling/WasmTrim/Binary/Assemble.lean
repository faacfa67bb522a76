/-
# Assembling a program

A program becomes a binary module when three things hold: each function stands at the index
that its position gives it, each global starts as a constant, and the locals of each function
have the indices from zero on (`generate`).  `Program.defect?` finds the first of these that
fails, and `Program.binary` writes the module, section by section.

Imports, functions and tags refer to their signatures by position in a table that holds each
signature once, in the order of first use.

The order of the sections is that of the format: types, imports, functions, memory, tags, globals,
exports, code.  Imports, memory, tags and globals are left out when there are none; the others are
written even when they are empty.  There is a memory, of one page that can grow to sixteen,
exactly when some function has the flag for it, and then it is exported.

The parameters of a function are not among the locals that are written with its body, because
its type says them.  The others are written as runs of equal types in the order of their indices.

What is written here at once is written by the assembler that runs in the order in which it meets
the signatures (`WasmTrim.Binary.Assembler`); `Proofs/Binary/TypeSection` shows the two equal.
-/
import WasmTrim.Binary.Opcode
import WasmTrim.Instr.Text
import WasmTrim.Program.Basic

namespace WasmTrim

open Leb128

/-! ## 1. Defects

The first defect is reported, and it depends on the order in which the parts of a program are
written: functions are checked for their places before anything else, and for their locals last. -/

/-- Why a program cannot be assembled (the error of `generate`). -/
inductive AssembleError where
  /-- A function whose index is not the one of its position. -/
  | misplaced (function : String) (index expected : Nat)
  /-- A global whose initializer is not a constant. -/
  | notConstant (global : String) (init : Op)
  /-- A function whose local indices have gaps or repetitions. -/
  | scatteredLocals (function : String)
deriving DecidableEq

/-- The wording of an error, as `generate`, `const_expr` and `compile_function` build it: the
function or global is named, and for a misplaced function both the index it has and the one its
position asks for. -/
def AssembleError.message : AssembleError → String
  | misplaced function index expected =>
    s!"function {function} has index {index}, expected {expected}"
  | notConstant global init => s!"global {global} has non-constant initializer {init.text}"
  | scatteredLocals function => s!"function {function} has non-contiguous locals"

namespace Program

/-- The first function that does not stand at its index. -/
def misplaced? (p : Program) : Option AssembleError :=
  p.functions.zipIdx.findSome? fun (f, position) =>
    if f.index = p.functionBase + position then none
    else some (.misplaced f.name f.index (p.functionBase + position))

/-- The first global that does not start as a constant (`const_expr`). -/
def notConstant? (p : Program) : Option AssembleError :=
  p.globals.findSome? fun g => if g.init.isConst then none else some (.notConstant g.name g.init)

/-- The first function whose locals are not numbered from zero on. -/
def scatteredLocals? (p : Program) : Option AssembleError :=
  p.functions.findSome? fun f =>
    if f.locals.isContiguous then none else some (.scatteredLocals f.name)

/-- Why the program cannot be assembled, if there is a reason: function indices are looked at
first, then globals, then locals. -/
def defect? (p : Program) : Option AssembleError :=
  p.misplaced? <|> p.notConstant? <|> p.scatteredLocals?

/-! ## 2. The type table

Signatures are shared: an import, a function and a tag with the same signature refer to one entry.
A program written from a cleared assembler has its entries in the order of first use. -/

/-- Every use of a signature: by imports, functions and tags. -/
def signatureUses (p : Program) : List Signature :=
  p.imports.map Import.signature ++ p.functions.map Function.signature ++ p.tags.map Tag.signature

/-- Each signature once, in the order of first use: by imports first, then by functions, then by
tags (`signature`). -/
def typeTable (p : Program) : List Signature := p.signatureUses.eraseDups

end Program

/-! ## 3. Sections

Everything of variable size is behind its length or its number of items. -/

/-- A text: its length in bytes and then its bytes. -/
def encodeName (name : String) : Bytes :=
  let bytes := name.toUTF8.toList
  unsigned bytes.length ++ bytes

/-- Contents behind their length in bytes, as sections, names and function bodies are written. A
reader that does not know the contents can skip them. -/
def encodeSized (contents : Bytes) : Bytes := unsigned contents.length ++ contents

/-- A section: its number, its size and its contents. -/
def encodeSection (id : UInt8) (contents : Bytes) : Bytes := id :: encodeSized contents

/-- A section that is left out when it would be empty. -/
def encodeSectionUnless (empty : Bool) (id : UInt8) (contents : Bytes) : Bytes :=
  if empty then [] else encodeSection id contents

/-- A function type: the byte that says so, then the types of the parameters and of the results.
There is at most one result. -/
def Signature.encode (s : Signature) : Bytes :=
  let types := encodeVector fun t : ValueType => [t.byte]
  0x60 :: types s.params ++ types s.result.types

/-- A global: its type, whether it can be written, and its initializer. -/
def Global.encode (g : Global) : Bytes :=
  g.type.byte :: (if g.mutable then 0x01 else 0x00) :: g.init.encode ++ Op.close.encode

/-- Runs of equal types with their lengths, the form in which a body declares its locals (`chunk_by`
in `compile_function`). Only neighbours are grouped, so a type may occur in several runs. -/
def runLengths : List ValueType → List (Nat × ValueType)
  | [] => []
  | t :: ts =>
    match runLengths ts with
    | (n, u) :: runs => if u = t then (n + 1, u) :: runs else (1, t) :: (n, u) :: runs
    | [] => [(1, t)]

/-- The instructions of a function and a final `end`, which closes the body and is not among the
instructions (`compile_function`). -/
def Function.code (f : Function) : Bytes :=
  f.body.flatMap (fun i => i.op.encode) ++ Op.close.encode

/-- A function body behind its size: the declared locals in runs of equal types, and the
code (`compile_function`). -/
def Function.encode (f : Function) : Bytes :=
  encodeSized <|
    encodeVector (fun (n, t) => unsigned n ++ [t.byte]) (runLengths f.localTypes) ++ f.code

/-! ## 4. The module

The sections in order, each with the entries of its items. -/

namespace Program

/-- The position of a signature in a table, which is what imports, functions and tags give in place
of the signature itself. -/
def encodeTypeIndex (table : List Signature) (s : Signature) : Bytes := unsigned (table.idxOf s)

/-- An import: the module and the name it comes from, the byte for a function, and the position of
its type. -/
def encodeImport (table : List Signature) (i : Import) : Bytes :=
  encodeName i.origin ++ encodeName i.name ++ 0x00 :: encodeTypeIndex table i.signature

/-- The exports: the first function with the name of the entry point, and the memory. -/
def exports (p : Program) : List Bytes :=
  (p.functionNamed? entryName).toList.map (fun f =>
      encodeName entryName ++ 0x00 :: unsigned f.index)
    ++ if p.usesMemory then [encodeName "memory" ++ 0x02 :: unsigned 0] else []

/-- The memory: one page, at most sixteen (`INITIAL_PAGES`, `MAX_PAGES`). -/
def memoryType : Bytes := 0x01 :: unsigned 1 ++ unsigned 16

/-- The eight bytes that every module begins with: the magic number and the version. -/
def preamble : Bytes := [0x00, 0x61, 0x73, 0x6d, 0x01, 0x00, 0x00, 0x00]

/-- The module as bytes. The type table is collected once and shared by imports, functions and tags;
a section without items is left out, except for types, functions, exports and code, which are always
written. -/
def binary (p : Program) : Bytes :=
  let table := p.typeTable
  preamble
    ++ encodeSection 1 (encodeVector Signature.encode table)
    ++ encodeSectionUnless p.imports.isEmpty 2 (encodeVector (encodeImport table) p.imports)
    ++ encodeSection 3 (encodeVector (fun f => encodeTypeIndex table f.signature) p.functions)
    ++ encodeSectionUnless (!p.usesMemory) 5 (encodeVector id [memoryType])
    ++ encodeSectionUnless p.tags.isEmpty 13
      (encodeVector (fun t => 0x00 :: encodeTypeIndex table t.signature) p.tags)
    ++ encodeSectionUnless p.globals.isEmpty 6 (encodeVector Global.encode p.globals)
    ++ encodeSection 7 (encodeVector id p.exports)
    ++ encodeSection 10 (encodeVector Function.encode p.functions)

/-- Assembles a program (`generate`). What can be wrong is looked for beforehand, in the order in
which the assembler meets it, so the bytes themselves need no error case. -/
def assemble (p : Program) : Except AssembleError Bytes :=
  match p.defect? with
  | some e => .error e
  | none => .ok p.binary

end Program

end WasmTrim
