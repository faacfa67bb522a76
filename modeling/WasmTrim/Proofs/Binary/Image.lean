/-
# A binary determines its program

What a binary says about a program is its *image*: everything but the names of functions, locals
and globals, and the markers.  `Image.decode` reads the image off the bytes, and for every program
that can be assembled it finds the image of that program (`decode_assemble`).

The sections are split off first and then read by their numbers, so that a section that was left
out is simply not found.  Imports, functions and tags refer to their signatures by position, so the
table of signatures comes before them.

The decoder is one function on bytes, which knows nothing of the program that was written.  That it
finds the image of every program therefore says that no two programs with different images have the
same binary, and that nothing the image speaks of is lost on the way (`generate`).  What is lost is
lost on purpose: a binary has no names for functions, locals and globals and no place for markers.

A function is the one part in which writing changes the shape of things.  Its locals are written as
runs of equal types and its body as a list of operations with one `end` more (`compile_function`).
Its size stands in front, so the body is read to the end of its bytes and not to the `end` that
closes it, and bodies that are not well nested are read back as well (`parses_readBody`).
-/
import Mathlib.Data.List.Basic
import WasmTrim.Proofs.Binary.Operations
import WasmTrim.Proofs.Consistency

namespace WasmTrim

open Leb128

/-! ## 1. Images

An image is made of the parts of a program as they are, so that comparing two images needs no
conversion; only the locals are listed by index instead of by name. -/

/-- What a binary says about a function: its signature, the types of its locals and its operations.
Its index is its place among the functions, and its name is not in the binary. -/
structure FunctionImage where
  params : List ValueType
  result : ResultType
  /-- The types of the locals that are not parameters. -/
  locals : List ValueType
  body : List Op
deriving DecidableEq

/-- The types of all locals by index, parameters first, in the way in which an instruction names
them. -/
def FunctionImage.slots (f : FunctionImage) : List ValueType := f.params ++ f.locals

/-- What a binary says about a global. Its name is not written, so two programs that differ in such
names alone have the same image. -/
structure GlobalImage where
  type : ValueType
  mutable : Bool
  init : Op
deriving DecidableEq

/-- **What a binary says about a program.** Two programs with one image differ only in the names of
functions, locals and globals and in markers; the names that the host sees, those of imports, belong
to the image. -/
structure Image where
  imports : List Import
  functions : List FunctionImage
  tags : List Tag
  globals : List GlobalImage
  /-- The function that the host calls. -/
  entry : Option Nat
  hasMemory : Bool
deriving DecidableEq

def Function.image (f : Function) : FunctionImage :=
  ⟨f.params, f.result, f.localTypes, f.body.map Instr.op⟩

def Global.image (g : Global) : GlobalImage := ⟨g.type, g.mutable, g.init⟩

/-- The program without the names of functions, locals and globals, and without markers. -/
def Program.image (p : Program) : Image where
  imports := p.imports
  functions := p.functions.map Function.image
  tags := p.tags
  globals := p.globals.map Global.image
  entry := (p.functionNamed? entryName).map Function.index
  hasMemory := p.usesMemory

/-! ## 2. Signatures

A function type has a list of results, of which a program uses at most one. -/

/-- The result type with the given types, of which there is at most one. -/
def ResultType.ofTypes? : List ValueType → Option ResultType
  | [] => some none
  | [t] => some (some t)
  | _ => none

def readSignature : Reader Signature := do
  Reader.expect 0x60
  let params ← readValueType.vector
  let results ← readValueType.vector
  let result ← .ofOption (ResultType.ofTypes? results)
  return ⟨params, result⟩

theorem parses_valueTypes (types : List ValueType) :
    readValueType.vector.Parses (encodeVector (fun t : ValueType => [t.byte]) types) types := by
  have h : readValueType.vector.Parses (encodeVector (fun t : ValueType => [t.byte]) types)
      (types.map id) := Reader.parses_vector fun t _ => parses_readValueType t
  rwa [List.map_id] at h

theorem parses_readSignature (s : Signature) : readSignature.Parses s.encode s := by
  have hresult : ResultType.ofTypes? s.result.types = some s.result := by
    cases s.result <;> rfl
  refine (Reader.parses_expect 0x60).bind ((parses_valueTypes s.params).bind ?_)
  intro rest
  rw [Reader.read_bind_of_read (parses_valueTypes s.result.types rest), hresult]
  rfl

/-- The signature at a position of the table. A position past its end is an error of the binary, and
reading fails. -/
def readSignatureAt (table : List Signature) : Reader Signature := do
  let position ← natural
  .ofOption table[position]?

theorem parses_readSignatureAt {table : List Signature} {s : Signature} (h : s ∈ table) :
    (readSignatureAt table).Parses (Program.encodeTypeIndex table s) s := by
  intro rest
  rw [readSignatureAt, Program.encodeTypeIndex,
    Reader.read_bind_of_read (parses_natural (table.idxOf s) rest), List.getElem?_idxOf h]
  rfl

/-! ## 3. Imports, tags, globals and exports

The entries of the sections other than code, each read by the inverse of what wrote it.  The entry
point has no section of its own; it is found among the exports. -/

def readImport (table : List Signature) : Reader Import := do
  let origin ← readName
  let name ← readName
  Reader.expect 0x00
  let signature ← readSignatureAt table
  return ⟨origin, name, signature⟩

theorem parses_readImport {table : List Signature} {i : Import} (h : i.signature ∈ table) :
    (readImport table).Parses (Program.encodeImport table i) i := by
  have hkind : (Reader.expect 0x00 >>= fun _ => readSignatureAt table >>= fun s =>
      pure (Import.mk i.origin i.name s)).Parses
        (0x00 :: Program.encodeTypeIndex table i.signature) i :=
    (Reader.parses_expect 0x00).bind ((parses_readSignatureAt h).map (Import.mk i.origin i.name))
  have hall : (readImport table).Parses (encodeName i.origin ++ (encodeName i.name ++
      0x00 :: Program.encodeTypeIndex table i.signature)) i :=
    (parses_readName i.origin).bind ((parses_readName i.name).bind hkind)
  rwa [← List.append_assoc] at hall

def readTag (table : List Signature) : Reader Tag := do
  Reader.expect 0x00
  let signature ← readSignatureAt table
  Reader.check signature.result.isNone
  return ⟨signature.params⟩

theorem parses_readTag {table : List Signature} {t : Tag} (h : t.signature ∈ table) :
    (readTag table).Parses (0x00 :: Program.encodeTypeIndex table t.signature) t := by
  have hparams : (readSignatureAt table >>= fun s => Reader.check s.result.isNone >>= fun _ =>
      pure (Tag.mk s.params)).Parses (Program.encodeTypeIndex table t.signature) t := by
    intro rest
    rw [Reader.read_bind_of_read (parses_readSignatureAt h rest)]
    rfl
  exact (Reader.parses_expect 0x00).bind hparams

def readMutability : Reader Bool := do
  let b ← Reader.byte
  Reader.check (b = 0x00 || b = 0x01)
  return b = 0x01

def readGlobal : Reader GlobalImage := do
  let type ← readValueType
  let isMutable ← readMutability
  let init ← readOp
  let last ← readOp
  Reader.check (last = .close)
  return ⟨type, isMutable, init⟩

theorem parses_readMutability : ∀ mutable : Bool,
    readMutability.Parses [if mutable then 0x01 else 0x00] mutable
  | true | false => fun _ => rfl

theorem parses_readGlobal (g : Global) : readGlobal.Parses g.encode g.image := by
  have hend : (readOp >>= fun last => Reader.check (last = .close) >>= fun _ =>
      pure (GlobalImage.mk g.type g.mutable g.init)).Parses Op.close.encode g.image := by
    intro rest
    rw [Reader.read_bind_of_read (parses_encode .close rest)]
    rfl
  exact (parses_readValueType g.type).bind ((parses_readMutability g.mutable).bind
    ((parses_encode g.init).bind hend))

/-- What can be exported here: a function or the memory, by index (`generate`). The kind is a byte,
0 for a function and 2 for a memory. -/
structure Export where
  name : String
  kind : UInt8
  index : Nat

def readExport : Reader Export := do
  let name ← readName
  let kind ← Reader.byte
  let index ← natural
  return ⟨name, kind, index⟩

/-- The bytes of an export: its name, then what it is, then its index among the things of that kind.
-/
def Export.encode (e : Export) : Bytes := encodeName e.name ++ e.kind :: unsigned e.index

theorem parses_readExport (e : Export) : readExport.Parses e.encode e :=
  (parses_readName e.name).bind ((Reader.parses_byte e.kind).bind
    ((parses_natural e.index).map fun index => Export.mk e.name e.kind index))

/-- The exports of a program: the entry point under its name, if there is one, and the memory, if
the program has one. -/
def Program.exportList (p : Program) : List Export :=
  ((p.functionNamed? entryName).map fun f => Export.mk entryName 0x00 f.index).toList
    ++ if p.usesMemory then [⟨"memory", 0x02, 0⟩] else []

theorem Program.exports_eq (p : Program) : p.exports = p.exportList.map Export.encode := by
  unfold exports exportList
  cases p.functionNamed? entryName <;> cases p.usesMemory <;> rfl

/-- The exported function is the entry point, if there is one, and there is no other export of a
function. The memory does not get in the way, since it has another kind. -/
theorem Program.find?_exportList (p : Program) :
    (p.exportList.find? fun e => e.kind = 0x00).map Export.index
      = (p.functionNamed? entryName).map Function.index := by
  unfold exportList
  cases p.functionNamed? entryName <;> cases p.usesMemory <;> rfl

def readMemory : Reader (Nat × Nat) := do
  Reader.expect 0x01
  let initial ← natural
  let maximum ← natural
  return (initial, maximum)

theorem parses_readMemory : readMemory.Parses Program.memoryType (1, 16) :=
  (Reader.parses_expect 0x01).bind
    ((parses_natural 1).bind ((parses_natural 16).map fun maximum => (1, maximum)))

/-! ## 4. Functions

Locals that are not parameters are declared in runs of one type, each run as long as possible, and
the last operation of the body is an `end` that belongs to no region (`compile_function`). -/

/-- A run of locals of one type: how many there are, and the type that they share. -/
def readRun : Reader (List ValueType) := do
  let n ← natural
  let type ← readValueType
  return List.replicate n type

theorem parses_readRun (n : Nat) (t : ValueType) :
    readRun.Parses (unsigned n ++ [t.byte]) (List.replicate n t) :=
  (parses_natural n).bind ((parses_readValueType t).map fun type => List.replicate n type)

/-- **Runs are read back as the types they stand for.** A run is as long as it can be, but that
plays no part in reading: any list of runs stands for the types it repeats. -/
theorem flatMap_runLengths : ∀ types : List ValueType,
    (runLengths types).flatMap (fun r => List.replicate r.1 r.2) = types
  | [] => rfl
  | t :: ts => by
    have ih := flatMap_runLengths ts
    simp only [runLengths]
    split
    · rename_i n u runs e
      rw [e, List.flatMap_cons] at ih
      split
      · rename_i hu
        rw [List.flatMap_cons, List.replicate_succ, List.cons_append, ih, hu]
      · rw [List.flatMap_cons, List.flatMap_cons, ih]
        rfl
    · rename_i e
      rw [e] at ih
      rw [← ih]
      rfl

/-- The locals and the operations of a function; the last operation ends the function. -/
def decodeBody (bytes : Bytes) : Option (List ValueType × List Op) := do
  let (runs, code) ← readRun.vector.read bytes
  let ops ← readOp.all code
  if ops.getLast? = some .close then some (runs.flatten, ops.dropLast) else none

def readBody : Reader (List ValueType × List Op) := do
  let bytes ← Reader.sized
  .ofOption (decodeBody bytes)

/-- **A function body is read back**, however it is nested. The size in front settles where the body
ends, and the reader asks only that its last operation is an `end`. -/
theorem parses_readBody (f : Function) :
    readBody.Parses f.encode (f.localTypes, f.body.map Instr.op) := by
  have hencode : f.encode = encodeSized (encodeVector (fun r => unsigned r.1 ++ [r.2.byte])
      (runLengths f.localTypes) ++ f.code) := rfl
  have hruns : readRun.vector.Parses
      (encodeVector (fun r => unsigned r.1 ++ [r.2.byte]) (runLengths f.localTypes))
      ((runLengths f.localTypes).map fun r => List.replicate r.1 r.2) :=
    Reader.parses_vector fun r _ => parses_readRun r.1 r.2
  have hflat : ((runLengths f.localTypes).map fun r => List.replicate r.1 r.2).flatten
      = f.localTypes := by
    rw [← List.flatMap_def, flatMap_runLengths]
  have hcode : f.code = (f.body.map Instr.op ++ [Op.close]).flatMap Op.encode := by
    rw [Function.code, List.flatMap_append, List.flatMap_map, List.flatMap_singleton]
  have hops : readOp.all f.code = some (f.body.map Instr.op ++ [Op.close]) := by
    rw [hcode, Reader.all_flatMap fun op _ => ⟨op.encode_ne_nil, parses_encode op⟩, List.map_id']
  have hbody : decodeBody (encodeVector (fun r => unsigned r.1 ++ [r.2.byte])
      (runLengths f.localTypes) ++ f.code) = some (f.localTypes, f.body.map Instr.op) := by
    simp only [decodeBody, hruns f.code, hops, bind, Option.bind, hflat]
    simp
  intro rest
  rw [readBody, hencode, encodeSized,
    Reader.read_bind_of_read (Reader.parses_sized _ rest), hbody]
  rfl

/-! ## 5. Sections

Some sections are left out when they would be empty, and are then not found among those that are
there.  A section that is left out and one that has no entries come to the same. -/

/-- A section: its number and its contents, which are passed over here as they are and read later.
-/
def readSection : Reader (UInt8 × Bytes) := do
  let id ← Reader.byte
  let contents ← Reader.sized
  return (id, contents)

theorem parses_readSection (s : UInt8 × Bytes) : readSection.Parses (encodeSection s.1 s.2) s :=
  (Reader.parses_byte s.1).bind ((Reader.parses_sized s.2).map fun contents => (s.1, contents))

/-- The items of the section with the given number; a section that is left out has none. -/
def sectionItems {α : Type} (sections : List (UInt8 × Bytes)) (id : UInt8) (r : Reader α) :
    Option (List α) :=
  match sections.lookup id with
  | none => some []
  | some contents => r.vector.whole contents

/-- The items of a section that is always there: each item is read back in turn, and nothing is left
over in the section. -/
theorem sectionItems_of_lookup {α β : Type} {sections : List (UInt8 × Bytes)} {id : UInt8}
    {r : Reader β} {encode : α → Bytes} {value : α → β} {items : List α}
    (hlookup : sections.lookup id = some (encodeVector encode items))
    (h : ∀ x ∈ items, r.Parses (encode x) (value x)) :
    sectionItems sections id r = some (items.map value) := by
  rw [sectionItems, hlookup]
  exact (Reader.parses_vector h).whole

/-- **The items of a section are read back**, also when it was left out for being empty. -/
theorem sectionItems_eq {α β : Type} {sections : List (UInt8 × Bytes)} {id : UInt8} {r : Reader β}
    {encode : α → Bytes} {value : α → β} {items : List α} {empty : Bool}
    (hlookup : sections.lookup id = if empty then none else some (encodeVector encode items))
    (hempty : empty = true → items = [])
    (h : ∀ x ∈ items, r.Parses (encode x) (value x)) :
    sectionItems sections id r = some (items.map value) := by
  cases empty with
  | true => rw [sectionItems, hlookup, hempty rfl]; rfl
  | false => exact sectionItems_of_lookup hlookup h

/-- The section unless it would be empty, with its number but without the bytes of its length. -/
def sectionUnless (empty : Bool) (id : UInt8) (contents : Bytes) : List (UInt8 × Bytes) :=
  if empty then [] else [(id, contents)]

theorem flatMap_sectionUnless (empty : Bool) (id : UInt8) (contents : Bytes) :
    (sectionUnless empty id contents).flatMap (fun s => encodeSection s.1 s.2)
      = encodeSectionUnless empty id contents := by
  cases empty <;> simp [sectionUnless, encodeSectionUnless]

theorem lookup_sectionUnless (empty : Bool) (id id' : UInt8) (contents : Bytes) :
    (sectionUnless empty id contents).lookup id'
      = if id' = id then (if empty then none else some contents) else none := by
  cases empty with
  | true => simp [sectionUnless]
  | false =>
    by_cases h : id' = id
    · simp [sectionUnless, h]
    · simp [sectionUnless, List.lookup_cons, h, beq_eq_false_iff_ne.mpr h]

/-- The sections of a program, by number and contents and in the order in which they are written
(`generate`). The sections for imports, memory, tags and globals are left out when they would be
empty. -/
def Program.sections (p : Program) : List (UInt8 × Bytes) :=
  sectionUnless false 1 (encodeVector Signature.encode p.typeTable)
    ++ sectionUnless p.imports.isEmpty 2 (encodeVector (encodeImport p.typeTable) p.imports)
    ++ sectionUnless false 3
      (encodeVector (fun f => encodeTypeIndex p.typeTable f.signature) p.functions)
    ++ sectionUnless (!p.usesMemory) 5 (encodeVector id [memoryType])
    ++ sectionUnless p.tags.isEmpty 13
      (encodeVector (fun t => 0x00 :: encodeTypeIndex p.typeTable t.signature) p.tags)
    ++ sectionUnless p.globals.isEmpty 6 (encodeVector Global.encode p.globals)
    ++ sectionUnless false 7 (encodeVector id p.exports)
    ++ sectionUnless false 10 (encodeVector Function.encode p.functions)

theorem Program.binary_eq (p : Program) :
    p.binary = preamble ++ p.sections.flatMap fun s => encodeSection s.1 s.2 := by
  simp only [binary, sections, List.flatMap_append, flatMap_sectionUnless, List.append_assoc]
  rfl

theorem Program.read_preamble (p : Program) : (Reader.take 8).read p.binary
    = some (preamble, p.sections.flatMap fun s => encodeSection s.1 s.2) := by
  rw [p.binary_eq]
  exact Reader.parses_take preamble _

/-- **The sections are split off.** Every section says how many bytes it has, so they are told apart
before any of them is understood. -/
theorem Program.readSection_all (p : Program) :
    readSection.all (p.sections.flatMap fun s => encodeSection s.1 s.2) = some p.sections := by
  have hne : ∀ s : UInt8 × Bytes, encodeSection s.1 s.2 ≠ [] := fun s => List.cons_ne_nil _ _
  rw [Reader.all_flatMap fun s _ => ⟨hne s, parses_readSection s⟩, List.map_id']

/-- Each section is found under its number, whichever of the others are left out. No number is used
twice, though the sections do not come in the order of their numbers. -/
theorem lookup_sections (b₂ b₅ b₁₃ b₆ : Bool) (c₁ c₂ c₃ c₅ c₁₃ c₆ c₇ c₁₀ : Bytes)
    (s : List (UInt8 × Bytes))
    (hs : s = sectionUnless false 1 c₁ ++ sectionUnless b₂ 2 c₂ ++ sectionUnless false 3 c₃
      ++ sectionUnless b₅ 5 c₅ ++ sectionUnless b₁₃ 13 c₁₃ ++ sectionUnless b₆ 6 c₆
      ++ sectionUnless false 7 c₇ ++ sectionUnless false 10 c₁₀) :
    (s.lookup 1 = some c₁ ∧ s.lookup 2 = if b₂ then none else some c₂) ∧
    (s.lookup 3 = some c₃ ∧ s.lookup 5 = if b₅ then none else some c₅) ∧
    (s.lookup 13 = (if b₁₃ then none else some c₁₃) ∧ s.lookup 6 = if b₆ then none else some c₆) ∧
    (s.lookup 7 = some c₇ ∧ s.lookup 10 = some c₁₀) := by
  subst hs
  simp [List.lookup_append, lookup_sectionUnless]

/-! ## 6. The module

The image is put together from what the sections hold.  The conditions under which a program can be
assembled say where functions, globals and locals stand, and so which entry belongs to which of
them. -/

/-- **Reads the image of a program off its binary.** The sections are taken by number, and the
positions in the table of types are replaced by the types that stand there; anything that does not
fit together gives no image. -/
def Image.decode (bytes : Bytes) : Option Image := do
  let (magic, rest) ← (Reader.take 8).read bytes
  if magic ≠ Program.preamble then none
  let sections ← readSection.all rest
  let table ← sectionItems sections 1 readSignature
  let imports ← sectionItems sections 2 (readImport table)
  let signatures ← sectionItems sections 3 (readSignatureAt table)
  let memories ← sectionItems sections 5 readMemory
  let tags ← sectionItems sections 13 (readTag table)
  let globals ← sectionItems sections 6 readGlobal
  let exports ← sectionItems sections 7 readExport
  let bodies ← sectionItems sections 10 readBody
  if signatures.length ≠ bodies.length then none
  return {
    imports
    functions := signatures.zipWith (fun s b => ⟨s.params, s.result, b.1, b.2⟩) bodies
    tags
    globals
    entry := (exports.find? fun e => e.kind = 0x00).map Export.index
    hasMemory := !memories.isEmpty }

/-- Every signature in use is in the table, and the table holds no others; it is the list of uses
without repetitions. -/
theorem Program.mem_typeTable {p : Program} {s : Signature} :
    s ∈ p.typeTable ↔ s ∈ p.signatureUses := List.mem_eraseDups

/-- **The binary of a program is read back as its image.** -/
theorem Image.decode_binary (p : Program) : Image.decode p.binary = some p.image := by
  obtain ⟨⟨h₁, h₂⟩, ⟨h₃, h₅⟩, ⟨h₁₃, h₆⟩, h₇, h₁₀⟩ := lookup_sections _ _ _ _ _ _ _ _ _ _ _ _
    p.sections rfl
  have htable : sectionItems p.sections 1 readSignature = some p.typeTable := by
    rw [sectionItems_of_lookup h₁ fun s _ => parses_readSignature s, List.map_id']
  have himports : sectionItems p.sections 2 (readImport p.typeTable) = some p.imports := by
    rw [sectionItems_eq h₂ List.isEmpty_iff.mp fun i hi => parses_readImport
      (Program.mem_typeTable.mpr (by simp [Program.signatureUses, List.mem_map_of_mem hi])),
      List.map_id']
  have hsignatures : sectionItems p.sections 3 (readSignatureAt p.typeTable)
      = some (p.functions.map Function.signature) :=
    sectionItems_of_lookup h₃ fun f hf => parses_readSignatureAt
      (Program.mem_typeTable.mpr (by simp [Program.signatureUses, List.mem_map_of_mem hf]))
  have hmemories : ∃ memories, sectionItems p.sections 5 readMemory = some memories ∧
      (!memories.isEmpty) = p.usesMemory := by
    rw [sectionItems, h₅]
    cases p.usesMemory with
    | true =>
      have h : readMemory.vector.Parses (encodeVector id [Program.memoryType])
          ([Program.memoryType].map fun _ => (1, 16)) :=
        Reader.parses_vector fun x hx => List.mem_singleton.mp hx ▸ parses_readMemory
      exact ⟨_, h.whole, rfl⟩
    | false => exact ⟨[], rfl, rfl⟩
  obtain ⟨memories, hmemories, hpresent⟩ := hmemories
  have htags : sectionItems p.sections 13 (readTag p.typeTable) = some p.tags := by
    rw [sectionItems_eq h₁₃ List.isEmpty_iff.mp fun t ht => parses_readTag
      (Program.mem_typeTable.mpr (by simp [Program.signatureUses, List.mem_map_of_mem ht])),
      List.map_id']
  have hglobals : sectionItems p.sections 6 readGlobal = some (p.globals.map Global.image) :=
    sectionItems_eq h₆ List.isEmpty_iff.mp fun g _ => parses_readGlobal g
  have hexports : sectionItems p.sections 7 readExport = some p.exportList := by
    have e : encodeVector id p.exports = encodeVector Export.encode p.exportList := by
      rw [p.exports_eq]
      simp [encodeVector, List.flatMap_map]
    rw [e] at h₇
    rw [sectionItems_of_lookup h₇ fun x _ => parses_readExport x, List.map_id']
  have hbodies : sectionItems p.sections 10 readBody
      = some (p.functions.map fun f => (f.localTypes, f.body.map Instr.op)) :=
    sectionItems_of_lookup h₁₀ fun f _ => parses_readBody f
  have hfunctions : (p.functions.map Function.signature).zipWith
      (fun s b => FunctionImage.mk s.params s.result b.1 b.2)
      (p.functions.map fun f => (f.localTypes, f.body.map Instr.op))
        = p.functions.map Function.image := by
    rw [List.zipWith_map, List.zipWith_self]
    rfl
  simp only [Image.decode, p.read_preamble, p.readSection_all, htable, himports, hsignatures,
    hmemories, htags, hglobals, hexports, hbodies, bind, Option.bind, pure, List.length_map, ne_eq,
    not_true_eq_false, if_false, hfunctions, p.find?_exportList, hpresent, Program.image]

/-- **The locals of a binary are those of the function**, index by index. The binary lists the types
of the locals behind the parameters; each stands at the place that the table of the function gives
to it, and there are no others. -/
theorem Function.slots_image {f : Function} (h : f.locals.isContiguous) :
    f.image.locals.length = f.locals.size - f.paramCount ∧
      ∀ l ∈ f.locals.entries, f.paramCount ≤ l.index → f.image.slots[l.index]? = some l.type := by
  have hlocals : f.image.locals = f.locals.types.drop f.paramCount := localTypes_of_contiguous h
  refine ⟨by rw [hlocals, List.length_drop, LocalTable.length_types], fun l hl hle => ?_⟩
  have hat := (LocalTable.getElem?_types h).mpr ⟨l, hl, rfl, rfl⟩
  have hle' : f.params.length ≤ l.index := hle
  rw [FunctionImage.slots, hlocals,
    List.getElem?_append_right (show f.image.params.length ≤ _ from hle'), List.getElem?_drop]
  have e : f.paramCount + (l.index - f.image.params.length) = l.index := by
    simp only [Function.image, Function.paramCount]
    omega
  rw [e]
  exact hat

/-- **What can be assembled**: every function stands at its index, every global starts as a
constant, and the locals of every function are numbered from zero on. -/
structure Program.Assemblable (p : Program) : Prop where
  indices : ∀ (i : Nat) (f : Function), p.functions[i]? = some f → f.index = p.functionBase + i
  constants : ∀ g ∈ p.globals, g.init.isConst
  locals : ∀ f ∈ p.functions, f.locals.isContiguous

theorem Program.defect?_eq_none_iff {p : Program} : p.defect? = none ↔ p.Assemblable := by
  have hplaced : p.misplaced? = none ↔
      ∀ (i : Nat) (f : Function), p.functions[i]? = some f → f.index = p.functionBase + i := by
    simp only [misplaced?, List.findSome?_eq_none_iff, ite_eq_left_iff, reduceCtorEq, imp_false,
      Decidable.not_not, Prod.forall, List.mk_mem_zipIdx_iff_getElem?]
    exact ⟨fun h i f hf => h f i hf, fun h f i hf => h i f hf⟩
  have hconstant : p.notConstant? = none ↔ ∀ g ∈ p.globals, g.init.isConst := by
    simp [notConstant?]
  have hlocals : p.scatteredLocals? = none ↔ ∀ f ∈ p.functions, f.locals.isContiguous := by
    simp [scatteredLocals?]
  simp only [defect?, Option.orElse_eq_orElse, Option.orElse_eq_or, Option.or_eq_none_iff, hplaced,
    hconstant, hlocals]
  exact ⟨fun ⟨h₁, h₂, h₃⟩ => ⟨h₁, h₂, h₃⟩, fun h => ⟨h.indices, h.constants, h.locals⟩⟩

theorem Program.exists_assemble_iff {p : Program} :
    (∃ bytes, p.assemble = .ok bytes) ↔ p.Assemblable := by
  rw [← defect?_eq_none_iff, assemble]
  cases p.defect? <;> simp

/-- **The assembled binary determines the program**, up to the names of functions, locals and
globals and up to markers.  Reading the bytes gives the image of the program that was assembled,
and in it each local that is not a parameter has the type that the program gives to its index. -/
theorem decode_assemble (p : Program) (bytes : Bytes) (h : p.assemble = .ok bytes) :
    Image.decode bytes = some p.image ∧
    ∀ f ∈ p.functions, f.image.locals.length = f.locals.size - f.paramCount ∧
      ∀ l ∈ f.locals.entries, f.paramCount ≤ l.index → f.image.slots[l.index]? = some l.type := by
  unfold Program.assemble at h
  split at h
  · cases h
  · rename_i hdefect
    obtain rfl := Except.ok.inj h
    exact ⟨Image.decode_binary p, fun f hf =>
      Function.slots_image ((Program.defect?_eq_none_iff.mp hdefect).locals f hf)⟩

theorem decode_assemble_sample : sample.assemble = .ok sample.binary ∧
    Image.decode sample.binary = some sample.image := by
  have h : sample.assemble = .ok sample.binary := by
    have hdefect : sample.defect? = none := by decide +kernel
    rw [Program.assemble, hdefect]
  exact ⟨h, (decode_assemble sample sample.binary h).1⟩

end WasmTrim
