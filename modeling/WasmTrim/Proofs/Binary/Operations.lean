/-
# Reading texts, types and operations

The inverse of the elementary encodings: texts, value types, doubles, and operations with their
immediates.  Each opcode is listed once with what follows it (`Op.readAfter`); the numeric
operations, which nothing follows, are found by their opcodes, which are all different.

The reader is written from the first byte on and the writer (`compile_instruction`) from the
operation on, so neither is read off the other.  Their agreement is one lemma per form of an
immediate: none, one number, an access to memory, a block type, a table of labels, a constant
(`parses_index`, `parses_access`, …), and then a case for each operation that says which form it has
(`parses_encode`).

Nothing is assumed of an operation here.  An alignment that no validator accepts and a label that
names no region are written as numbers and read back as the same numbers.
-/
import WasmTrim.Binary.Assemble
import WasmTrim.Proofs.Binary.Parsing

namespace WasmTrim

open Leb128

/-! ## 1. Texts

A text is written as its length in bytes and its bytes.  Every text has one list of bytes, and the
reader asks whether the bytes are those of a text. -/

theorem toList_loop_eq (bytes : ByteArray) (i : Nat) (done : Bytes) :
    ByteArray.toList.loop bytes i done = done.reverse ++ bytes.data.toList.drop i := by
  rw [ByteArray.toList.loop]
  split
  · rename_i hi
    have hget : bytes.data.toList.get ⟨i, hi⟩ = bytes.get! i := by
      rw [List.get_eq_getElem, Array.getElem_toList]
      exact (getElem!_pos bytes.data i hi).symm
    have hdrop : bytes.data.toList.drop i = bytes.get! i :: bytes.data.toList.drop (i + 1) := by
      rw [← hget]
      exact List.drop_eq_getElem_cons hi
    rw [toList_loop_eq bytes (i + 1), hdrop]
    simp
  · rename_i hi
    have hle : bytes.data.toList.length ≤ i := Nat.le_of_not_lt hi
    rw [List.drop_eq_nil_of_le hle, List.append_nil]
termination_by bytes.size - i

/-- The bytes of an array, as a list and back. -/
theorem toByteArray_toList (bytes : ByteArray) : bytes.toList.toByteArray = bytes := by
  have htoList : bytes.toList = bytes.data.toList := by
    rw [ByteArray.toList, toList_loop_eq bytes 0 []]
    rfl
  apply ByteArray.ext
  rw [← Array.toList_inj, List.toList_data_toByteArray, htoList]

/-- The text with the given bytes, behind their number. It is refused where the bytes encode no
text. -/
def readName : Reader String := do
  let bytes ← Reader.sized
  .ofOption (String.fromUTF8? bytes.toByteArray)

/-- **A text is read back**, since the bytes that encode it decode to it. -/
theorem parses_readName (name : String) : readName.Parses (encodeName name) name := by
  have hvalid : String.fromUTF8? name.toUTF8.toList.toByteArray = some name := by
    rw [toByteArray_toList, String.toUTF8_eq_toByteArray, String.fromUTF8?,
      dif_pos name.isValidUTF8]
    rfl
  intro rest
  rw [readName, encodeName, Reader.read_bind_of_read (Reader.parses_sized _ rest), hvalid]
  rfl

/-! ## 2. Types

A value type is one byte, and a block type is the byte of its result or the byte for none. -/

/-- The value type of a byte. There are other value types in a binary, and a program has none of
them. -/
def ValueType.ofByte? : UInt8 → Option ValueType
  | 0x7f => some .i32
  | 0x7e => some .i64
  | 0x7c => some .f64
  | _ => none

/-- The block type of a byte: none, or a value type. The other readings of a block type, by a number
in the type table, are not written and not read here. -/
def ResultType.ofByte? (b : UInt8) : Option ResultType :=
  if b = 0x40 then some none else (ValueType.ofByte? b).map some

theorem ValueType.ofByte?_byte (t : ValueType) : ValueType.ofByte? t.byte = some t := by
  cases t <;> rfl

theorem ResultType.ofByte?_byte : ∀ r : ResultType, ResultType.ofByte? r.byte = some r
  | none => rfl
  | some .i32 | some .i64 | some .f64 => rfl

def readValueType : Reader ValueType := do
  let b ← Reader.byte
  .ofOption (ValueType.ofByte? b)

theorem parses_readValueType (t : ValueType) : readValueType.Parses [t.byte] t := by
  intro rest
  rw [readValueType, Reader.read_bind_of_read (Reader.parses_byte t.byte rest),
    ValueType.ofByte?_byte]
  rfl

/-! ## 3. Doubles

A double is written by its bits and read back by its bits, so that the payload of a NaN comes
back. -/

/-- The double with the given bytes, the lowest first. Every list of eight bytes is a double, and
different lists are different doubles. -/
def F64.ofBytes (bytes : Bytes) : F64 := ⟨.ofNat 64 (bytes.foldr (fun b n => b.toNat + 256 * n) 0)⟩

/-- **A double is read back by its bits**, all 64 of them. So a NaN keeps its payload, and a zero
its sign. -/
theorem F64.ofBytes_bytes (x : F64) : F64.ofBytes x.bytes = x := by
  obtain ⟨bits⟩ := x
  have hdigit : ∀ k, (UInt8.ofBitVec (bits.extractLsb' (8 * k) 8)).toNat
      = bits.toNat / 2 ^ (8 * k) % 256 := by
    intro k
    rw [UInt8.toNat_ofBitVec, BitVec.extractLsb'_toNat, Nat.shiftRight_eq_div_pow]
  have hlt := bits.isLt
  have hrange : List.range 8 = [0, 1, 2, 3, 4, 5, 6, 7] := rfl
  simp only [F64.ofBytes, F64.bytes, hrange, List.map_cons, List.map_nil, List.foldr_cons,
    List.foldr_nil, hdigit]
  refine congrArg F64.mk (BitVec.eq_of_toNat_eq ?_)
  rw [BitVec.toNat_ofNat]
  omega

/-! ## 4. Operations

Most numeric operations have an opcode of one byte; the conversions that saturate have a prefix and
a number behind it. -/

/-- The numeric operation of an opcode, found by searching all operations for it. A search is enough
because no two have the same opcode. -/
def NumOp.ofOpcode? (opcode : Bytes) : Option NumOp := all.find? fun op => op.opcode = opcode

/-- **Different numeric operations have different opcodes**: the operation is found again by what is
written for it, in a look-up through all of them. -/
theorem NumOp.ofOpcode?_opcode (op : NumOp) : ofOpcode? op.opcode = some op := by
  have h : ∀ op ∈ all, ofOpcode? op.opcode = some op := by decide +kernel
  exact h op (mem_all op)

def readMemArg : Reader MemArg := do
  let align ← natural
  let offset ← natural
  return ⟨offset, align⟩

/-- A region of the given kind, with its block type, which follows the opcode as one byte. -/
def readEnter (kind : RegionKind) : Reader Op := do
  let b ← Reader.byte
  let result ← .ofOption (ResultType.ofByte? b)
  return .enter kind result

/-- An operation on the memory as a whole, which names the memory. -/
def readMemoryOp (op : Op) : Reader Op := do
  Reader.expect 0x00
  return op

/-- **The rest of an operation**, by the first byte of its opcode. Whatever is not listed here is a
numeric operation or is not an operation at all. -/
def Op.readAfter (b : UInt8) : Reader Op :=
  match b with
  | 0x00 => pure .unreachable
  | 0x01 => pure .nop
  | 0x02 => readEnter .block
  | 0x03 => readEnter .loop
  | 0x04 => readEnter .ifThen
  | 0x05 => pure .elseArm
  | 0x06 => readEnter .tryCatch
  | 0x07 => natural >>= fun tag => pure (.catchTag tag)
  | 0x08 => natural >>= fun tag => pure (.throwTag tag)
  | 0x09 => natural >>= fun label => pure (.rethrow label)
  | 0x0b => pure .close
  | 0x0c => natural >>= fun label => pure (.br label)
  | 0x0d => natural >>= fun label => pure (.brIf label)
  | 0x0e => do
    let targets ← natural.vector
    let fallback ← natural
    return .brTable targets fallback
  | 0x0f => pure .ret
  | 0x10 => natural >>= fun target => pure (.call target)
  | 0x12 => natural >>= fun target => pure (.returnCall target)
  | 0x18 => natural >>= fun label => pure (.delegate label)
  | 0x19 => pure .catchAll
  | 0x1a => pure .drop
  | 0x1b => pure .select
  | 0x20 => natural >>= fun index => pure (.localGet index)
  | 0x21 => natural >>= fun index => pure (.localSet index)
  | 0x22 => natural >>= fun index => pure (.localTee index)
  | 0x23 => natural >>= fun index => pure (.globalGet index)
  | 0x24 => natural >>= fun index => pure (.globalSet index)
  | 0x28 => readMemArg >>= fun arg => pure (.load .i32 arg)
  | 0x29 => readMemArg >>= fun arg => pure (.load .i64 arg)
  | 0x2b => readMemArg >>= fun arg => pure (.load .f64 arg)
  | 0x2d => readMemArg >>= fun arg => pure (.load .i32Byte arg)
  | 0x2f => readMemArg >>= fun arg => pure (.load .i32Half arg)
  | 0x36 => readMemArg >>= fun arg => pure (.store .i32 arg)
  | 0x37 => readMemArg >>= fun arg => pure (.store .i64 arg)
  | 0x39 => readMemArg >>= fun arg => pure (.store .f64 arg)
  | 0x3a => readMemArg >>= fun arg => pure (.store .i32Byte arg)
  | 0x3b => readMemArg >>= fun arg => pure (.store .i32Half arg)
  | 0x3f => readMemoryOp .memorySize
  | 0x40 => readMemoryOp .memoryGrow
  | 0x41 => integer >>= fun z => pure (.const (.i32 (.ofInt 32 z)))
  | 0x42 => integer >>= fun z => pure (.const (.i64 (.ofInt 64 z)))
  | 0x44 => Reader.take 8 >>= fun bytes => pure (.const (.f64 (.ofBytes bytes)))
  | 0xfc => do
    let c ← Reader.byte
    let op ← .ofOption (NumOp.ofOpcode? [0xfc, c])
    return .num op
  | b => .ofOption (NumOp.ofOpcode? [b]) >>= fun op => pure (.num op)

/-- An operation with its immediates, as it is written in a body (`compile_instruction`). -/
def readOp : Reader Op := Reader.byte >>= Op.readAfter

section

variable {b : UInt8} {bytes : Bytes} {op : Op}

theorem parses_readOp (h : (Op.readAfter b).Parses bytes op) : readOp.Parses (b :: bytes) op :=
  (Reader.parses_byte b).bind h

/-- An operation with one number behind its opcode: an index of a local, a function, a global or a
tag, or a label. -/
theorem parses_index {make : Nat → Op} (n : Nat)
    (h : Op.readAfter b = natural >>= fun k => pure (make k)) :
    readOp.Parses (b :: unsigned n) (make n) :=
  parses_readOp (h ▸ (parses_natural n).map make)

theorem parses_readMemArg (arg : MemArg) : readMemArg.Parses arg.encode arg :=
  (parses_natural arg.align).bind
    ((parses_natural arg.offset).map fun offset => MemArg.mk offset arg.align)

/-- A load or a store, with alignment and offset behind the opcode. -/
theorem parses_access {make : MemArg → Op} (arg : MemArg)
    (h : Op.readAfter b = readMemArg >>= fun a => pure (make a)) :
    readOp.Parses (b :: arg.encode) (make arg) :=
  parses_readOp (h ▸ (parses_readMemArg arg).map make)

theorem parses_enter {kind : RegionKind} (result : ResultType)
    (h : Op.readAfter b = readEnter kind) :
    readOp.Parses [b, result.byte] (.enter kind result) := by
  refine parses_readOp (h ▸ fun rest => ?_)
  rw [readEnter, Reader.read_bind_of_read (Reader.parses_byte result.byte rest),
    ResultType.ofByte?_byte]
  rfl

theorem parses_const (v : Value) : readOp.Parses v.encode (.const v) := by
  cases v with
  | i32 bits =>
    have h := (parses_integer bits.toInt).map fun z => Op.const (.i32 (.ofInt 32 z))
    rw [BitVec.ofInt_toInt] at h
    exact parses_readOp h
  | i64 bits =>
    have h := (parses_integer bits.toInt).map fun z => Op.const (.i64 (.ofInt 64 z))
    rw [BitVec.ofInt_toInt] at h
    exact parses_readOp h
  | f64 x =>
    have h := (Reader.parses_take x.bytes).map fun bytes => Op.const (.f64 (.ofBytes bytes))
    rw [F64.ofBytes_bytes] at h
    exact parses_readOp h

theorem parses_num (op : NumOp) : readOp.Parses op.opcode (.num op) := by
  -- an opcode of one byte is not the first byte of any other operation
  have hrows : ∀ op ∈ NumOp.all,
      (op.opcode.length = 1 ∧ ∀ b ∈ op.opcode, b ≠ 0xfc ∧ 0x45 ≤ b) ∨
        (op.opcode.length = 2 ∧ op.opcode.head? = some 0xfc) := by decide +kernel
  have hfind := NumOp.ofOpcode?_opcode op
  rcases hrows op (NumOp.mem_all op) with ⟨hl, hb⟩ | ⟨hl, hb⟩
  · obtain ⟨b, e⟩ := List.length_eq_one_iff.mp hl
    rw [e] at hb hfind ⊢
    obtain ⟨hne, hle⟩ := hb b List.mem_cons_self
    have hafter : Op.readAfter b
        = Reader.ofOption (NumOp.ofOpcode? [b]) >>= fun op => pure (.num op) := by
      unfold Op.readAfter
      -- every other row starts with an opcode below the comparisons, or with the prefix
      split
      case h_42 => exact absurd rfl hne
      case h_43 => rfl
      all_goals exact absurd hle (by decide)
    refine parses_readOp ?_
    rw [hafter, hfind]
    exact fun rest => rfl
  · obtain ⟨b, c, e⟩ : ∃ b c, op.opcode = [b, c] := by
      match op.opcode, hl with
      | [b, c], _ => exact ⟨b, c, rfl⟩
    rw [e] at hb hfind ⊢
    obtain rfl := Option.some.inj hb
    refine parses_readOp fun rest => ?_
    have hafter : Op.readAfter 0xfc = Reader.byte >>= fun c =>
        Reader.ofOption (NumOp.ofOpcode? [0xfc, c]) >>= fun op => pure (.num op) := rfl
    rw [hafter, Reader.read_bind_of_read (Reader.parses_byte c rest), hfind]
    rfl

/-- **Every operation is read back** with all its immediates. It does not matter which operations
follow, and nothing is asked of the immediates themselves. -/
theorem parses_encode (op : Op) : readOp.Parses op.encode op := by
  cases op with
  | enter kind result => cases kind <;> exact parses_enter result rfl
  | br label => exact parses_index label rfl
  | brIf label => exact parses_index label rfl
  | brTable targets fallback =>
    have htargets : natural.vector.Parses (encodeVector unsigned targets) (targets.map id) :=
      Reader.parses_vector fun n _ => parses_natural n
    rw [List.map_id] at htargets
    exact parses_readOp (htargets.bind ((parses_natural fallback).map (Op.brTable targets)))
  | call target => exact parses_index target rfl
  | returnCall target => exact parses_index target rfl
  | catchTag tag => exact parses_index tag rfl
  | throwTag tag => exact parses_index tag rfl
  | rethrow label => exact parses_index label rfl
  | delegate label => exact parses_index label rfl
  | localGet index => exact parses_index index rfl
  | localSet index => exact parses_index index rfl
  | localTee index => exact parses_index index rfl
  | globalGet index => exact parses_index index rfl
  | globalSet index => exact parses_index index rfl
  | load access arg => cases access <;> exact parses_access arg rfl
  | store access arg => cases access <;> exact parses_access arg rfl
  | const v => exact parses_const v
  | num op => exact parses_num op
  | _ => exact fun rest => rfl

end

/-- An operation has at least one byte, so that a body has no more operations than bytes and the
reader of bodies has bound enough. -/
theorem Op.encode_ne_nil (op : Op) : op.encode ≠ [] := by
  cases op with
  | const v => cases v <;> exact List.cons_ne_nil _ _
  | num op => cases op <;> exact List.cons_ne_nil _ _
  | _ => exact List.cons_ne_nil _ _

end WasmTrim
