/-
# Typing bytes and typing operations

The checker reads the bytes that a body is written as.  Each operation is read as its own rule,
if its numbers have at most 32 bits, and is refused otherwise (`Op.readsAs_encode`); what follows
is left alone.  There is one exception: an alignment with bit 6 set announces the index of a
memory, and the bytes behind it are read as something else.

So a body without such an alignment is valid exactly if it is well typed and its numbers have at
most 32 bits (`Function.isValid_iff`).  In a well typed body within the limits they do
(`Function.Typed.isValid`).

The bridge is needed because the rewrites change operations and the validator sees bytes.  Arguments
about typing are made on operations, in the modules that follow, and brought back to bytes here at
the end.  It is crossed at one operation: the reader of instructions takes the bytes of the
operation off the front of any input and gives its rule, so that checking the bytes of a body is
checking its operations one after the other (`run_eq_some_iff`).

A number with more than 32 bits can stand in an operation but has no rule: the reader gives up on
its bytes.  `Reader.ReadsAs` is the form that covers both outcomes, and refusal is passed on like a
value.
-/
import WasmTrim.Proofs.Binary.Operations
import WasmTrim.Proofs.Typing.Replacement

namespace WasmTrim

/-! ## 1. Reading what was written

The same combinators as for `Reader.Parses`, each with a case for refusal. -/

namespace Reader

/-- **The reader takes these bytes and nothing else**, and gives the value if there is one; if not,
it fails. -/
def ReadsAs {α : Type} (r : Reader α) (bytes : Bytes) (value : Option α) : Prop :=
  ∀ rest, r.read (bytes ++ rest) = value.map fun a => (a, rest)

variable {α β : Type} {r : Reader α} {bytes bytes' : Bytes}

theorem Parses.readsAs {a : α} (h : r.Parses bytes a) : r.ReadsAs bytes (some a) := h

theorem readsAs_pure (a : α) : (pure a : Reader α).ReadsAs [] (some a) := fun _ => rfl

/-- Nothing is read behind what is refused, so the whole is refused with whatever bytes follow. -/
theorem ReadsAs.bind_none {next : α → Reader β} (h : r.ReadsAs bytes none) :
    (r >>= next).ReadsAs (bytes ++ bytes') none := by
  intro rest
  have hr := h (bytes' ++ rest)
  rw [List.append_assoc]
  simp only [Bind.bind, Reader.bind, hr]
  rfl

/-- What follows goes on with the value, and reads the bytes behind those that gave it. -/
theorem ReadsAs.bind_some {a : α} {next : α → Reader β} {value : Option β}
    (h : r.ReadsAs bytes (some a)) (h' : (next a).ReadsAs bytes' value) :
    (r >>= next).ReadsAs (bytes ++ bytes') value := by
  intro rest
  rw [List.append_assoc, read_bind_of_read (h (bytes' ++ rest))]
  exact h' rest

theorem ReadsAs.bind {value : Option α} {next : α → Reader β} {value' : α → Option β}
    (h : r.ReadsAs bytes value) (h' : ∀ a, (next a).ReadsAs bytes' (value' a)) :
    (r >>= next).ReadsAs (bytes ++ bytes') (value.bind value') := by
  cases value with
  | none => exact h.bind_none
  | some a => exact h.bind_some (h' a)

/-- What follows takes no more bytes, and may still refuse the value. -/
theorem ReadsAs.bind_nil {value : Option α} {next : α → Reader β} {value' : α → Option β}
    (h : r.ReadsAs bytes value) (h' : ∀ a, (next a).ReadsAs [] (value' a)) :
    (r >>= next).ReadsAs bytes (value.bind value') := by
  have := h.bind h'
  rwa [List.append_nil] at this

/-- The last reader of a chain, which puts together what has been read and refuses nothing. -/
theorem ReadsAs.map {value : Option α} (h : r.ReadsAs bytes value) (f : α → β) :
    (r >>= fun a => pure (f a)).ReadsAs bytes (value.map f) := by
  have := h.bind_nil fun a => readsAs_pure (f a)
  cases value <;> exact this

theorem readsAs_check (condition : Bool) :
    (check condition).ReadsAs [] (if condition then some () else none) := by
  intro rest
  cases condition <;> rfl

end Reader

namespace Leb128

/-- Whatever number of groups is allowed, no other number is read. -/
theorem eq_of_read_unsignedGroups : ∀ {k n : Nat} {rest : Bytes} {m : Nat} {rest' : Bytes},
    (unsignedGroups k).read (unsigned n ++ rest) = some (m, rest') → n < 128 ^ k
  | 0, n, rest, m, rest', h => by cases h
  | k + 1, n, rest, m, rest', h => by
    by_cases hn : n < 128
    · exact Nat.lt_of_lt_of_le hn (Nat.le_self_pow (Nat.succ_ne_zero k) 128)
    · rw [unsigned, if_neg hn, List.cons_append, unsignedGroups,
        Reader.read_bind_of_read (Reader.read_byte _ _)] at h
      have e : (n % 128 + 128).toUInt8.toNat = n % 128 + 128 := by simpa using by omega
      have hb : ¬ (n % 128 + 128).toUInt8 < 128 := by
        rw [UInt8.lt_iff_toNat_lt, e]
        exact Nat.not_lt.mpr (Nat.le_add_left ..)
      rw [if_neg hb] at h
      simp only [bind, Reader.bind] at h
      split at h
      · rename_i hr
        have := eq_of_read_unsignedGroups hr
        rw [Nat.pow_succ]
        omega
      · cases h

/-- **A number of at most 32 bits is read back, and a larger one is refused.** The reader gives up
after five groups, or at the last of them if it holds bits past the width. -/
theorem readsAs_u32 (n : Nat) :
    Validation.u32.ReadsAs (unsigned n) (if n < 2 ^ 32 then some n else none) := by
  intro rest
  split
  · rename_i hn
    exact read_readUnsigned rest (by decide) hn
  · rename_i hn
    simp only [Validation.u32, readUnsigned, bind, Reader.bind]
    split
    · rename_i hr
      have hlt := eq_of_read_unsignedGroups hr
      rw [read_unsignedGroups rest (by decide) hlt] at hr
      obtain ⟨rfl, rfl⟩ := Prod.mk.inj (Option.some.inj hr)
      simp only [Reader.check, Nat.one_shiftLeft, decide_eq_false hn]
      rfl
    · rfl

/-- Some numbers one after the other. They are all read if each is in range, and refused if one is
not. -/
theorem readsAs_times_u32 : ∀ ns : List Nat, (Validation.u32.times ns.length).ReadsAs
    (ns.flatMap unsigned) (if ∀ n ∈ ns, n < 2 ^ 32 then some ns else none)
  | [] => Reader.readsAs_pure []
  | n :: ns => by
    have h := (readsAs_u32 n).bind fun m => (readsAs_times_u32 ns).map (m :: ·)
    rw [List.flatMap_cons]
    simp only [List.forall_mem_cons]
    by_cases hn : n < 2 ^ 32
    · rw [if_pos hn, Option.bind_some] at h
      by_cases hns : ∀ n ∈ ns, n < 2 ^ 32
      · rw [if_pos hns] at h
        rwa [if_pos ⟨hn, hns⟩]
      · rw [if_neg hns] at h
        rwa [if_neg fun hc => hns hc.2]
    · rw [if_neg hn] at h
      rwa [if_neg fun hc => hn hc.1]

end Leb128

/-! ## 2. Rules

The rules are grouped by the form of the immediates, and each group has one lemma
(`compile_instruction`). -/

namespace Op

/-- The numbers that are written with an operation and may have at most 32 bits. -/
def numbers : Op → List Nat
  | .br label | .brIf label | .rethrow label | .delegate label => [label]
  | .brTable targets fallback => targets.length :: fallback :: targets
  | .call target | .returnCall target => [target]
  | .catchTag tag | .throwTag tag => [tag]
  | .localGet index | .localSet index | .localTee index => [index]
  | .globalGet index | .globalSet index => [index]
  | _ => []

/-- The numbers of an operation have at most 32 bits, so that its bytes are read back as the same
numbers. -/
abbrev Fits (o : Op) : Prop := ∀ n ∈ o.numbers, n < 2 ^ 32

/-- The alignment of a memory access has bit 6 set, which announces the index of a memory. -/
def announcesMemory : Op → Bool
  | .load _ arg | .store _ arg => arg.align / 64 % 2 = 1
  | _ => false

end Op

namespace Validation

open Leb128

/-- The rule of the next instruction, which the validator reads before it applies it. -/
def readRule : Reader Rule := Reader.byte >>= instruction

variable {b : UInt8} {bytes : Bytes} {value : Option Rule}

theorem readsAs_readRule (h : (instruction b).ReadsAs bytes value) :
    readRule.ReadsAs (b :: bytes) value := fun rest => h rest

/-- An instruction with one number behind its opcode, which has to be below `2 ^ 32`. -/
theorem readsAs_index {make : Nat → Rule} (n : Nat)
    (h : instruction b = u32 >>= fun k => pure (make k)) :
    readRule.ReadsAs (b :: unsigned n) (if ∀ k ∈ [n], k < 2 ^ 32 then some (make n) else none) := by
  have hread := (readsAs_u32 n).map make
  rw [← h] at hread
  refine readsAs_readRule ?_
  simp only [List.forall_mem_singleton]
  by_cases hn : n < 2 ^ 32
  · rw [if_pos hn] at hread ⊢
    exact hread
  · rw [if_neg hn] at hread ⊢
    exact hread

/-- What follows an alignment that names no memory is the offset. -/
theorem readsAs_offset {align offset bound : Nat} {next : Nat → Reader Nat}
    (hnext : next align
      = u32 >>= fun _ => Reader.check (decide (align ≤ bound)) >>= fun _ => pure 0)
    (hbound : bound < 2 ^ 32) : (u32 >>= next).ReadsAs (unsigned align ++ unsigned offset)
      (if align ≤ bound ∧ offset < 2 ^ 32 then some 0 else none) := by
  have halign := readsAs_u32 align
  by_cases ha : align < 2 ^ 32
  · have hcheck := (Reader.readsAs_check (decide (align ≤ bound))).map fun _ => 0
    have hoffset := (readsAs_u32 offset).bind_nil fun _ => hcheck
    rw [if_pos ha] at halign
    rw [← hnext] at hoffset
    have hread := halign.bind_some hoffset
    by_cases ho : offset < 2 ^ 32
    · rw [if_pos ho, Option.bind_some] at hread
      by_cases hle : align ≤ bound
      · rw [decide_eq_true hle] at hread
        rwa [if_pos ⟨hle, ho⟩]
      · rw [decide_eq_false hle] at hread
        rwa [if_neg fun hc => hle hc.1]
    · rw [if_neg ho] at hread
      rwa [if_neg fun hc => ho hc.2]
  · rw [if_neg ha] at halign
    rw [if_neg fun hc => ha (Nat.lt_of_le_of_lt hc.1 hbound)]
    exact halign.bind_none

/-- **The immediate of a memory access** that names no memory is its alignment and its offset, and
both are within bounds or the access is refused. -/
theorem readsAs_memArg {arg : MemArg} {bound : Nat} (h : arg.align / 64 % 2 ≠ 1)
    (hbound : bound < 2 ^ 32) : (memArg (.upTo bound)).ReadsAs arg.encode
      (if arg.align ≤ bound ∧ arg.offset < 2 ^ 32 then some 0 else none) := by
  refine readsAs_offset ?_ hbound
  simp only [h, if_false]
  rfl

theorem readsAs_access {arg : MemArg} {bound : Nat} {takes leaves : List OperandType}
    (hi : instruction b = memoryAccess (.upTo bound) takes leaves)
    (h : arg.align / 64 % 2 ≠ 1) (hbound : bound < 2 ^ 32) :
    readRule.ReadsAs (b :: arg.encode)
      (if arg.align ≤ bound ∧ arg.offset < 2 ^ 32 then some (.memory [0] takes leaves)
        else none) := by
  have hread := (readsAs_memArg h hbound).map fun memory => Rule.memory [memory] takes leaves
  refine readsAs_readRule ?_
  rw [hi]
  split
  · rename_i hc
    rwa [if_pos hc] at hread
  · rename_i hc
    rwa [if_neg hc] at hread

theorem readsAs_skip (bytes : Bytes) : (skip bytes.length).ReadsAs bytes (some ()) := by
  have h : (Reader.byte.times bytes.length).Parses (bytes.flatMap fun b => [b])
      (bytes.map fun b => b) := Reader.parses_times fun b _ => Reader.parses_byte b
  rw [List.flatMap_singleton'] at h
  exact h.map fun _ => ()

theorem readsAs_const (v : Value) : readRule.ReadsAs v.encode (some (.arrow [] [.num v.type])) := by
  cases v with
  | i32 bits =>
    have h : (readSigned 32).Parses (signed bits.toInt) bits.toInt := fun rest =>
      read_readSigned rest (by decide) (by have := bits.le_toInt; omega)
        (by have := bits.toInt_lt; omega)
    exact readsAs_readRule (h.readsAs.map fun _ => Rule.arrow [] [.i32])
  | i64 bits =>
    have h : (readSigned 64).Parses (signed bits.toInt) bits.toInt := fun rest =>
      read_readSigned rest (by decide) (by have := bits.le_toInt; omega)
        (by have := bits.toInt_lt; omega)
    exact readsAs_readRule (h.readsAs.map fun _ => Rule.arrow [] [.i64])
  | f64 x => exact readsAs_readRule ((readsAs_skip x.bytes).map fun _ => Rule.arrow [] [.f64])

theorem readsAs_num (op : NumOp) : readRule.ReadsAs op.opcode
    (some (.arrow (operandTypes op.operands) [.num op.result])) := by
  cases op <;> exact fun rest => rfl

/-- A region with its block type, which is none or a value type in all that is written here. -/
theorem readsAs_enter {kind : RegionKind} (result : ResultType)
    (h : instruction b = blockType >>= fun type => pure (.enter kind type)) :
    readRule.ReadsAs [b, result.byte] (some (.enter kind result.blockType)) := by
  refine readsAs_readRule ?_
  rw [h]
  have hblock : blockType.ReadsAs [result.byte] (some result.blockType) := by
    rcases result with _ | _ | _ | _ <;> exact fun rest => rfl
  exact hblock.map (Rule.enter kind)

/-- A branch by a table: the number of its labels, the labels, and the last one. -/
theorem readsAs_brTable (targets : List Nat) (fallback : Nat) :
    readRule.ReadsAs (Op.brTable targets fallback).encode
      (if (Op.brTable targets fallback).Fits then some (.brTable targets fallback) else none) := by
  have e : (Op.brTable targets fallback).encode
      = 0x0e :: (unsigned targets.length ++ (targets.flatMap unsigned ++ unsigned fallback)) := by
    simp [Op.encode, encodeVector]
  rw [e]
  refine readsAs_readRule ?_
  have hlast := (readsAs_u32 fallback).map (Rule.brTable targets)
  have htargets := readsAs_times_u32 targets
  have hcount := readsAs_u32 targets.length
  simp only [Op.Fits, Op.numbers, List.forall_mem_cons]
  have hi : instruction 0x0e = u32 >>= fun count => u32.times count >>= fun targets =>
      u32 >>= fun fallback => pure (.brTable targets fallback) := rfl
  rw [hi]
  by_cases hc : targets.length < 2 ^ 32
  · rw [if_pos hc] at hcount
    refine hcount.bind_some ?_
    by_cases ht : ∀ n ∈ targets, n < 2 ^ 32
    · rw [if_pos ht] at htargets
      refine htargets.bind_some ?_
      by_cases hf : fallback < 2 ^ 32
      · rw [if_pos hf] at hlast
        rwa [if_pos ⟨hc, hf, ht⟩]
      · rw [if_neg hf] at hlast
        rwa [if_neg fun h => hf h.2.1]
    · rw [if_neg ht] at htargets
      rw [if_neg fun h => ht h.2.2]
      exact htargets.bind_none
  · rw [if_neg hc] at hcount
    rw [if_neg fun h => hc h.1]
    exact hcount.bind_none

end Validation

open Validation

/-- **Every operation is read as its rule**, if its numbers have at most 32 bits, and is refused
otherwise. -/
theorem Op.readsAs_encode {o : Op} (h : o.announcesMemory = false) :
    readRule.ReadsAs o.encode (if o.Fits then o.rule? else none) := by
  cases o with
  | enter kind result =>
    cases kind <;> exact readsAs_enter result rfl
  | br label => exact readsAs_index label rfl
  | brIf label => exact readsAs_index label rfl
  | brTable targets fallback => exact readsAs_brTable targets fallback
  | call target => exact readsAs_index target rfl
  | returnCall target => exact readsAs_index target rfl
  | catchTag tag => exact readsAs_index tag rfl
  | throwTag tag => exact readsAs_index tag rfl
  | rethrow label => exact readsAs_index label rfl
  | delegate label => exact readsAs_index label rfl
  | localGet index => exact readsAs_index index rfl
  | localSet index => exact readsAs_index index rfl
  | localTee index => exact readsAs_index index rfl
  | globalGet index => exact readsAs_index index rfl
  | globalSet index => exact readsAs_index index rfl
  | load access arg =>
    have ha : arg.align / 64 % 2 ≠ 1 := by simpa [announcesMemory] using h
    cases access <;> exact readsAs_access rfl ha (by decide)
  | store access arg =>
    have ha : arg.align / 64 % 2 ≠ 1 := by simpa [announcesMemory] using h
    cases access <;> exact readsAs_access rfl ha (by decide)
  | const v => exact readsAs_const v
  | num op => exact readsAs_num op
  | _ => exact fun rest => rfl

/-! ## 3. Bodies

By induction on the operations; each takes its bytes and leaves those of the others. -/

namespace Typing

variable {env : Env} {s t : Validation.State}

theorem run_cons (env : Env) (s : Validation.State) (b : UInt8) (bytes : Bytes) :
    run env s (b :: bytes) = (readRule.read (b :: bytes)).bind fun x =>
      (step env s x.1).bind fun s => run env s x.2 := by
  rw [run]
  have e : readRule.read (b :: bytes) = (instruction b).read bytes := rfl
  rw [e]
  split
  · rename_i hr
    rw [hr]
    rfl
  · rename_i rule rest hr
    simp only [hr, Option.bind_some]
    cases step env s rule <;> rfl

/-- Checking the bytes of an operation, and then what follows. -/
theorem run_encode {o : Op} (h : o.announcesMemory = false) (rest : Bytes) :
    run env s (o.encode ++ rest)
      = if o.Fits then (checkOp env s o).bind fun s => run env s rest else none := by
  obtain ⟨b, bytes, e⟩ := List.exists_cons_of_ne_nil o.encode_ne_nil
  have hread := o.readsAs_encode h rest
  rw [e, List.cons_append] at hread ⊢
  rw [run_cons, hread]
  split
  · rw [checkOp, Option.bind_assoc, Option.bind_map]
    rfl
  · rfl

/-- **The bytes of some operations are checked as the operations are.** Reading ends where an
operation ends, so that no operation is read out of the bytes of another. -/
theorem run_eq_some_iff : ∀ {ops : List Op} {s t : Validation.State},
    (∀ o ∈ ops, o.announcesMemory = false) →
      (run env s (ops.flatMap Op.encode) = some t ↔
        checkAll env s ops = some t ∧ ∀ o ∈ ops, o.Fits)
  | [], s, t, _ => by simp [run]
  | o :: ops, s, t, h => by
    rw [List.flatMap_cons, run_encode (h o List.mem_cons_self), checkAll_cons]
    have ih := fun s => @run_eq_some_iff ops s t fun o ho => h o (List.mem_cons_of_mem _ ho)
    simp only [List.forall_mem_cons]
    split
    · rename_i hf
      simp only [Option.bind_eq_some_iff, ih]
      constructor
      · rintro ⟨u, hu, ht, hfits⟩
        exact ⟨⟨u, hu, ht⟩, hf, hfits⟩
      · rintro ⟨⟨u, hu, ht⟩, -, hfits⟩
        exact ⟨u, hu, ht, hfits⟩
    · rename_i hf
      simp only [reduceCtorEq, false_iff]
      exact fun hc => hf hc.2.1

end Typing

theorem Function.code_eq (f : Function) :
    f.code = (f.body.ops ++ [Op.close]).flatMap Op.encode := by
  simp [Function.code, Body.ops, List.flatMap_append, List.flatMap_map]

/-- **A function is valid exactly if it is well typed** and its numbers have at most 32 bits. -/
theorem Function.isValid_iff {s : Surroundings} {f : Function}
    (h : ∀ o ∈ f.body.ops, o.announcesMemory = false) :
    f.isValid s ↔ f.Typed s ∧ ∀ o ∈ f.body.ops, o.Fits := by
  have hall : ∀ o ∈ f.body.ops ++ [Op.close], o.announcesMemory = false :=
    List.forall_mem_append.mpr ⟨h, List.forall_mem_singleton.mpr rfl⟩
  rw [isValid, isValidBody, decide_eq_true_eq, code_eq, Typing.run_eq_some_iff hall,
    List.forall_mem_append]
  refine and_congr_right fun _ => and_iff_left (List.forall_mem_singleton.mpr ?_)
  exact fun n hn => by cases hn

/-! ## 4. Typed bodies within the limits

What a typed operation refers to is there: a local, a global, a function, a tag, a region.  There
are fewer than `2 ^ 32` of each, since a program within the limits has few locals and functions, and
a body has no more regions than bytes. -/

namespace Typing

variable {env : Env} {s t : Validation.State} {o : Op}

/-- An alignment that is allowed is far below 64, so a checked operation is not one whose bytes
announce the index of a memory. -/
theorem announcesMemory_of_checkOp (h : checkOp env s o = some t) : o.announcesMemory = false := by
  obtain ⟨rule, hrule, -⟩ := Option.bind_eq_some_iff.mp h
  have hsmall : ∀ (a : Access) (n : Nat), n ≤ a.alignment → decide (n / 64 % 2 = 1) = false := by
    intro a n hn
    have : a.alignment ≤ 3 := by cases a <;> decide
    exact decide_eq_false (by omega)
  cases o with
  | load a arg | store a arg =>
    simp only [Op.rule?] at hrule
    split at hrule
    · rename_i hc
      exact hsmall a arg.align hc.1
    · cases hrule
  | _ => rfl

/-- There are fewer than `2 ^ 32` of everything that a body may refer to. -/
structure Countable (env : Env) : Prop where
  signatures : env.signatures.length ≤ 2 ^ 32
  locals : env.locals.length ≤ 2 ^ 32
  globals : env.globals.length ≤ 2 ^ 32
  tags : env.tags.length ≤ 2 ^ 32

theorem lt_of_getElem? {α : Type} {l : List α} {i : Nat} {a : α} {bound : Nat}
    (h : l[i]? = some a) (hl : l.length ≤ bound) : i < bound :=
  Nat.lt_of_lt_of_le (List.getElem?_eq_some_iff.mp h).1 hl

/-- **What an operation refers to exists**, so that its numbers are small. A table of labels is the
one immediate of any length, and its length is bounded by that of its bytes. -/
theorem fits_of_checkOp (hc : Countable env) (h : checkOp env s o = some t)
    (hs : s.length ≤ 2 ^ 32) (hsize : o.encode.length ≤ 2 ^ 32) : o.Fits := by
  rcases s with _ | ⟨f, outer⟩
  · rw [checkOp_nil] at h
    cases h
  have hone : ∀ {n : Nat}, n < 2 ^ 32 → ∀ k ∈ [n], k < 2 ^ 32 := by
    intro n hn k hk
    rwa [List.mem_singleton.mp hk]
  cases step_of_checkOp h with
  | arrow ha hp =>
    cases o with
    | call target =>
      obtain ⟨x, hx, -⟩ := Option.map_eq_some_iff.mp ha
      exact hone (lt_of_getElem? hx hc.signatures)
    | localGet index | localSet index | localTee index =>
      obtain ⟨x, hx, -⟩ := Option.map_eq_some_iff.mp ha
      exact hone (lt_of_getElem? hx hc.locals)
    | globalGet index =>
      obtain ⟨x, hx, -⟩ := Option.map_eq_some_iff.mp ha
      exact hone (lt_of_getElem? hx hc.globals)
    | globalSet index =>
      obtain ⟨x, hx, -⟩ := Option.bind_eq_some_iff.mp ha
      exact hone (lt_of_getElem? hx hc.globals)
    | nop | load | store | memorySize | memoryGrow | const | num => exact fun n hn => by cases hn
    | _ => cases ha
  | stop ha hp =>
    cases o with
    | br label =>
      obtain ⟨x, hx, -⟩ := Option.map_eq_some_iff.mp ha
      exact hone (lt_of_getElem? hx hs)
    | returnCall target =>
      obtain ⟨x, hx, -⟩ := Option.bind_eq_some_iff.mp ha
      exact hone (lt_of_getElem? hx hc.signatures)
    | throwTag tag =>
      obtain ⟨x, hx, -⟩ := Option.map_eq_some_iff.mp ha
      exact hone (lt_of_getElem? hx hc.tags)
    | rethrow label =>
      obtain ⟨x, hx, -⟩ := Option.bind_eq_some_iff.mp ha
      exact hone (lt_of_getElem? hx hs)
    | unreachable | ret => exact fun n hn => by cases hn
    | _ => cases ha
  | brIf ht _ _ => exact hone (lt_of_getElem? ht hs)
  | @brTable targets fallback last f' f'' _ hl ht _ =>
    have hframes : (f' :: outer).length ≤ 2 ^ 32 := hs
    intro n hn
    rcases List.mem_cons.mp hn with rfl | hn
    · -- every label has at least one byte
      have hbytes : targets.length ≤ (targets.flatMap Leb128.unsigned).length :=
        Reader.length_le_flatMap fun n _ => List.length_pos_iff.mp (Leb128.length_unsigned_pos n)
      have hcount := Leb128.length_unsigned_pos targets.length
      simp only [Op.encode, encodeVector, List.length_append, List.length_cons] at hsize
      omega
    · rcases List.mem_cons.mp hn with rfl | hn
      · exact lt_of_getElem? hl hframes
      · obtain ⟨target, htarget, -⟩ := ht n hn
        exact lt_of_getElem? htarget hframes
  | catchTag ht _ _ => exact hone (lt_of_getElem? ht hc.tags)
  | delegate _ _ hl =>
    refine hone (Nat.lt_of_lt_of_le hl ?_)
    rw [List.length_cons] at hs
    omega
  | drop | select | enter | elseArm | catchAll | close => exact fun n hn => by cases hn

/-- An operation opens at most one region, so the depth of nesting is bounded by the number of
operations. -/
theorem length_of_checkOp (h : checkOp env s o = some t) : t.length ≤ s.length + 1 := by
  rcases s with _ | ⟨f, outer⟩
  · rw [checkOp_nil] at h
    cases h
  have hleave : (leave f outer).length ≤ outer.length := by cases outer <;> exact Nat.le_refl _
  cases step_of_checkOp h <;> simp only [List.length_cons] <;> omega

theorem fits_of_checkAll (hc : Countable env) : ∀ {ops : List Op} {s t : Validation.State},
    checkAll env s ops = some t → s.length + (ops.flatMap Op.encode).length ≤ 2 ^ 32 →
      ∀ o ∈ ops, o.Fits
  | [], _, _, _, _ => fun o ho => by cases ho
  | o :: ops, s, t, h, hsize => by
    obtain ⟨u, hu, h⟩ := checkAll_cons_iff.mp h
    rw [List.flatMap_cons, List.length_append] at hsize
    have hpos := List.length_pos_iff.mpr o.encode_ne_nil
    have hlength := length_of_checkOp hu
    refine List.forall_mem_cons.mpr ⟨fits_of_checkOp hc hu (by omega) (by omega), ?_⟩
    exact fits_of_checkAll hc h (by omega)

theorem announcesMemory_of_checkAll : ∀ {ops : List Op} {s t : Validation.State},
    checkAll env s ops = some t → ∀ o ∈ ops, o.announcesMemory = false
  | [], _, _, _ => fun o ho => by cases ho
  | o :: ops, s, t, h => by
    obtain ⟨u, hu, h⟩ := checkAll_cons_iff.mp h
    exact List.forall_mem_cons.mpr ⟨announcesMemory_of_checkOp hu, announcesMemory_of_checkAll h⟩

end Typing

/-- Within the limits there are few enough of everything for each index to be written in 32 bits. -/
theorem Program.countable_env {p : Program} (hp : p.withinLimits) {f : Function}
    (hf : f ∈ p.functions) : Typing.Countable (f.env p.surroundings) := by
  simp only [withinLimits, Bool.and_eq_true, List.all_eq_true, decide_eq_true_eq] at hp
  obtain ⟨⟨⟨⟨⟨⟨⟨-, -⟩, hlocals⟩, -⟩, hcallables⟩, hglobals⟩, htags⟩, -⟩ := hp
  have hf := hlocals f hf
  simp only [Function.withinLimits, decide_eq_true_eq] at hf
  simp only [Limit.locals, Limit.entries] at hf hcallables hglobals htags
  refine ⟨?_, ?_, ?_, ?_⟩ <;>
    simp only [Function.env, surroundings, List.length_append, List.length_map] <;> omega

/-- **A well typed function is valid**, if the program keeps the limits and the body has fewer than
`2 ^ 32` bytes. -/
theorem Function.Typed.isValid {p : Program} {f : Function} (h : f.Typed p.surroundings)
    (hf : f ∈ p.functions) (hp : p.withinLimits) (hsize : f.code.length < 2 ^ 32) :
    f.isValid p.surroundings := by
  have hc := p.countable_env hp hf
  have hall := List.forall_mem_append.mp (Typing.announcesMemory_of_checkAll h)
  have hfits : ∀ o ∈ f.body.ops ++ [.close], o.Fits := by
    refine Typing.fits_of_checkAll hc h ?_
    rw [← f.code_eq, Nat.add_comm]
    exact hsize
  exact (isValid_iff hall.1).mpr ⟨h, (List.forall_mem_append.mp hfits).1⟩

end WasmTrim
