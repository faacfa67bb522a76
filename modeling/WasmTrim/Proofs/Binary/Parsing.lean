/-
# Reading back what was written

A reader *parses* some bytes to a value when it takes exactly these bytes off the front of any
input that starts with them and gives the value (`Reader.Parses`).  Parsing is compositional: what
follows a reader goes on with the bytes that follow.  So the reader of a binary is shown right piece
by piece, in the order in which the pieces were written.

`Reader.Parses` speaks of every input that starts with the bytes in question.  That is stronger than
being right on these bytes alone: it says that the reader does not look at what follows, and without
it nothing could be put together from two readers.

The readers that take a binary apart set no limits: a number may have any width, and a list any
length.  A validator does set some, and its readers of numbers give up behind as many groups as a
width calls for; the fourth section shows that a number of that width never needs more.
-/
import Mathlib.Algebra.Group.Int.Defs
import Mathlib.Algebra.Group.Nat.Defs
import WasmTrim.Binary.Opcode

namespace WasmTrim

namespace Reader

/-! ## 1. Parsing

The lemmas follow the ways in which readers are combined: a value without reading, one reader after
another, a function applied to what was read. -/

/-- **The reader takes these bytes and nothing else**, and gives the value. Whatever stands behind
them is left as it is, so that another reader can go on there. -/
def Parses {α : Type} (r : Reader α) (bytes : Bytes) (a : α) : Prop :=
  ∀ rest, r.read (bytes ++ rest) = some (a, rest)

section

variable {α β : Type} {r : Reader α} {bytes bytes' : Bytes} {a : α} {b : β}

theorem parses_pure (a : α) : (pure a : Reader α).Parses [] a := fun _ => rfl

theorem parses_byte (b : UInt8) : byte.Parses [b] b := fun _ => rfl

theorem Parses.bind {next : α → Reader β} (h : r.Parses bytes a)
    (h' : (next a).Parses bytes' b) : (r >>= next).Parses (bytes ++ bytes') b := by
  intro rest
  rw [List.append_assoc, read_bind_of_read (h (bytes' ++ rest))]
  exact h' rest

/-- The last reader of a chain, which only puts together what has been read. -/
theorem Parses.map (h : r.Parses bytes a) (f : α → β) :
    (r >>= fun a => pure (f a)).Parses bytes (f a) := by
  intro rest
  rw [read_bind_of_read (h rest)]
  rfl

/-- What is left when a reader has parsed all of the input. -/
theorem Parses.read (h : r.Parses bytes a) : r.read bytes = some (a, []) := by
  simpa using h []

end

/-- One byte of a given value, and a failure where another stands. -/
def expect (b : UInt8) : Reader Unit := do
  let c ← byte
  check (c = b)

theorem parses_expect (b : UInt8) : (expect b).Parses [b] () := by
  intro rest
  rw [expect, read_bind_of_read (parses_byte b rest)]
  exact read_check (decide_eq_true rfl) rest

/-! ## 2. Lists

A list of items fills its input, and the reader stops when nothing is left.  The number of bytes
bounds the number of items as long as every item takes one. -/

section

variable {α β : Type}

theorem parses_times {r : Reader β} {encode : α → Bytes} {value : α → β} : ∀ {items : List α},
    (∀ x ∈ items, r.Parses (encode x) (value x)) →
      (r.times items.length).Parses (items.flatMap encode) (items.map value)
  | [], _ => parses_pure _
  | x :: items, h => by
    have hrest := parses_times fun y hy => h y (List.mem_cons_of_mem _ hy)
    exact (h x List.mem_cons_self).bind (hrest.map (value x :: ·))

/-- As many items as the input has, with a bound on their number. -/
def upTo (r : Reader α) : Nat → Bytes → Option (List α)
  | _, [] => some []
  | 0, _ :: _ => none
  | n + 1, b :: bytes => do
    let (a, rest) ← r.read (b :: bytes)
    let as ← upTo r n rest
    return a :: as

/-- **The whole input as a list of items.** An item has at least one byte, so there are no more
items than bytes, and the recursion can count them down. -/
def all (r : Reader α) (bytes : Bytes) : Option (List α) := r.upTo bytes.length bytes

theorem upTo_flatMap {r : Reader β} {encode : α → Bytes} {value : α → β} :
    ∀ {items : List α} {n : Nat}, (∀ x ∈ items, encode x ≠ [] ∧ r.Parses (encode x) (value x)) →
      items.length ≤ n → r.upTo n (items.flatMap encode) = some (items.map value)
  | [], n, _, _ => by cases n <;> rfl
  | x :: items, 0, _, hn => by simp at hn
  | x :: items, n + 1, h, hn => by
    obtain ⟨hne, hx⟩ := h x List.mem_cons_self
    have hrest := upTo_flatMap (n := n) (fun y hy => h y (List.mem_cons_of_mem _ hy))
      (by simpa using hn)
    obtain ⟨b, bytes, he⟩ := List.exists_cons_of_ne_nil hne
    have hread := hx (items.flatMap encode)
    rw [List.flatMap_cons]
    rw [he, List.cons_append] at hread ⊢
    simp only [upTo, hread, hrest, bind, Option.bind, pure, List.map_cons]

/-- Items of at least one byte each: there are no more of them than bytes. -/
theorem length_le_flatMap {encode : α → Bytes} : ∀ {items : List α},
    (∀ x ∈ items, encode x ≠ []) → items.length ≤ (items.flatMap encode).length
  | [], _ => Nat.le_refl _
  | x :: items, h => by
    have hx := List.length_pos_iff.mpr (h x List.mem_cons_self)
    have := length_le_flatMap fun y hy => h y (List.mem_cons_of_mem _ hy)
    simp only [List.length_cons, List.flatMap_cons, List.length_append]
    omega

/-- **A list is read back** from the bytes of its items. The items are written without anything
between them; each of them takes its own bytes and leaves those of the next. -/
theorem all_flatMap {r : Reader β} {encode : α → Bytes} {value : α → β} {items : List α}
    (h : ∀ x ∈ items, encode x ≠ [] ∧ r.Parses (encode x) (value x)) :
    r.all (items.flatMap encode) = some (items.map value) :=
  upTo_flatMap h (length_le_flatMap fun x hx => (h x hx).1)

end

/-! ## 3. Pieces of known size

A piece behind its size is cut out first and read afterwards. -/

/-- The given number of bytes as they are, or a failure if there are fewer. -/
def take (n : Nat) : Reader Bytes where
  read bytes := if n ≤ bytes.length then some (bytes.take n, bytes.drop n) else none
  length_le h := by
    split at h
    · obtain ⟨-, rfl⟩ := Prod.mk.inj (Option.some.inj h)
      rw [List.length_drop]
      omega
    · cases h

theorem parses_take (bytes : Bytes) : (take bytes.length).Parses bytes bytes := by
  intro rest
  simp [take]

end Reader

/-! ## 4. Numbers of a given width

Seven bits go into a group.  Reading is by recursion on the number of groups that are allowed, and
so are the proofs; the groups that are written get fewer at the same pace. -/

namespace Leb128

theorem read_unsignedGroups : ∀ {k n : Nat} (rest : Bytes), 0 < k → n < 128 ^ k →
    (unsignedGroups k).read (unsigned n ++ rest) = some (n, rest)
  | k + 1, n, rest, _, h => by
    rw [unsigned]
    split
    · rename_i hn
      have e : n.toUInt8.toNat = n := by simpa using by omega
      have hb : n.toUInt8 < 128 := by
        rw [UInt8.lt_iff_toNat_lt, e]
        exact hn
      rw [unsignedGroups, List.singleton_append, Reader.read_bind_of_read (Reader.read_byte _ _),
        if_pos hb, Reader.read_pure, e]
    · rename_i hn
      have hk : 0 < k := by rcases k with _ | k <;> omega
      have hq : n / 128 < 128 ^ k := by
        rw [Nat.pow_succ] at h
        omega
      have e : (n % 128 + 128).toUInt8.toNat = n % 128 + 128 := by simpa using by omega
      have hb : ¬ (n % 128 + 128).toUInt8 < 128 := by
        rw [UInt8.lt_iff_toNat_lt, e]
        exact Nat.not_lt.mpr (Nat.le_add_left ..)
      rw [unsignedGroups, List.cons_append, Reader.read_bind_of_read (Reader.read_byte _ _),
        if_neg hb, Reader.read_bind_of_read (read_unsignedGroups rest hk hq)]
      simp only [Reader.read_pure, Option.some.injEq, Prod.mk.injEq, and_true, e]
      omega

/-- A signed number of one group is read back. Its sign is bit six, and the whole of the number is
decided by it and the six bits below. -/
theorem read_lastGroup (k : Nat) {z : Int} (rest : Bytes) (hl : -64 ≤ z) (hu : z < 64) :
    (signedGroups (k + 1)).read ([(z % 128).toNat.toUInt8] ++ rest) = some (z, rest) := by
  have e : (z % 128).toNat.toUInt8.toNat = (z % 128).toNat := by simpa using by omega
  rw [signedGroups, List.singleton_append, Reader.read_bind_of_read (Reader.read_byte _ _)]
  by_cases hs : (z % 128).toNat < 64
  · have hb : (z % 128).toNat.toUInt8 < 64 := by
      rw [UInt8.lt_iff_toNat_lt, e]
      exact hs
    rw [if_pos hb]
    simp only [Reader.read_pure, Option.some.injEq, Prod.mk.injEq, and_true, e]
    omega
  · have hn : ¬ (z % 128).toNat.toUInt8 < 64 := by
      rw [UInt8.lt_iff_toNat_lt, e]
      exact hs
    have hb : (z % 128).toNat.toUInt8 < 128 := by
      have h : (z % 128).toNat < 128 := by omega
      rw [UInt8.lt_iff_toNat_lt, e]
      exact h
    rw [if_neg hn, if_pos hb]
    simp only [Reader.read_pure, Option.some.injEq, Prod.mk.injEq, and_true, e]
    omega

theorem read_signedGroups {k : Nat} {z : Int} (rest : Bytes) (hl : -(64 * 128 ^ k) ≤ z)
    (hu : z < 64 * 128 ^ k) :
    (signedGroups (k + 1)).read (signed z ++ rest) = some (z, rest) := by
  induction k generalizing z with
  | zero =>
    simp only [Int.pow_zero] at hl hu
    rw [signed, if_pos (by omega)]
    exact read_lastGroup 0 rest (by omega) (by omega)
  | succ k ih =>
    rw [signed]
    split
    · rename_i hz
      exact read_lastGroup (k + 1) rest hz.1 hz.2
    · rw [Int.pow_succ] at hl hu
      have e : ((z % 128).toNat + 128).toUInt8.toNat = (z % 128).toNat + 128 := by
        simpa using by omega
      have hs : ¬ ((z % 128).toNat + 128).toUInt8 < 64 := by
        rw [UInt8.lt_iff_toNat_lt, e]
        exact Nat.not_lt.mpr (Nat.le_trans (by decide) (Nat.le_add_left 128 _))
      have hb : ¬ ((z % 128).toNat + 128).toUInt8 < 128 := by
        rw [UInt8.lt_iff_toNat_lt, e]
        exact Nat.not_lt.mpr (Nat.le_add_left ..)
      have hq := ih (z := z / 128) (by omega) (by omega)
      rw [signedGroups, List.cons_append, Reader.read_bind_of_read (Reader.read_byte _ _),
        if_neg hs, if_neg hb, Reader.read_bind_of_read hq]
      simp only [Reader.read_pure, Option.some.injEq, Prod.mk.injEq, and_true, e]
      omega

/-- The groups that a width calls for hold all its bits. -/
theorem two_pow_le (width : Nat) : 2 ^ width ≤ 128 ^ ((width + 6) / 7) := by
  have e : (128 : Nat) = 2 ^ 7 := rfl
  rw [e, ← Nat.pow_mul]
  exact Nat.pow_le_pow_right (by decide) (by omega)

/-- A number of the given width is read back, because it is written in no more groups than the width
allows. -/
theorem read_readUnsigned {width n : Nat} (rest : Bytes) (hw : 0 < width) (h : n < 2 ^ width) :
    (readUnsigned width).read (unsigned n ++ rest) = some (n, rest) := by
  have hg := read_unsignedGroups rest (by omega) (Nat.lt_of_lt_of_le h (two_pow_le width))
  rw [readUnsigned, Reader.read_bind_of_read hg, Nat.one_shiftLeft,
    Reader.read_bind_of_read (Reader.read_check (decide_eq_true h) rest), Reader.read_pure]

/-- An integer of the given width is read back. The bound on groups is the same as for natural
numbers, with the sign taking one bit of the width. -/
theorem read_readSigned {width : Nat} {z : Int} (rest : Bytes) (hw : 0 < width)
    (hl : -2 ^ (width - 1) ≤ z) (hu : z < 2 ^ (width - 1)) :
    (readSigned width).read (signed z ++ rest) = some (z, rest) := by
  obtain ⟨k, hk⟩ : ∃ k, (width + 6) / 7 = k + 1 := ⟨(width + 6) / 7 - 1, by omega⟩
  have hp : (2 : Int) ^ (width - 1) ≤ 64 * 128 ^ k := by
    have h : 2 ^ (width - 1) ≤ 2 ^ (6 + 7 * k) := Nat.pow_le_pow_right (by decide) (by omega)
    rw [Nat.pow_add, Nat.pow_mul] at h
    exact_mod_cast h
  have hg := read_signedGroups rest (k := k) (z := z) (by omega) (by omega)
  have hbound : ((1 <<< (width - 1) : Nat) : Int) = 2 ^ (width - 1) := by
    rw [Nat.one_shiftLeft]
    exact_mod_cast rfl
  have hcheck : (decide (-2 ^ (width - 1) ≤ z) && decide (z < 2 ^ (width - 1))) = true := by
    rw [decide_eq_true hl, decide_eq_true hu, Bool.and_true]
  rw [readSigned, hk, Reader.read_bind_of_read hg]
  simp only [hbound]
  rw [Reader.read_bind_of_read (Reader.read_check hcheck rest), Reader.read_pure]

/-! ## 5. Numbers of any width

As many groups are allowed as there are bytes.  For integers the last group also holds the sign, and
the number of groups is such that it fits. -/

theorem lt_pow_length_unsigned (n : Nat) : n < 128 ^ (unsigned n).length := by
  fun_induction unsigned n with
  | case1 n h => simpa using h
  | case2 n h ih =>
    rw [List.length_cons, Nat.pow_succ]
    omega

theorem length_unsigned_pos (n : Nat) : 0 < (unsigned n).length := by
  unfold unsigned
  split <;> simp

/-- Two's complement with one group less than written leaves room for the sign. -/
theorem bounds_signed (z : Int) : ∃ k, (signed z).length = k + 1 ∧ -(64 * 128 ^ k) ≤ z ∧
    z < 64 * 128 ^ k := by
  fun_induction signed z with
  | case1 z h => exact ⟨0, rfl, by simpa using h.1, by simpa using h.2⟩
  | case2 z h ih =>
    obtain ⟨k, hk, hl, hu⟩ := ih
    refine ⟨k + 1, by rw [List.length_cons, hk], ?_, ?_⟩ <;> rw [Int.pow_succ] <;> omega

/-- A natural number of any width: it may use all bytes that there are. -/
def natural : Reader Nat where
  read bytes := (unsignedGroups bytes.length).read bytes
  length_le h := (unsignedGroups _).length_le h

/-- An integer of any width: it has no more groups than there are bytes, so the number of bytes is a
bound that is always enough. -/
def integer : Reader Int where
  read bytes := (signedGroups bytes.length).read bytes
  length_le h := (signedGroups _).length_le h

/-- **A natural number is read back**, of any width, from the groups of seven bits that it is
written as. -/
theorem parses_natural (n : Nat) : natural.Parses (unsigned n) n := by
  intro rest
  have hlt := lt_pow_length_unsigned n
  have hpos := length_unsigned_pos n
  refine read_unsignedGroups rest (by rw [List.length_append]; omega) ?_
  exact Nat.lt_of_lt_of_le hlt
    (Nat.pow_le_pow_right (by decide) (by rw [List.length_append]; omega))

/-- **An integer is read back**, of any width. It is written in two's complement with as few groups
as leave room for its sign. -/
theorem parses_integer (z : Int) : integer.Parses (signed z) z := by
  intro rest
  obtain ⟨k, hk, hl, hu⟩ := bounds_signed z
  have hlength : (signed z ++ rest).length = k + rest.length + 1 := by
    rw [List.length_append, hk]
    omega
  have hpow : (128 : Int) ^ k ≤ 128 ^ (k + rest.length) := by
    have h : 128 ^ k ≤ 128 ^ (k + rest.length) := Nat.pow_le_pow_right (by decide) (by omega)
    exact_mod_cast h
  simp only [integer, hlength]
  exact read_signedGroups rest (by omega) (by omega)

end Leb128

/-! ## 6. Vectors and sized pieces

A count in front of items and a count in front of bytes look alike and are not: the first says how
often to read, the second how much to cut out. -/

namespace Reader

open Leb128

variable {α β : Type}

/-- A list behind its length, with one reader for all of the items. -/
def vector (r : Reader α) : Reader (List α) := natural >>= r.times

/-- **A list is read back** from its length and the bytes of its items. -/
theorem parses_vector {r : Reader β} {encode : α → Bytes} {value : α → β} {items : List α}
    (h : ∀ x ∈ items, r.Parses (encode x) (value x)) :
    r.vector.Parses (encodeVector encode items) (items.map value) :=
  (parses_natural _).bind (parses_times h)

/-- Some bytes behind their number. Whatever reads these bytes afterwards sees nothing but them. -/
def sized : Reader Bytes := natural >>= take

theorem parses_sized (bytes : Bytes) : sized.Parses (unsigned bytes.length ++ bytes) bytes :=
  (parses_natural _).bind (parses_take bytes)

/-- Reads all of the input, and gives nothing if a byte is left. -/
def whole (r : Reader α) (bytes : Bytes) : Option α :=
  match r.read bytes with
  | some (a, []) => some a
  | _ => none

theorem Parses.whole {r : Reader α} {bytes : Bytes} {a : α} (h : r.Parses bytes a) :
    r.whole bytes = some a := by
  rw [Reader.whole, h.read]

/-- Gives up unless there is a value, and takes nothing from the input either way. -/
def ofOption : Option α → Reader α
  | some a => pure a
  | none => fail

end Reader

end WasmTrim
