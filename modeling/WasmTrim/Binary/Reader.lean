/-
# Readers

A reader takes a value from the front of a list of bytes and leaves the rest, or fails.  What
it leaves is never longer than what it was given, and the type says so; a loop that reads at
least one byte per round therefore ends.

Readers serve two purposes.  The validator reads the body of a function as bytes, and what it
accepts is defined by the readers for operations and immediates in `WasmTrim.Validation`.  And the
statement that a binary can be read back needs something to read it with (`Proofs/Binary`).  The
two differ in strictness, not in kind, so they share what is here.

Readers compose like programs: `do` reads one thing after the other, and a failure anywhere is a
failure of the whole.
-/

namespace WasmTrim

/-- The bytes of a binary. -/
abbrev Bytes := List UInt8

/-- A way to read a value off the front of some bytes. -/
structure Reader (α : Type) where
  read : Bytes → Option (α × Bytes)
  length_le : ∀ {bytes rest : Bytes} {a : α},
    read bytes = some (a, rest) → rest.length ≤ bytes.length

namespace Reader

/-! ## 1. Sequencing

The bound on the rest is carried along, so that it never has to be proved of a composed reader. -/

/-- Reads nothing and gives the value. -/
protected def pure {α : Type} (a : α) : Reader α where
  read bytes := some (a, bytes)
  length_le h := by
    obtain ⟨-, rfl⟩ := by simpa using h
    exact Nat.le_refl _

/-- Reads with the first reader, then with the one its value selects. -/
protected def bind {α β : Type} (r : Reader α) (next : α → Reader β) : Reader β where
  read bytes :=
    match r.read bytes with
    | some (a, rest) => (next a).read rest
    | none => none
  length_le h := by
    split at h
    · rename_i hr
      exact Nat.le_trans ((next _).length_le h) (r.length_le hr)
    · simp at h

instance : Monad Reader where
  pure := Reader.pure
  bind := Reader.bind

@[simp] theorem read_pure {α : Type} (a : α) (bytes : Bytes) :
    (pure a : Reader α).read bytes = some (a, bytes) := rfl

/-- What follows a successful reader goes on with the rest. -/
theorem read_bind_of_read {α β : Type} {r : Reader α} {next : α → Reader β} {bytes rest : Bytes}
    {a : α} (h : r.read bytes = some (a, rest)) :
    (r >>= next).read bytes = (next a).read rest := by
  simp only [bind, Reader.bind, h]

/-! ## 2. Elementary readers

What all readers are made of.  A reader may look at a byte without taking it, since the validator
decides by the first byte what it is to read. -/

/-- Reads nothing and fails. -/
def fail {α : Type} : Reader α where
  read _ := none
  length_le h := by simp at h

/-- Fails unless the condition holds, and reads nothing either way. -/
def check (condition : Bool) : Reader Unit := if condition then pure () else fail

theorem read_check {condition : Bool} (h : condition = true) (bytes : Bytes) :
    (check condition).read bytes = some ((), bytes) := by
  rw [check, if_pos h, read_pure]

/-- One byte. -/
def byte : Reader UInt8 where
  read
    | [] => none
    | b :: rest => some (b, rest)
  length_le {bytes rest b} h := by
    cases bytes with
    | nil => simp at h
    | cons c bytes =>
      obtain ⟨-, rfl⟩ := by simpa using h
      exact Nat.le_succ _

/-- The next byte, which stays where it is. What is read afterwards begins with it, so that one
reader can choose another by it. -/
def peek : Reader UInt8 where
  read
    | [] => none
    | b :: rest => some (b, b :: rest)
  length_le {bytes rest b} h := by
    cases bytes with
    | nil => simp at h
    | cons c bytes =>
      obtain ⟨-, rfl⟩ := by simpa using h
      exact Nat.le_refl _

@[simp] theorem read_byte (b : UInt8) (rest : Bytes) :
    byte.read (b :: rest) = some (b, rest) := rfl

/-- The same reader a number of times, with what it gives in order. It fails as soon as one reading
does. -/
def times {α : Type} (r : Reader α) : Nat → Reader (List α)
  | 0 => pure []
  | n + 1 => do
    let a ← r
    let as ← times r n
    return a :: as

end Reader

end WasmTrim
