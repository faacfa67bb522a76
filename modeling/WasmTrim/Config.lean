/-
# Optimizer settings

The optimizer has four levels (`OptLevel`), each adding to the one before: nothing, the peephole
rules, inlining with the removal of dead locals, and constant folding.  Levels are given as
numbers, and a number past the last level means the last level.

Settings (`OptimizerConfig`) are read from flags (`from_args`).  A flag that is not known belongs
to somebody else and is skipped; a flag that starts like a level and is not followed by a number
is an error.

The number of a level is read as a number of eight bits.  This is why a level of 256 is refused
as no number at all, where one of 255 is the last level: the clamp is applied to what was read,
and nothing is read from a number that does not fit.  A plus sign before the number is part of
how such numbers are written, and so are leading zeros.

Every later flag overrides an earlier one, and no flag is ever taken back: only the level can be
lowered again.
-/

namespace WasmTrim

/-! ## 1. Levels

Levels are compared by their numbers.  A pass asks whether a level includes the one that brought
it in. -/

/-- How much is optimized (`OptLevel`, with its four constants): nothing, rewriting alone, inlining
and the removal of locals too, and folding on top of these. -/
inductive Level where
  | off
  | basic
  | inline
  | fold
deriving DecidableEq

namespace Level

/-- The number of a level, as it stands in a flag (`get`). A higher level does all that a lower one
does. -/
def rank : Level → Nat
  | off => 0
  | basic => 1
  | inline => 2
  | fold => 3

/-- The level of a number; numbers past the last level mean the last level (`new`). -/
def clamp : Nat → Level
  | 0 => off
  | 1 => basic
  | 2 => inline
  | _ => fold

/-- Every level, in order. -/
def all : List Level := [off, basic, inline, fold]

/-- Whether a level includes another, so that the passes of the other are run too. -/
def atLeast (l m : Level) : Bool := m.rank ≤ l.rank

/-- Numbers are clamped to the last level, as `OptLevel::new` says: every number has a level, and
all from three on have the same. -/
theorem rank_clamp : ∀ n : Nat, (clamp n).rank = min n 3
  | 0 | 1 | 2 => rfl
  | n + 3 => by simp only [clamp, rank]; omega

end Level

/-! ## 2. Settings

The default is the first level that does anything, with everything else off. -/

/-- The settings of one run (`OptimizerConfig`). By default a program is optimized at the first
level, with no switch set. -/
structure Config where
  level : Level := .basic
  /-- Skip inlining. -/
  disableInlining : Bool := false
  /-- Stop after inlining. -/
  inlineOnly : Bool := false
  /-- Turn a call followed by a return into a tail call. -/
  tailCalls : Bool := false
  /-- Report every step, not only warnings. -/
  verbose : Bool := false
deriving DecidableEq

/-- The same settings at another level (`with_level`). -/
def Config.withLevel (c : Config) (n : Nat) : Config := { c with level := .clamp n }

/-! ## 3. Flags

One flag at a time, from left to right.  The first one that cannot be read ends the reading. -/

/-- A flag that could not be read, quoted whole in the error (`InvalidOption`). -/
structure FlagError where
  flag : String
deriving DecidableEq

/-- The text of the error, with the whole flag in it and not just the part that could not be read.
-/
def FlagError.message (e : FlagError) : String :=
  "Invalid option: invalid optimization level: " ++ e.flag

/-- The number written by a nonempty list of decimal digits. -/
def decimal? (digits : List Char) : Option Nat :=
  if digits ≠ [] ∧ digits.all Char.isDigit then
    some (digits.foldl (fun n c => 10 * n + (c.toNat - '0'.toNat)) 0)
  else none

/-- A level as written in a flag: a plus sign is allowed, leading zeros too, and the number
must be below 256. -/
def levelNumber? (text : List Char) : Option Nat :=
  let digits := match text with
    | '+' :: rest => rest
    | text => text
  (decimal? digits).filter (· < 256)

/-- What one flag does to the settings, one turn of the loop in `from_args`. A flag that begins like
a level has to be one; any other flag that is not known is for somebody else and changes nothing. -/
def Config.readFlag (c : Config) (flag : String) : Except FlagError Config :=
  if flag = "-opt-no-inline" then .ok { c with disableInlining := true }
  else if flag = "-opt-inline-only" then .ok { c with inlineOnly := true }
  else if flag = "-tail-call" then .ok { c with tailCalls := true }
  else if flag = "-opt-log" then .ok { c with verbose := true }
  else
    match flag.toList with
    | '-' :: 'O' :: text =>
      match levelNumber? text with
      | some n => .ok (c.withLevel n)
      | none => .error ⟨flag⟩
    | _ => .ok c

/-- The settings given by a list of flags, read from left to right (`from_args`). -/
def Config.ofFlags (flags : List String) : Except FlagError Config :=
  flags.foldlM Config.readFlag {}

end WasmTrim
