/-
# Constant folding

Two constants followed by a sum, difference or product of their type become one constant
(`fold`).  A single pass suffices: the part of the body that has been seen is kept as a stack,
last instruction first, so the result of a fold is at once an operand for the next one.

The pass that runs works on a list with a position: after a fold it steps back by one, so that
the new constant is the last but one of the next window, and never before the third instruction.
A stack of what has been seen is the same thing without the arithmetic on positions.  That the
two agree, position by position and message by message, is `Proofs/Positional/Passes`.

What is folded is decided by `NumOp.evaluate?` alone.  It depends on the operations and not on the
markers, and the constant that is put in carries none.
-/
import WasmTrim.Constant
import WasmTrim.Event
import WasmTrim.Program.Function

namespace WasmTrim.Folding

/-! ## 1. One fold

A window of three instructions: the operation, and under it its right and its left operand. -/

/-- An operation on two constants and its value, as the log reports it. -/
structure Fold where
  lhs : Value
  rhs : Value
  op : NumOp
  value : Value
deriving DecidableEq

/-- The fold that an operation gives with the two instructions before it, last one first, and
what is left below them. -/
def fold? (i : Instr) : Body → Option (Fold × Body)
  | ⟨.const rhs, _⟩ :: ⟨.const lhs, _⟩ :: below =>
    match i.op with
    | .num op => (op.evaluate? lhs rhs).map fun value => (⟨lhs, rhs, op, value⟩, below)
    | _ => none
  | _ => none

/-! ## 2. The pass

The flag tells whether a fold was made, and there is one report for each. -/

/-- What folding gives: the new body, and the folds that were made. -/
structure Outcome where
  body : Body
  folds : List Fold

/-- Folds the rest of a body, whose first part is given last instruction first. -/
def foldFrom (seen : Body) : Body → Outcome
  | [] => ⟨seen.reverse, []⟩
  | i :: rest =>
    match fold? i seen with
    | some (f, below) =>
      let out := foldFrom ((Op.const f.value).plain :: below) rest
      { out with folds := f :: out.folds }
    | none => foldFrom (i :: seen) rest

/-- Folds a whole body, from its first instruction on. -/
def foldBody (body : Body) : Outcome := foldFrom [] body

/-- Folds the constants of a function (`fold`). Only the body is touched; the answer says whether
there was anything to fold, and each fold is reported. -/
def foldConstants (f : Function) : Function × Bool × Trace :=
  let out := foldBody f.body
  ({ f with body := out.body }, !out.folds.isEmpty,
    out.folds.map fun x => .folded f.name x.lhs x.rhs x.op x.value)

end WasmTrim.Folding
