/-
# Cursors

A scan over a body stands between two instructions.  The cursor holds what lies before it,
last instruction first, and what lies after it, so that a rule can look at the last few
instructions by matching on the head of a list.  A position in a body and a cursor are the same
thing: the position is the number of instructions before the cursor, less one for the focus.

The weight of a body counts each instruction twice and each `local.set` once more.  It is the
measure under which every peephole rule makes progress: a rule either shortens the body or
replaces a `local.set` by something of the same length.  Only one rule does the latter, the one
that drops a type nobody reads, and it puts in a `drop`; the rule that makes a `local.set` out of
a `local.tee` takes away the `drop` behind it and is lighter for that.

Weight is kept as twice the length plus a count, and not as a sum over the instructions, because
the bound on the work of a run is stated in these two numbers (`Proofs/Termination`).
-/
import WasmTrim.Instr.Basic

namespace WasmTrim

/-! ## 1. Weight

The lemmas say how the weight of a list of instructions is put together, so that a rule is
measured by what it takes out and what it puts in. -/

namespace Op

/-- Whether the operation is a `local.set`. -/
def isLocalSet : Op → Bool
  | .localSet _ => true
  | _ => false

/-- What an instruction with this operation contributes to the weight of a body. -/
def weight (op : Op) : Nat := if op.isLocalSet then 3 else 2

@[simp] theorem weight_enter (kind : RegionKind) (result : ResultType) :
    (Op.enter kind result).weight = 2 := rfl

@[simp] theorem weight_drop : Op.drop.weight = 2 := rfl

@[simp] theorem weight_localGet (index : Nat) : (Op.localGet index).weight = 2 := rfl

@[simp] theorem weight_localSet (index : Nat) : (Op.localSet index).weight = 3 := rfl

@[simp] theorem weight_localTee (index : Nat) : (Op.localTee index).weight = 2 := rfl

/-- Every operation weighs at least two, so that a rule which leaves one out makes progress even if
it turns a `local.tee` into a `local.set`. -/
theorem two_le_weight (op : Op) : 2 ≤ op.weight := by unfold weight; split <;> omega

end Op

namespace Body

/-- Twice the length plus the number of `local.set`s. No rule makes a body longer, and one that
keeps the length turns a `local.set` into something lighter; so this is what every rule lowers. -/
def weight (body : Body) : Nat := 2 * body.length + body.countP fun i => i.op.isLocalSet

@[simp] theorem weight_nil : weight [] = 0 := rfl

@[simp] theorem weight_cons (i : Instr) (body : Body) :
    weight (i :: body) = i.op.weight + body.weight := by
  simp only [weight, Op.weight, List.length_cons, List.countP_cons]
  split <;> omega

@[simp] theorem weight_append (a b : Body) : weight (a ++ b) = a.weight + b.weight := by
  simp only [weight, List.length_append, List.countP_append]
  omega

@[simp] theorem weight_reverse (a : Body) : weight a.reverse = a.weight := by
  simp [weight]

/-- Cutting a body in two divides its weight, wherever the cut is made. -/
theorem weight_take_add_drop (k : Nat) (body : Body) :
    weight (body.take k) + weight (body.drop k) = body.weight := by
  rw [← weight_append, List.take_append_drop]

end Body

/-! ## 2. Cursors

Reads and weight do not depend on where the cursor stands. -/

namespace Peephole

/-- A place in a body: what lies before it, last instruction first, and what lies after. -/
structure Cursor where
  seen : Body
  rest : Body
deriving DecidableEq

namespace Cursor

/-- The place before the first instruction, where every scan begins. -/
def start (body : Body) : Cursor := ⟨[], body⟩

/-- The body that the cursor stands in, which the instructions passed are part of, last one first.
-/
def body (c : Cursor) : Body := c.seen.reverse ++ c.rest

/-- The weight of that body. -/
def weight (c : Cursor) : Nat := c.seen.weight + c.rest.weight

@[simp] theorem body_start (body : Body) : (start body).body = body := rfl

theorem weight_body (c : Cursor) : c.body.weight = c.weight := by simp [body, weight]

/-- How often a local is read in the body, before the cursor and behind it (`count_gets`). -/
def reads (c : Cursor) (index : Nat) : Nat := c.seen.reads index + c.rest.reads index

theorem reads_body (c : Cursor) (index : Nat) : c.body.reads index = c.reads index := by
  simp [body, reads, Body.reads]

end Cursor

end Peephole

end WasmTrim
