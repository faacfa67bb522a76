/-
# Removing dead locals

A local that is not a parameter and is never read need not be written: a `local.set` becomes
a `drop`, and a `local.tee` vanishes, since its operand stays on the stack anyway.  A local
that is then not used at all is removed from the table, and the indices above it move down
(`eliminate`).

The uses are counted twice (`tally`): once before the stores are dropped, to find the locals that
are written and never read, and once after, to find those that are not mentioned any more.  The
second count can only find more, since the first step takes away stores and nothing else.  After
both steps every local that is left and is not a parameter is read somewhere, so a second run
has nothing to do.

Parameters are left alone throughout: they are what a caller passes.  A local that the body uses
and the table does not have is treated by its index alone: its stores are dropped if it is never
read, and it is never removed.

A store that is put in for another carries no marker, even when the one it replaces did.
-/
import WasmTrim.Event
import WasmTrim.Program.Function

namespace WasmTrim.DeadLocals

/-! ## 1. Dead stores

Reads are counted in the body as it is when the pass begins, so that one store being dropped does
not make another one dead. -/

/-- Whether a local is not a parameter and never read (`write_only`). -/
def isUnread (f : Function) (index : Nat) : Bool :=
  f.paramCount ≤ index && f.body.reads index = 0

theorem isUnread_iff {f : Function} {index : Nat} :
    isUnread f index ↔ f.paramCount ≤ index ∧ f.body.reads index = 0 := by
  simp [isUnread]

/-- Whether an instruction writes one of the given locals, with a `local.set` or a `local.tee`. -/
def writes (dead : Nat → Bool) (i : Instr) : Bool := i.op.storedLocal?.any dead

/-- What remains of an instruction when the given locals are not written. -/
def dropStore (dead : Nat → Bool) (i : Instr) : Body :=
  match i.op with
  | .localSet l => if dead l then [Op.drop.plain] else [i]
  | .localTee l => if dead l then [] else [i]
  | _ => [i]

/-- The function without the stores to locals that are never read. -/
def dropStores (f : Function) : Function :=
  { f with body := f.body.flatMap (dropStore (isUnread f)) }

/-! ## 2. Unused locals

A local of the table whose index no instruction mentions.  Of two locals with one index, either
both are unused or neither is. -/

/-- The indices of the locals that are neither parameters nor used, in the order of the
table. -/
def unused (f : Function) : List Nat :=
  (f.locals.entries.map Local.index).filter fun i => f.paramCount ≤ i && f.body.uses i = 0

/-- How often each local is used, in the order of the indices (`tally`, as it is reported). -/
def useCounts (f : Function) : List (Local × Nat) :=
  f.locals.byIndex.map fun l => (l, f.body.uses l.index)

/-- The function without the given locals. Those that stay move down and the body is renumbered with
them; an operation on a local that was removed would keep its index, but there is none left by then.
-/
def removeLocals (f : Function) (indices : List Nat) : Function :=
  f.compactLocals (.removing indices)

/-! ## 3. The pass

The flag tells whether anything changed: a store was dropped, or a local was removed.  The use
counts are reported in any case. -/

/-- The report on a removed local, by its name and the index it had. The name is looked up before
the table is compacted. -/
def removal (f : Function) (index : Nat) : Event :=
  .removedLocal f.name index ((f.locals.nameOf? index).getD "?")

/-- Removes dead stores and then unused locals (`eliminate`). The uses are counted again in between,
since a local whose stores are gone has none left. The answer says whether anything was changed, by
either half. -/
def eliminate (f : Function) : Function × Bool × Trace :=
  let stored := f.body.any (writes (isUnread f))
  let g := dropStores f
  let dead := unused g
  let trace := .useCounts g.name (useCounts g) :: dead.map (removal g)
  if dead.isEmpty then (g, stored, trace) else (removeLocals g dead, true, trace)

end WasmTrim.DeadLocals
