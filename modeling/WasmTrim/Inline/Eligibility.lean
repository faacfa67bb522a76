/-
# Which functions can be inlined

A function is inlined at all of its calls and then removed, so nothing else may refer to it
and its body must make sense inside another function: it has no locals besides its
parameters, it raises no exceptions, and it neither makes nor receives tail calls
(`ineligibility`).

Each obstacle has a reason of its own.

* The entry point is called by the host.
* A local besides the parameters would have to start at zero at every call, where the local of
  the caller keeps what the call before left in it.
* A function with a result that returns at several places, or one that raises exceptions, is kept
  out although its body could be wrapped; of a function without a result any number of returns is
  accepted.
* A function that calls itself would never be rid of its calls.
* A function that makes a tail call ends the frame it runs in, which after inlining would be that
  of the caller; and a tail call *of* it has no call site that a body could be put in.

What is looked at is the body, and beyond it only the flag on exceptions and the targets of the
tail calls of the whole program.
-/
import WasmTrim.Event
import WasmTrim.Program.Basic

namespace WasmTrim

namespace Op

/-- The function that is called by a tail call. -/
def tailCallTarget? : Op → Option Nat
  | .returnCall target => some target
  | _ => none

end Op

namespace Program

/-- The functions that some tail call of the program refers to (`tail_call_targets`). -/
def tailCallTargets (p : Program) : List Nat :=
  p.functions.flatMap fun f => f.body.filterMap fun i => i.op.tailCallTarget?

end Program

namespace Function

/-- The number of `return`s anywhere in the body, inside of regions too. More than one is an
obstacle to inlining for a function with a result, wherever they stand. -/
def returnCount (f : Function) : Nat := f.body.countP fun i => i.op = .ret

/-- Whether an obstacle keeps the function from being inlined, given the targets of all tail
calls. -/
def meets (f : Function) (tailCalled : List Nat) : Obstacle → Bool
  | .entryPoint => f.isEntry
  | .declaresLocals => f.locals.size ≠ f.paramCount
  | .severalReturns => f.result.isSome && 1 < f.returnCount
  | .callsItself => f.callsSelf
  | .mayThrow => f.throws || f.body.any fun i => i.op.isException
  | .makesTailCall => f.body.any fun i => i.op.tailCallTarget?.isSome
  | .isTailCalled => tailCalled.contains f.index

/-- Everything that keeps the function from being inlined (`ineligibility`), in the order in which
it is reported. -/
def obstacles (f : Function) (tailCalled : List Nat) : List Obstacle :=
  Obstacle.all.filter (f.meets tailCalled)

/-- Whether the function can be inlined, which is that nothing at all stands in the way. -/
def isInlinable (f : Function) (tailCalled : List Nat) : Bool := (f.obstacles tailCalled).isEmpty

end Function

end WasmTrim
