/-
# The height of the operand stack

Following a body from an empty stack, how many values are on the stack at its end
(`stack_height`)?  The answer is found without typing the body: a region counts as one step that
takes its condition, if it has one, and leaves its result; a call takes parameters and leaves
results; everything else has a fixed effect.  Where control does not simply run on, or the stack
would underflow, there is no answer.

One decision rests on the answer.  A `return` at the end of a callee may be dropped only when
exactly the results are on the stack; with more there, the `return` discards the extra values and
has to stay as something that discards them.  No answer counts as no.

Only counts are compared.  In a body that validates, this is enough: whenever there is an answer,
the end is reached with as many operands as it says and their types are known, so the results are
there with the right types (`Proofs/Typing/Height`).  In other bodies the answer may be
anything, and no use is made of it.

A region is skipped by going to its end, which lies behind its opener, so the walk ends.  A region
without an end has no height behind it.
-/
import WasmTrim.Nesting

namespace WasmTrim

/-- The stack after popping and pushing, unless it would underflow. -/
def shiftHeight (height : Nat) (effect : Nat × Nat) : Option Nat :=
  if effect.1 ≤ height then some (height - effect.1 + effect.2) else none

/-- What a region takes from the stack when it is entered: the condition of an `if`, and nothing
otherwise. -/
def RegionKind.operandCount : RegionKind → Nat
  | .ifThen => 1
  | _ => 0

/-- The height at the end of a body that starts at the given height. -/
def Body.heightFrom (signatureOf : Nat → Option Signature) (height : Nat) : Body → Option Nat
  | [] => some height
  | i :: rest =>
    match i.op with
    | .enter kind result => do
      let k ← Body.closeOffset 1 rest
      let height ← shiftHeight height (kind.operandCount, result.arity)
      heightFrom signatureOf height (rest.drop (k + 1))
    | .call target => do
      let s ← signatureOf target
      let height ← shiftHeight height (s.params.length, s.result.arity)
      heightFrom signatureOf height rest
    | op => do
      let effect ← op.stackEffect?
      let height ← shiftHeight height effect
      heightFrom signatureOf height rest
termination_by body => body.length
decreasing_by all_goals simp only [List.length_cons, List.length_drop]; omega

/-- The height at the end of a body that starts from an empty stack (`stack_height`). -/
def Body.stackHeight? (signatureOf : Nat → Option Signature) (body : Body) : Option Nat :=
  body.heightFrom signatureOf 0

end WasmTrim
