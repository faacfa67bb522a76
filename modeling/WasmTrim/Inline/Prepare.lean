/-
# The body of a callee

Before a body is put in place of a call it must not leave the function it came from
(`prepare_body`).

* A `return` at the very end is dropped when it does nothing: when exactly the results are on
  the stack there.
* A body that still leaves early, by a `return` or a branch past its last region, is wrapped
  in a block with the result of the function.  A branch past the last region then leads to the
  end of that block, and a `return` becomes such a branch.

The number of the branch that replaces a `return` is the number of regions open there, which is
the label of the new block seen from inside them.  Branches that stay inside the body keep their
numbers, since the block is put around all of it; a branch past the last region is one whose
number is at least the number of open regions, and of those only the one with exactly that number
names the function in a body that validates.

A body that does not leave early is not wrapped, so most calls are replaced by straight code.
The prepared body contains no `return` at all, and every label in it is that of a region inside
it (`Proofs/Inline/Prepared`).
-/
import WasmTrim.Inline.StackHeight
import WasmTrim.Program.Basic

namespace WasmTrim

/-! ## 1. Leaving early

Every operation is judged under the regions open before it, so that an opener is judged outside
of its own region. -/

/-- Whether an operation under `depth` open regions leaves the function. -/
def Op.leaves (depth : Nat) : Op → Bool
  | .ret => true
  | .br label | .brIf label => depth ≤ label
  | .brTable targets fallback => depth ≤ fallback || targets.any (depth ≤ ·)
  | _ => false

namespace Body

/-- Whether some operation leaves the function, starting under the given regions
(`exits_early`). -/
def exitsEarly (n : Nesting) : Body → Bool
  | [] => false
  | i :: rest => i.op.leaves n.depth || exitsEarly (n.observe i.op) rest

/-- Turns each `return` into a branch past the last open region. -/
def branchReturns (n : Nesting) : Body → Body
  | [] => []
  | i :: rest =>
    (if i.op = .ret then { i with op := .br n.depth } else i)
      :: branchReturns (n.observe i.op) rest

@[simp] theorem length_branchReturns : ∀ (n : Nesting) (body : Body),
    (branchReturns n body).length = body.length
  | _, [] => rfl
  | n, i :: rest => by simp [branchReturns, length_branchReturns (n.observe i.op) rest]

/-- A body inside a block that takes over the part of the function label. -/
def wrapped (result : ResultType) (body : Body) : Body :=
  (Op.enter .block result).plain :: branchReturns [] body ++ [Op.close.plain]

end Body

/-! ## 2. The prepared body

First the final `return` is looked at, then what is left. -/

/-- The body without a final `return` that does nothing: what is on the stack then is just the
results, so running off the end returns the same. -/
def Function.withoutFinalReturn (signatureOf : Nat → Option Signature) (f : Function) : Body :=
  if f.body.getLast?.map Instr.op = some .ret
      ∧ Body.stackHeight? signatureOf f.body.dropLast = some f.result.arity then
    f.body.dropLast
  else f.body

/-- The body of a function in a form that can stand for a call of it (`prepare_body`). -/
def Function.preparedBody (signatureOf : Nat → Option Signature) (f : Function) : Body :=
  let body := f.withoutFinalReturn signatureOf
  if body.exitsEarly [] then body.wrapped f.result else body

end WasmTrim
