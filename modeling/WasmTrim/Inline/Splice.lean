/-
# Replacing calls

A call is replaced by stores of the arguments into locals of the caller, one for each
parameter, followed by the prepared body with its parameters renamed to those locals
(`inline_call_sites`).  The arguments lie on the stack with the last one on top, so the stores run
from the last parameter to the first.

The locals are named after the callee and the position of the parameter, so all calls of one
callee in a caller share them.  They can: a parameter is written before the body that reads it is
entered, so nothing is carried over from one call to the next.  What they must not be shared with
is a local that the caller had before.  The name is made up but not reserved; when the caller has
a local of that name, that local is taken, whatever its type and use.  This is by design, and the
theorems on inlining assume that no function has such a local to begin with.

Calls inside the inlined code are not looked at again: the scan goes on behind it.  Since the
callee does not call itself, no call of it is missed.
-/
import WasmTrim.Event
import WasmTrim.Program.Function

namespace WasmTrim.Inline

/-! ## 1. The locals of the arguments

The last parameter is declared first, because its store comes first.  The list of their indices is
nevertheless in the order of the parameters, which is how the body looks them up. -/

/-- The name of the caller's local for an argument: `INLINE_PARAM_PREFIX`, the name of the callee
and the position of the parameter. -/
def argumentName (callee : String) (position : Nat) : String :=
  s!"#inline_{callee}_param_{position}"

/-- Declares the locals for the parameters from `position` on, the last one first, and lists
their indices in the order of the parameters. -/
def declareArguments (callee : String) :
    List ValueType → Nat → LocalTable → Except Fault (LocalTable × List Nat)
  | [], _, locals => .ok (locals, [])
  | type :: types, position, locals => do
    let (locals, indices) ← declareArguments callee types (position + 1) locals
    let (locals, index) ← locals.declare (argumentName callee position) type
    return (locals, index :: indices)

/-! ## 2. The code for one call

A local of the callee that is not a parameter does not occur in a callee without further locals.
If the body has one all the same, its index is left as it is. -/

/-- Stores the arguments from the stack, the last one first. -/
def storeArguments (arguments : List Nat) : Body :=
  arguments.reverse.map fun index => (Op.localSet index).plain

/-- The local that a local of the callee becomes: parameters move, others stay. -/
def renameLocal (arguments : List Nat) (index : Nat) : Nat := arguments[index]?.getD index

/-- The report on an operand that is renamed, from a parameter of the callee to a local of the
caller. -/
def renamed? (arguments : List Nat) (i : Instr) : Option Event := do
  let old ← i.op.localIndex?
  let new ← arguments[old]?
  return .replacedLocal old new

/-- The code that replaces one call: the arguments are stored in the locals set aside for them, the
topmost first, and the prepared body follows with its parameters renamed to these locals. -/
def callCode (prepared : Body) (arguments : List Nat) : Body :=
  storeArguments arguments ++ prepared.map (Instr.mapLocal (renameLocal arguments))

/-! ## 3. All calls of a body

The table of locals grows with the first call and is only looked up at the others, but the index
after the highest one is asked for at each, so a full table is refused at any of them. -/

/-- The result of replacing calls in one body: the new body, the locals with those of the arguments
among them, and how many calls there were. -/
structure Expansion where
  body : Body
  locals : LocalTable
  /-- The number of calls replaced. -/
  sites : Nat
  trace : Trace

/-- Replaces every call of the callee in a body (`inline_call_sites`), declaring the arguments anew
at each of them: from the second on their names are there already. -/
def expandCalls (callee : Function) (prepared : Body) (caller : String) :
    Body → LocalTable → Except Fault Expansion
  | [], locals => .ok ⟨[], locals, 0, []⟩
  | i :: rest, locals =>
    if i.op = .call callee.index then do
      let (locals, arguments) ← declareArguments callee.name callee.params 0 locals
      let out ← expandCalls callee prepared caller rest locals
      return {
        body := callCode prepared arguments ++ out.body
        locals := out.locals
        sites := out.sites + 1
        trace := .inlining callee.name caller
          :: (prepared.filterMap (renamed? arguments) ++ out.trace) }
    else do
      let out ← expandCalls callee prepared caller rest locals
      return { out with body := i :: out.body }

/-- Replaces every call of the callee in a caller (`inline_call_sites`).  A caller that takes in
code which uses memory uses memory; one in which there was no call keeps its flag. -/
def inlineInto (callee : Function) (prepared : Body) (caller : Function) :
    Except Fault (Function × Trace) := do
  let out ← expandCalls callee prepared caller.name caller.body caller.locals
  return ({ caller with
      body := out.body
      locals := out.locals
      usesMemory := caller.usesMemory || (0 < out.sites && callee.usesMemory) }, out.trace)

end WasmTrim.Inline
