/-
# Compiling

A program is compiled by optimizing it, assembling the result and checking it (`compile`).  Each
of these can fail: optimizing only when a function runs out of local indices, in which case there
is nothing to report; the others with an error next to the log of what was done before.

The two errors are of different kinds.  Assembling refuses a program that has no binary: an index
that is not where it says, a table of locals with a gap, an initializer that is not a constant.
Checking refuses a binary that no engine would load, and is done on every binary before it is
handed out, so that a compilation that succeeds has a valid one by definition.  What is not by
definition, and is proved, is that optimizing never turns a program that compiles into one that
does not.

Only the refusal is modelled, not its wording: the validator's own text about what it found is
left out, and `CompileError.invalid` stands for any of them.
-/
import WasmTrim.Binary.Assemble
import WasmTrim.Optimize
import WasmTrim.Validation.Program

namespace WasmTrim

/-- Why there is no binary (`CompilerError`, less the error about settings). -/
inductive CompileError where
  /-- The optimized program cannot be assembled. -/
  | encoding (error : AssembleError)
  /-- The optimized program is not well typed. -/
  | invalid
deriving DecidableEq

/-- The wording of an error. For an invalid program the source adds what its validator says, of
which only the kind is kept here. -/
def CompileError.message : CompileError → String
  | encoding e => "WASM encoding error: " ++ e.message
  | invalid => "WASM validation error"

/-- The result of a compilation and its log: bytes or an error, and what has happened on the way to
either. -/
structure Compilation where
  outcome : Except CompileError Bytes
  trace : Trace

/-- The binary of a program, if it can be assembled and is valid (`generate` and `validate`). -/
def Program.emit (p : Program) : Except CompileError Bytes :=
  match p.assemble with
  | .error e => .error (.encoding e)
  | .ok bytes => if p.isValid then .ok bytes else .error .invalid

/-- Optimizes, assembles and checks a program (`compile`).  The last line of the log is written
only when there is a binary. -/
def compile (c : Config) (p : Program) : Except Fault Compilation := do
  let (p, t) ← Optimize.run c p
  let outcome := p.emit
  let report : Trace := match outcome with
    | .ok bytes => [.assembled p.functions.length bytes.length]
    | .error _ => []
  return { outcome, trace := Trace.shown c.verbose (t ++ report) }

end WasmTrim
