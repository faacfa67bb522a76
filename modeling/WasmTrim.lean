import WasmTrim.Binary.Assemble
import WasmTrim.Binary.Assembler
import WasmTrim.Binary.Leb128
import WasmTrim.Binary.Opcode
import WasmTrim.Binary.Reader
import WasmTrim.Compaction
import WasmTrim.Compile
import WasmTrim.Config
import WasmTrim.Constant
import WasmTrim.DeadLocals
import WasmTrim.Distinct
import WasmTrim.Event
import WasmTrim.F64.Arithmetic
import WasmTrim.F64.Basic
import WasmTrim.F64.Decimal
import WasmTrim.Folding
import WasmTrim.Inline.Eligibility
import WasmTrim.Inline.Pass
import WasmTrim.Inline.Prepare
import WasmTrim.Inline.Splice
import WasmTrim.Inline.StackHeight
import WasmTrim.Instr.Basic
import WasmTrim.Instr.NumOp
import WasmTrim.Instr.Text
import WasmTrim.Nesting
import WasmTrim.Optimize
import WasmTrim.Peephole.Cursor
import WasmTrim.Peephole.Reduction
import WasmTrim.Peephole.Rule
import WasmTrim.Peephole.Scan
import WasmTrim.Program.Basic
import WasmTrim.Program.Function
import WasmTrim.Program.Local
import WasmTrim.Proofs.Binary.Image
import WasmTrim.Proofs.Binary.Operations
import WasmTrim.Proofs.Binary.Parsing
import WasmTrim.Proofs.Binary.TypeSection
import WasmTrim.Proofs.Code
import WasmTrim.Proofs.Consistency
import WasmTrim.Proofs.Flags
import WasmTrim.Proofs.Headroom
import WasmTrim.Proofs.Idempotence
import WasmTrim.Proofs.Increment
import WasmTrim.Proofs.Inline.Exhaustion
import WasmTrim.Proofs.Inline.Hygiene
import WasmTrim.Proofs.Inline.Prepared
import WasmTrim.Proofs.Inline.Provenance
import WasmTrim.Proofs.Inline.Splice
import WasmTrim.Proofs.Inline.Targets
import WasmTrim.Proofs.Labels
import WasmTrim.Proofs.Locals
import WasmTrim.Proofs.Matching
import WasmTrim.Proofs.Pipeline
import WasmTrim.Proofs.Positional.Access
import WasmTrim.Proofs.Positional.Completeness
import WasmTrim.Proofs.Positional.Inlining
import WasmTrim.Proofs.Positional.Passes
import WasmTrim.Proofs.Positional.Regions
import WasmTrim.Proofs.Positional.Rules
import WasmTrim.Proofs.Positional.Run
import WasmTrim.Proofs.Removal
import WasmTrim.Proofs.Renumbering
import WasmTrim.Proofs.Rewrite
import WasmTrim.Proofs.Semantics.Behaviour
import WasmTrim.Proofs.Semantics.DeadCase
import WasmTrim.Proofs.Semantics.DeadLocals
import WasmTrim.Proofs.Semantics.Folding
import WasmTrim.Proofs.Semantics.Height
import WasmTrim.Proofs.Semantics.Inlined
import WasmTrim.Proofs.Semantics.Inlining
import WasmTrim.Proofs.Semantics.Machine
import WasmTrim.Proofs.Semantics.Numeric
import WasmTrim.Proofs.Semantics.Outcomes
import WasmTrim.Proofs.Semantics.Passes
import WasmTrim.Proofs.Semantics.Refinement
import WasmTrim.Proofs.Semantics.Rewrites
import WasmTrim.Proofs.Semantics.Scan
import WasmTrim.Proofs.Semantics.Simulation
import WasmTrim.Proofs.Semantics.Visits
import WasmTrim.Proofs.Termination
import WasmTrim.Proofs.Typing.Bytes
import WasmTrim.Proofs.Typing.Height
import WasmTrim.Proofs.Typing.Inlining
import WasmTrim.Proofs.Typing.Looser
import WasmTrim.Proofs.Typing.Passes
import WasmTrim.Proofs.Typing.Placement
import WasmTrim.Proofs.Typing.Replacement
import WasmTrim.Proofs.Typing.Soundness
import WasmTrim.Proofs.Typing.Steps
import WasmTrim.Proofs.UnusedLocals
import WasmTrim.Proofs.Validity
import WasmTrim.Proofs.Verbosity
import WasmTrim.RuntimeType
import WasmTrim.Validation.Check
import WasmTrim.Validation.Frame
import WasmTrim.Validation.Immediate
import WasmTrim.Validation.InstructionSet
import WasmTrim.Validation.Limits
import WasmTrim.Validation.OperandType
import WasmTrim.Validation.Program
import WasmTrim.Validation.Rule
import WasmTrim.ValueType
