/-
# The log

A run reports what it does as a list of events.  The passes report every event; the settings
only decide which of them are shown: all of them in a verbose run, and the warnings otherwise
(`Trace.shown`).  The wording of an event is in one place (`Event.text`).

Keeping the report apart from the question whether it is shown has a price: a pass that skips
work in a quiet run, because only the report needs it, does that work here.  Nothing else could
depend on it, and that is a theorem about the passes as they really run, which consult the
setting at each report (`Proofs/Positional`).

There are three warnings: tail calls were asked for, the simplification of a function did not
come to an end within its bound, and inlining did not.  The first is a matter of the settings
alone; how small a program has to be for the others not to appear is the subject of
`Proofs/Termination`.

The reasons why a function is not inlined (`ineligibility`) stand here and not with the pass,
because they are part of what an event says.
-/
import WasmTrim.Instr.Text
import WasmTrim.Peephole.Rule
import WasmTrim.Program.Local

namespace WasmTrim

/-! ## 1. Obstacles to inlining

A function is refused for as many of the seven reasons as apply, and all of them are reported in
a fixed order. -/

/-- Why a function is not inlined (`ineligibility`). A function may have several of these at once,
and all of them are reported. -/
inductive Obstacle where
  | entryPoint
  | declaresLocals
  | severalReturns
  | callsItself
  | mayThrow
  | makesTailCall
  | isTailCalled
deriving DecidableEq

namespace Obstacle

/-- Every obstacle, in the order in which they are reported. -/
def all : List Obstacle :=
  [entryPoint, declaresLocals, severalReturns, callsItself, mayThrow, makesTailCall, isTailCalled]

theorem mem_all (o : Obstacle) : o ∈ all := by cases o <;> decide

/-- The obstacle in words, as `ineligibility` gives it. -/
def text : Obstacle → String
  | entryPoint => "entry point"
  | declaresLocals => "declares locals beyond its parameters"
  | severalReturns => "returns from more than one place"
  | callsItself => "calls itself"
  | mayThrow => "may throw"
  | makesTailCall => "makes a tail call"
  | isTailCalled => "is the target of a tail call"

end Obstacle

/-! ## 2. Events

An event holds what its message shows and nothing else, so that two runs with equal traces have
equal logs. -/

/-- Something that happened during a run and that the log tells about. Warnings are always shown,
and the rest only if the settings are verbose. -/
inductive Event where
  /-- A rule was applied with its focus at a position of the body. -/
  | applied (function : String) (rule : Peephole.Rule) (position : Nat)
  /-- The case of a type that is never constructed is about to be removed. -/
  | deadCase (type : RuntimeType)
  /-- An operation on two constants was evaluated. -/
  | folded (function : String) (lhs rhs : Value) (op : NumOp) (value : Value)
  /-- How often each local is used, in the order of the indices. -/
  | useCounts (function : String) (counts : List (Local × Nat))
  /-- A local that is not used was removed. -/
  | removedLocal (function : String) (index : Nat) (name : String)
  /-- The functions that can be inlined, and the number of functions that could be. -/
  | candidates (names : List String) (total : Nat)
  /-- A function cannot be inlined. -/
  | notInlining (function : String) (obstacles : List Obstacle)
  /-- A candidate cannot be inlined any more. -/
  | noLongerInlining (function : String) (obstacles : List Obstacle)
  /-- A call is being replaced by the body of the callee. -/
  | inlining (callee caller : String)
  /-- A parameter of an inlined body was given a local of the caller. -/
  | replacedLocal (old new : Nat)
  /-- Nothing more could be inlined. -/
  | settled (rounds : Nat)
  /-- A function has reached its final form. -/
  | converged (function : String) (rounds : Nat)
  /-- A binary was written. -/
  | assembled (functions bytes : Nat)
  /-- Tail calls were asked for. -/
  | tailCallsEnabled
  /-- The simplification of a function was cut short, after as many rounds as it gets. A warning. -/
  | notConverged (function : String) (rounds : Nat)
  /-- Inlining was cut short. -/
  | notSettled (rounds : Nat)
deriving DecidableEq

namespace Event

/-- Whether the event is shown in every run, verbose or not. These are the warnings of `optimize`
and `optimize_function`. -/
def isWarning : Event → Bool
  | tailCallsEnabled | notConverged .. | notSettled .. => true
  | _ => false

/-- A list of texts with commas between them (`join`). -/
def commas (items : List String) : String := ", ".intercalate items

/-- The use count of one local, with its name and its index in front. -/
def countText (l : Local) (count : Nat) : String := s!"{l.name} ({l.index}): {count}"

/-- The wording of an event, character by character as the log has it. -/
def text : Event → String
  | applied function rule position => s!"{function}: applied {rule.name} at {position}"
  | deadCase type => s!"removing case for {type.text}, never constructed"
  | folded function lhs rhs op value =>
    function ++ ": folded " ++ (Op.const lhs).text ++ "; " ++ (Op.const rhs).text ++ "; "
      ++ op.mnemonic ++ " -> " ++ (Op.const value).text
  | useCounts function counts =>
    function ++ ": use counts: " ++ commas (counts.map fun (l, count) => countText l count)
  | removedLocal function index name => s!"{function}: removed unused local {index} ({name})"
  | candidates names total =>
    "found inline candidates: " ++ commas names ++ s!" ({names.length}/{total})"
  | notInlining function obstacles =>
    s!"not inlining {function}: " ++ commas (obstacles.map Obstacle.text)
  | noLongerInlining function obstacles =>
    s!"no longer inlining {function}: " ++ commas (obstacles.map Obstacle.text)
  | inlining callee caller => s!"inlining call for {callee} (in {caller})"
  | replacedLocal old new => s!"replacing local operand in inlined body ({old} -> {new})"
  | settled rounds => s!"inlining settled after {rounds} extra rounds"
  | converged function rounds => s!"{function}: converged after {rounds} rounds"
  | assembled functions bytes => s!"assembled {functions} functions into {bytes} bytes"
  | tailCallsEnabled => "tail calls are not widely supported by hosts, use at your own risk"
  | notConverged function rounds =>
    s!"{function}: optimization did not converge after {rounds} rounds"
  | notSettled rounds => s!"inlining did not settle after {rounds} extra rounds"

/-- The line of the log: the wording after the level it is reported at. -/
def line (e : Event) : String := (if e.isWarning then "warn: " else "debug: ") ++ e.text

end Event

/-! ## 3. Traces

The order of a trace is that of the run.  Showing selects from it and never reorders. -/

/-- The events of a run, in order. -/
abbrev Trace := List Event

namespace Trace

/-- The events that are shown: all of them, or only the warnings (`verbose`). -/
def shown (verbose : Bool) (t : Trace) : Trace := t.filter fun e => verbose || e.isWarning

@[simp] theorem shown_true (t : Trace) : t.shown true = t := by simp [shown]

theorem shown_false (t : Trace) : t.shown false = t.filter Event.isWarning := by simp [shown]

@[simp] theorem shown_append (verbose : Bool) (t u : Trace) :
    shown verbose (t ++ u) = t.shown verbose ++ u.shown verbose := by simp [shown]

/-- The events as lines of a log, in the order in which they happened. -/
def lines (t : Trace) : List String := t.map Event.line

end Trace

end WasmTrim
