/-
# Verbosity

The settings say whether everything that happens is reported or only the warnings.  This changes
nothing but the log: with and without it a program is optimized to the same program, compiles to the
same binary or fails with the same error, and the short log is what is left of the long one when
only the warnings are kept (`verbosity_only_filters`).

The optimizer by position asks for the setting at every place where something is reported, in the
middle of its loops, so for it this says that no report gets in the way of the work.

For `Optimize.run` the first part is clear from its definition: it never looks at the setting and
reports everything, and the selection is made at the end.  The statement gets its content from the
other optimizer, which reports as the program does that is modelled (`verbose` is consulted before
each line of the log, and some of what is reported is computed only then), and is shown to give the
same in `Proofs/Positional/Run`.

A warning is told by its line, and not only by the event behind it, so the filter can be applied to
the text of a log.
-/
import WasmTrim.Compile
import WasmTrim.Proofs.Positional.Run

namespace WasmTrim

/-! ## 1. Logs

A log is the lines of its events, and warnings can be told by how their lines begin. -/

/-- Whether a line of a log is a warning, which can be read off how it begins. -/
def isWarningLine (line : String) : Bool := "warn: ".toList.isPrefixOf line.toList

theorem isWarningLine_line (e : Event) : isWarningLine e.line = e.isWarning := by
  cases h : e.isWarning with
  | true => simp [isWarningLine, Event.line, h, String.toList_append]
  | false => simp [isWarningLine, Event.line, h, String.toList_append, List.isPrefixOf]

/-- The lines of the warnings are the lines that say so. -/
theorem Trace.lines_filter (t : Trace) :
    Trace.lines (t.filter Event.isWarning) = t.lines.filter isWarningLine := by
  simp only [Trace.lines, List.filter_map, Function.comp_def, isWarningLine_line]

/-! ## 2. The two settings

The passes collect all events and ask for no setting; what is reported is picked at the end
(`verbose`).  So two runs that differ in this setting have the same events. -/

/-- The same settings, with everything reported (`verbose`). Runs of both are compared below, event
by event. -/
def Config.loud (c : Config) : Config := { c with verbose := true }

/-- The same settings, with only the warnings reported, whatever was asked for before. -/
def Config.quiet (c : Config) : Config := { c with verbose := false }

namespace Optimize

/-- The alternation of inlining and the other passes does not look at the setting. -/
theorem settle_verbose (c : Config) (b : Bool) : ∀ (left : Nat) (p : Program),
    settle { c with verbose := b } left p = settle c left p
  | 0, _ => rfl
  | left + 1, p => by
    simp only [settle, settle_verbose c b left]
    rfl

theorem run_verbose (c : Config) (b : Bool) (p : Program) :
    run { c with verbose := b } p = run c p := by
  simp only [run, settle_verbose]
  rfl

end Optimize

theorem optimize_quiet (c : Config) (p : Program) :
    optimize c.quiet p
      = (optimize c.loud p).map fun r => (r.1, r.2.filter Event.isWarning) := by
  simp only [optimize, Config.quiet, Config.loud, Optimize.run_verbose]
  cases Optimize.run c p with
  | error e => rfl
  | ok r => simp [bind, Except.bind, pure, Except.pure, Except.map, Trace.shown_false]

theorem compile_quiet (c : Config) (p : Program) :
    compile c.quiet p
      = (compile c.loud p).map fun r => { r with trace := r.trace.filter Event.isWarning } := by
  simp only [compile, Config.quiet, Config.loud, Optimize.run_verbose]
  cases Optimize.run c p with
  | error e => rfl
  | ok r => simp [bind, Except.bind, pure, Except.pure, Except.map, Trace.shown_false]

/-! ## 3. The result

For the optimizer, the compiler and the optimizer by position alike, refusals included. -/

open Positional in
/-- **Verbosity only filters the log**: the quiet run gives what the loud run gives, a refusal
included, with the warnings of its log. -/
theorem verbosity_only_filters (c : Config) (p : Program) :
    optimizeAt c.quiet p
        = (optimizeAt c.loud p).map (fun r => (r.1, r.2.filter Event.isWarning))
      ∧ compileAt c.quiet p
        = (compileAt c.loud p).map (fun r => { r with trace := r.trace.filter Event.isWarning })
      ∧ optimize c.quiet p
        = (optimize c.loud p).map (fun r => (r.1, r.2.filter Event.isWarning))
      ∧ compile c.quiet p
        = (compile c.loud p).map (fun r => { r with trace := r.trace.filter Event.isWarning })
      ∧ ∀ t : Trace, Trace.lines (t.filter Event.isWarning) = t.lines.filter isWarningLine := by
  refine ⟨?_, ?_, optimize_quiet c p, compile_quiet c p, Trace.lines_filter⟩
  · rw [optimizeAt_eq, optimizeAt_eq, optimize_quiet]
    cases optimize c.loud p <;> rfl
  · rw [compileAt_eq, compileAt_eq, compile_quiet]
    cases compile c.loud p <;> rfl

end WasmTrim
