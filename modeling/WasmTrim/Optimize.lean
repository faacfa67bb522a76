/-
# The optimizer

The passes that work on one function are repeated until a whole round changes nothing
(`optimize_function`).  Removing locals can make a function small enough to be inlined, and
inlining gives the other passes new work, so the two alternate until nothing more is inlined
(`optimize`).  Both repetitions are bounded; a run that reaches a bound says so in the log and
keeps what it has.

Within a round the order is fixed: the rules, then folding, then the removal of locals, the
latter two from the levels on that include them.  The flag of a round is that of its passes
together.  A round that changes nothing ends the repetition, and its number is reported; a round
that changes something is followed by another as long as the bound allows.

Inlining comes first, before any rule has been applied, and only if the settings ask for it.
When they ask for inlining only, nothing else is done.  After that the functions are simplified
once in any case, and inlining is tried again only where it was asked for.

`run` does the work and reports every event.  Which events are shown is a matter of the
settings that no pass looks at: `optimize` selects them at the end.
-/
import WasmTrim.Config
import WasmTrim.DeadLocals
import WasmTrim.Folding
import WasmTrim.Inline.Pass
import WasmTrim.Peephole.Scan

namespace WasmTrim

namespace Optimize

/-! ## 1. One function

The bound is on rounds, not on rewrites: a single scan of a body applies as many rules as it
finds. -/

/-- How many rounds a function gets (`MAX_ITERATIONS`). When they are used up a warning is given and
the function stays as the last round has left it. -/
def maxRounds : Nat := 64

/-- One round of the passes on a function: rewriting at every level, and above that folding and the
removal of locals, each from its own level on. The round has changed something as soon as one of
them has. -/
def round (level : Level) (ctx : Peephole.Context) (f : Function) : Function × Bool × Trace :=
  let (f, simplified, t) := Peephole.simplify ctx f
  let (f, folded, t') :=
    if level.atLeast .fold then Folding.foldConstants f else (f, false, [])
  let (f, trimmed, t'') :=
    if level.atLeast .inline then DeadLocals.eliminate f else (f, false, [])
  (f, simplified || folded || trimmed, t ++ t' ++ t'')

/-- Repeats rounds until one changes nothing, at most as often as given. -/
def converge (level : Level) (ctx : Peephole.Context) : Nat → Function → Function × Trace
  | 0, f => (f, [.notConverged f.name maxRounds])
  | left + 1, f =>
    let (f, changed, t) := round level ctx f
    if changed then
      let (f, t') := converge level ctx left f
      (f, t ++ t')
    else (f, t ++ [.converged f.name (maxRounds - left)])

/-- Runs the passes on a function until it has its final form (`optimize_function`). -/
def optimizeFunction (level : Level) (ctx : Peephole.Context) (f : Function) : Function × Trace :=
  converge level ctx maxRounds f

/-! ## 2. All functions

The functions are simplified one after the other.  What they are told about the program is read
once, before the first of them, and no pass on a function changes it. -/

/-- What the passes on one function need to know about the program (`PassContext`). -/
def context (c : Config) (p : Program) : Peephole.Context where
  tailCalls := c.tailCalls
  types := p.types
  resultsOf index := (p.signatureAt? index).map fun s => s.result.arity

/-- Runs the passes on every function (`optimize_functions`). They all see the same facts about the
program, collected beforehand, since none of these passes changes a signature. -/
def optimizeFunctions (c : Config) (p : Program) : Program × Trace :=
  let results := p.functions.map (optimizeFunction c.level (context c p))
  ({ p with functions := results.map Prod.fst }, results.flatMap Prod.snd)

/-! ## 3. The program

Only inlining can fail, for want of an index for a new local.  Everything else is total. -/

/-- How often inlining is tried again (`MAX_INLINE_ROUNDS`), after the passes have perhaps made
further functions fit for it. -/
def maxInlineRounds : Nat := 16

/-- Alternates inlining and the other passes, at most as often as given. -/
def settle (c : Config) : Nat → Program → Except Fault (Program × Trace)
  | 0, p => .ok (p, [.notSettled maxInlineRounds])
  | left + 1, p => do
    let (p, changed, t) ← Inline.inlineFunctions p
    if changed then
      let (p, t') := optimizeFunctions c p
      let (p, t'') ← settle c left p
      return (p, t ++ t' ++ t'')
    else
      return (p, t ++ [.settled (maxInlineRounds - (left + 1))])

/-- Whether the settings ask for inlining: the level includes it and no switch forbids it. -/
def inlines (c : Config) : Bool := c.level.atLeast .inline && !c.disableInlining

/-- Inlines if the settings ask for it, before anything else is done. The program is returned as it
is otherwise. -/
def inlineFirst (c : Config) (p : Program) : Except Fault (Program × Trace) :=
  if inlines c then do
    let (p, _, t) ← Inline.inlineFunctions p
    return (p, t)
  else .ok (p, [])

/-- Runs what the settings ask for and reports every event. -/
def run (c : Config) (p : Program) : Except Fault (Program × Trace) :=
  if c.level = .off then .ok (p, [])
  else do
    let warning : Trace := if c.tailCalls then [.tailCallsEnabled] else []
    let (p, t) ← inlineFirst c p
    if c.inlineOnly then return (p, warning ++ t)
    let (p, t') := optimizeFunctions c p
    if !inlines c then return (p, warning ++ t ++ t')
    let (p, t'') ← settle c maxInlineRounds p
    return (p, warning ++ t ++ t' ++ t'')

end Optimize

/-- Optimizes a program as the settings ask, with the events that they want to see (`optimize`). -/
def optimize (c : Config) (p : Program) : Except Fault (Program × Trace) := do
  let (p, t) ← Optimize.run c p
  return (p, t.shown c.verbose)

end WasmTrim
