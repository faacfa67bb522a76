/-
# The optimizer by position

The loops of the optimizer around the passes, with counters that go up and with every event reported
or not at the place where it happens.  The result is the result of `WasmTrim.optimize`, for every
program and all settings (`optimizeAt_eq`), and so for compiling (`compileAt_eq`): no access is
out of range, no difference is negative, every loop ends, and the only thing that can be refused
is a local past the last index.

The optimizer repeats two things up to a bound: the passes on a function (`optimize_function`), and
the inlining with the passes behind it (`optimize`).  Both bounds are constants, and the loops count
up to them where the library counts down, so the two counters always add up to the bound.  A warning
at the end of such a loop is given whatever is to be reported; all other reports are left out when
they are not asked for, and `Trace.shown` says which these are.
-/
import WasmTrim.Compile
import WasmTrim.Proofs.Positional.Inlining

namespace WasmTrim.Positional

open Optimize

/-! ## 1. One function

A round makes one scan, then folds and removes locals as the level asks, and tells whether anything
was changed. -/

/-- One round of the passes on a function (`optimize_function`): a scan, and at the higher levels
folding and the removal of dead locals behind it. -/
def roundAt (c : Config) (ctx : Peephole.Context) (f : Function) :
    Checked (Function × Bool × Trace) := do
  let (f, simplified, t) ← simplifyAt c.verbose ctx f
  let (f, folded, t') ←
    if c.level.atLeast .fold then foldConstantsAt c.verbose f else .ok (f, false, [])
  let (f, trimmed, t'') ←
    if c.level.atLeast .inline then eliminateAt c.verbose f else .ok (f, false, [])
  return (f, simplified || folded || trimmed, t ++ t' ++ t'')

theorem roundAt_eq (c : Config) (ctx : Peephole.Context) (f : Function) :
    roundAt c ctx f = .ok ((Optimize.round c.level ctx f).1, (Optimize.round c.level ctx f).2.1,
      Trace.shown c.verbose (Optimize.round c.level ctx f).2.2) := by
  simp only [roundAt, Optimize.round, simplifyAt_eq, foldConstantsAt_eq, eliminateAt_eq, bind,
    Except.bind]
  split <;> split <;> simp only [pure, Except.pure, Trace.shown_append] <;> rfl

/-- Repeats rounds until one changes nothing; `iteration` of them have been made
(`optimize_function`). At the bound it gives up with a warning and keeps what it has. -/
def convergeAt (c : Config) (ctx : Peephole.Context) :
    Nat → Nat → Function → Checked (Function × Trace)
  | 0, _, f => .ok (f, [.notConverged f.name maxRounds])
  | left + 1, iteration, f => do
    let (f, changed, t) ← roundAt c ctx f
    if changed then do
      let (f, t') ← convergeAt c ctx left (iteration + 1) f
      return (f, t ++ t')
    else return (f, t ++ note c.verbose (.converged f.name (iteration + 1)))

theorem convergeAt_eq (c : Config) (ctx : Peephole.Context) :
    ∀ (left iteration : Nat) (f : Function), left + iteration = maxRounds →
      convergeAt c ctx left iteration f = .ok ((converge c.level ctx left f).1,
        Trace.shown c.verbose (converge c.level ctx left f).2)
  | 0, _, f, _ => by
    simp only [convergeAt, converge]
    cases c.verbose <;> rfl
  | left + 1, iteration, f, h => by
    have hcount : iteration + 1 = maxRounds - left := by omega
    simp only [convergeAt, converge, roundAt_eq, bind, Except.bind]
    split
    · simp only [convergeAt_eq c ctx left (iteration + 1) _ (by omega), pure, Except.pure,
        Trace.shown_append]
    · rw [note_eq rfl, hcount]
      simp only [pure, Except.pure, Trace.shown_append]

/-! ## 2. All functions

The facts about the whole program that the passes need are collected once, before the first
function is changed (`optimize_functions`). -/

/-- Runs the passes on each of some functions, in order and each by itself (`optimize_functions`).
-/
def optimizeEachAt (c : Config) (ctx : Peephole.Context) :
    List Function → Checked (List Function × Trace)
  | [] => .ok ([], [])
  | f :: fs => do
    let (f, t) ← convergeAt c ctx maxRounds 0 f
    let (fs, t') ← optimizeEachAt c ctx fs
    return (f :: fs, t ++ t')

theorem optimizeEachAt_eq (c : Config) (ctx : Peephole.Context) : ∀ fs : List Function,
    optimizeEachAt c ctx fs = .ok ((fs.map (optimizeFunction c.level ctx)).map Prod.fst,
      Trace.shown c.verbose ((fs.map (optimizeFunction c.level ctx)).flatMap Prod.snd))
  | [] => rfl
  | f :: fs => by
    simp only [optimizeEachAt, convergeAt_eq c ctx maxRounds 0 f rfl, optimizeEachAt_eq c ctx fs,
      bind, Except.bind, pure, Except.pure, List.map_cons, List.flatMap_cons, Trace.shown_append]
    rfl

/-- Runs the passes on every function, with what is known about the program before any of them
(`optimize_functions`). -/
def optimizeFunctionsAt (c : Config) (p : Program) : Checked (Program × Trace) := do
  let (functions, t) ← optimizeEachAt c (context c p) p.functions
  return ({ p with functions }, t)

theorem optimizeFunctionsAt_eq (c : Config) (p : Program) :
    optimizeFunctionsAt c p = .ok ((optimizeFunctions c p).1,
      Trace.shown c.verbose (optimizeFunctions c p).2) := by
  simp only [optimizeFunctionsAt, optimizeEachAt_eq, bind, Except.bind]
  rfl

/-! ## 3. The program

Settings may ask for nothing, for inlining only, for the passes only or for both in turn; the
cases are those of `optimize`. -/

/-- Alternates inlining and the other passes; `made` times this has been done (`optimize`). It ends
with the first inlining that finds nothing to do. -/
def settleAt (c : Config) : Nat → Nat → Program → Checked (Program × Trace)
  | 0, _, p => .ok (p, [.notSettled maxInlineRounds])
  | left + 1, made, p => do
    let ((p, changed), t) ← inlineFunctionsAt c.verbose p
    if changed then do
      let (p, t') ← optimizeFunctionsAt c p
      let (p, t'') ← settleAt c left (made + 1) p
      return (p, t ++ t' ++ t'')
    else return (p, t ++ note c.verbose (.settled made))

theorem settleAt_eq (c : Config) : ∀ (left made : Nat) (p : Program),
    left + made = maxInlineRounds → settleAt c left made p = shownOf c.verbose (settle c left p)
  | 0, _, p, _ => by
    simp only [settleAt, settle]
    cases c.verbose <;> rfl
  | left + 1, made, p, h => by
    have hcount : made = maxInlineRounds - (left + 1) := by omega
    simp only [settleAt, settle, inlineFunctionsAt_eq, bind, Except.bind]
    cases Inline.inlineFunctions p with
    | error e => rfl
    | ok r =>
      obtain ⟨q, changed, t⟩ := r
      simp only [regroup, Except.map, shownOf_ok]
      cases changed with
      | false =>
        simp only [Bool.false_eq_true, if_false, pure, Except.pure, shownOf_ok, Trace.shown_append]
        rw [note_eq rfl, hcount]
      | true =>
        simp only [if_true, optimizeFunctionsAt_eq, settleAt_eq c left (made + 1) _ (by omega)]
        cases settle c left (optimizeFunctions c q).1 with
        | error e => rfl
        | ok r => simp only [shownOf_ok, pure, Except.pure, Trace.shown_append]

/-- Optimizes a program as the settings ask (`optimize`), with `verbose` looked at where the source
looks at it and every access by position checked. -/
def optimizeAt (c : Config) (p : Program) : Checked (Program × Trace) :=
  if c.level = .off then .ok (p, [])
  else do
    let warning : Trace := if c.tailCalls then [.tailCallsEnabled] else []
    let ((p, _), t) ←
      if inlines c then inlineFunctionsAt c.verbose p else .ok ((p, false), [])
    if c.inlineOnly then return (p, warning ++ t)
    let (p, t') ← optimizeFunctionsAt c p
    if !inlines c then return (p, warning ++ t ++ t')
    let (p, t'') ← settleAt c maxInlineRounds 0 p
    return (p, warning ++ t ++ t' ++ t'')

/-- Warnings are always shown, whatever the settings, and so is the one about tail calls. -/
theorem shown_warning (verbose b : Bool) :
    Trace.shown verbose (if b then [.tailCallsEnabled] else [])
      = if b then [.tailCallsEnabled] else [] := by
  cases verbose <;> cases b <;> rfl

theorem ofFault_optimize (c : Config) (p : Program) :
    ofFault (optimize c p) = shownOf c.verbose (run c p) := by
  simp only [optimize, bind, Except.bind]
  cases run c p <;> rfl

/-- **The optimizer by position** never stops, except where there is no index for a new local, and
gives what the optimizer of the library gives. -/
theorem optimizeAt_eq (c : Config) (p : Program) : optimizeAt c p = ofFault (optimize c p) := by
  rw [ofFault_optimize, optimizeAt, run]
  split
  · rfl
  · simp only [inlineFirst, bind, Except.bind]
    by_cases hinline : inlines c
    · simp only [hinline, if_true, inlineFunctionsAt_eq]
      cases Inline.inlineFunctions p with
      | error e => rfl
      | ok r =>
        simp only [regroup, Except.map, shownOf_ok, pure, Except.pure, Bool.not_true,
          Bool.false_eq_true, if_false]
        split
        · simp only [shownOf_ok, Trace.shown_append, shown_warning]
        · simp only [optimizeFunctionsAt_eq, settleAt_eq c maxInlineRounds 0 _ rfl]
          cases settle c maxInlineRounds (optimizeFunctions c r.1).1 with
          | error e => rfl
          | ok r' => simp only [shownOf_ok, Trace.shown_append, shown_warning]
    · simp only [hinline, if_false, Bool.false_eq_true, pure, Except.pure, Bool.not_false, if_true,
        optimizeFunctionsAt_eq]
      split
      · simp only [shownOf_ok, Trace.shown_append, shown_warning]
        rfl
      · simp only [shownOf_ok, Trace.shown_append, shown_warning]
        rfl

/-- Optimizes, assembles and checks a program (`compile`), in that order. A program that cannot be
assembled or is not valid is an outcome here and no failure. -/
def compileAt (c : Config) (p : Program) : Checked Compilation := do
  let (p, t) ← optimizeAt c p
  match p.emit with
  | .ok bytes =>
    let report := note c.verbose (.assembled p.functions.length bytes.length)
    return { outcome := .ok bytes, trace := t ++ report }
  | .error e => return { outcome := .error e, trace := t }

theorem compileAt_eq (c : Config) (p : Program) : compileAt c p = ofFault (compile c p) := by
  simp only [compileAt, optimizeAt_eq, ofFault_optimize, compile, bind, Except.bind]
  cases run c p with
  | error e => rfl
  | ok r =>
    dsimp only [shownOf_ok]
    cases r.1.emit with
    | error e => simp only [List.append_nil]; rfl
    | ok bytes =>
      dsimp only
      rw [note_eq rfl, ← Trace.shown_append]
      rfl

end WasmTrim.Positional
