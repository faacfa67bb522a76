/-
# The inlining pass

The candidates are the functions without obstacles, last one first (`inline_functions`).  Each is
put in place of all of its calls and then removed from the program.  Inlining one candidate
changes the others, so each is examined again when its turn comes.

Candidates are remembered by name, since a removal changes indices.  Names need not be different;
the first function that has the name is meant, at each look-up, and a name of which no function
is left is skipped.

A candidate can be lost on the way: after taking in another body it may have grown a local or a
call of itself.  It can not become one on the way, in this pass; that is what further rounds are
for.  A function that nothing calls is a candidate like any other, and is
removed without a trace in any body: with it goes its flag on memory, if it had one.
-/
import WasmTrim.Inline.Eligibility
import WasmTrim.Inline.Prepare
import WasmTrim.Inline.Splice

namespace WasmTrim.Inline

/-! ## 1. One callee

The body is prepared once, with the signatures of the program as it is before any call of the
callee has been replaced. -/

/-- Replaces the calls of the callee in every function but those with its index. -/
def inlineIntoAll (callee : Function) (prepared : Body) :
    List Function → Except Fault (List Function × Trace)
  | [] => .ok ([], [])
  | f :: fs =>
    if f.index = callee.index then do
      let (fs, trace) ← inlineIntoAll callee prepared fs
      return (f :: fs, trace)
    else do
      let (f, trace) ← inlineInto callee prepared f
      let (fs, trace') ← inlineIntoAll callee prepared fs
      return (f :: fs, trace ++ trace')

/-- Replaces all calls of the callee and removes it from the program. -/
def inlineCallee (p : Program) (callee : Function) : Except Fault (Program × Trace) := do
  let prepared := callee.preparedBody p.signatureAt?
  let (functions, trace) ← inlineIntoAll callee prepared p.functions
  return ({ p with functions }.withoutFunction callee.index, trace)

/-! ## 2. All candidates

The survey is part of the report only.  It names the entry point neither among the candidates,
where it cannot be, nor among the others. -/

/-- Inlines the named functions in turn, as far as they can still be inlined, and tells
whether any of them was. -/
def inlineEach : List String → Program → Except Fault (Program × Bool × Trace)
  | [], p => .ok (p, false, [])
  | name :: names, p =>
    match p.functionNamed? name with
    | none => inlineEach names p
    | some callee =>
      match callee.obstacles p.tailCallTargets with
      | [] => do
        let (p, trace) ← inlineCallee p callee
        let (p, _, trace') ← inlineEach names p
        return (p, true, trace ++ trace')
      | obstacles => do
        let (p, changed, trace) ← inlineEach names p
        return (p, changed, .noLongerInlining callee.name obstacles :: trace)

/-- The names of the functions that can be inlined, last one first. -/
def candidates (p : Program) : List String :=
  (p.functions.reverse.filter fun f => f.isInlinable p.tailCallTargets).map Function.name

/-- The report on the candidates and on the functions that are none; the entry point is not
worth mentioning. -/
def survey (p : Program) : Trace :=
  .candidates (candidates p) (p.functions.length - 1)
    :: (p.functions.filter fun f => !f.isEntry && !f.isInlinable p.tailCallTargets).map
      fun f => .notInlining f.name (f.obstacles p.tailCallTargets)

/-- Inlines everything that can be inlined, and tells whether anything was
(`inline_functions`). -/
def inlineFunctions (p : Program) : Except Fault (Program × Bool × Trace) := do
  let (p', changed, trace) ← inlineEach (candidates p) p
  return (p', changed, survey p ++ trace)

end WasmTrim.Inline
