/-
# The peephole scan

A scan goes through a body from left to right (`rewrite`).  After each instruction the rules are
tried in order; the first that applies changes the body, and the scan goes on from the cursor it
gives.  If none applies, the scan steps over the instruction.

The rules that ask about nesting are told the regions open after the focus.  The scan that runs
keeps them in a tracker, and builds it anew from the beginning of the body after every rewrite;
a cursor has the beginning of the body at hand, so here they are computed where they are wanted.

The scan ends because of the weight: a rule that applies lowers five times the weight by at
least five and moves the cursor back by at most five instructions net of the one in focus, and
a step leaves one instruction less to see.

A scan may change what it has passed only near the focus.  A place further back at which a rule
applies because of a change further on is not visited again in the same scan; this is what the
rounds of the optimizer are for.
-/
import WasmTrim.Event
import WasmTrim.Peephole.Reduction
import WasmTrim.Program.Function

namespace WasmTrim.Peephole

/-! ## 1. One step

The rules are tried in their order, and the first that applies is the only one (`rewrite`).  Which
rules come first matters where two of them apply at one place. -/

/-- The first of the rules that applies at a cursor, and where it leads. -/
def firstMatch (rules : List Rule) (s : Scope) (c : Cursor) : Option (Rule × Cursor) :=
  rules.findSome? fun r => (reduceAt s c r).map fun c' => (r, c')

theorem reduceAt_of_firstMatch {rules : List Rule} {s : Scope} {c c' : Cursor} {r : Rule}
    (h : firstMatch rules s c = some (r, c')) : r ∈ rules ∧ reduceAt s c r = some c' := by
  obtain ⟨r', hr', h⟩ := List.exists_of_findSome?_eq_some h
  obtain ⟨c'', hc, e⟩ := Option.map_eq_some_iff.mp h
  obtain ⟨rfl, rfl⟩ := Prod.mk.inj e
  exact ⟨hr', hc⟩

theorem firstMatch_eq_none_iff {rules : List Rule} {s : Scope} {c : Cursor} :
    firstMatch rules s c = none ↔ ∀ r ∈ rules, reduceAt s c r = none := by
  simp [firstMatch]

/-! ## 2. The scan

The list of rules is a parameter, so that a statement about a scan can be made for some of them. -/

/-- One application of a rule: which one, where, and the instruction in its focus. -/
structure Firing where
  rule : Rule
  position : Nat
  focus : Instr
deriving DecidableEq

/-- What a scan gives: the new body, and the rules that were applied. -/
structure Outcome where
  body : Body
  firings : List Firing

/-- Scans from the place between `seen`, last instruction first, and `rest`. -/
def scanFrom (rules : List Rule) (s : Scope) (seen rest : Body) : Outcome :=
  match rest with
  | [] => ⟨seen.reverse, []⟩
  | i :: rest =>
    match h : firstMatch rules s ⟨i :: seen, rest⟩ with
    | some (r, c) =>
      have _progress := reduceAt_progress (reduceAt_of_firstMatch h).2
      let out := scanFrom rules s c.seen c.rest
      { out with firings := ⟨r, seen.length, i⟩ :: out.firings }
    | none => scanFrom rules s (i :: seen) rest
termination_by 5 * (seen.weight + rest.weight) + rest.length
decreasing_by
  · have hl := _progress.lighter
    have hn := _progress.near
    simp only [Cursor.weight, Body.weight_cons, List.length_cons] at hl hn ⊢
    omega
  · simp only [Body.weight_cons, List.length_cons]
    omega

/-- Scans a whole body with the given rules. The optimizer gives all of them, in the order of its
table; some results about single rules scan with a shorter list. -/
def scan (rules : List Rule) (s : Scope) (body : Body) : Outcome := scanFrom rules s [] body

/-! ## 3. The pass

A pass is a scan with all rules, in the scope that the function has in its program. -/

/-- What the simplification of a function depends on, besides the function. -/
structure Context where
  tailCalls : Bool
  types : TypeUsage
  resultsOf : Nat → Option Nat

/-- The scope of a function in a context (`Scope`): what the rules may know of the program, and of
the function the number of its results and the local that holds the last type. -/
def Context.scope (ctx : Context) (f : Function) : Scope where
  tailCalls := ctx.tailCalls
  types := ctx.types
  resultsOf := ctx.resultsOf
  lastType := (f.locals.find? lastTypeName).map Local.index
  results := f.result.arity

/-- The events of one application.  The removal of a case is announced by its type. -/
def Firing.events (function : String) (f : Firing) : Trace :=
  match f.rule, f.focus.marker with
  | .deadTypeCase, some (.typeCase t) => [.deadCase t, .applied function f.rule f.position]
  | _, _ => [.applied function f.rule f.position]

/-- Whether a scan has changed anything, which is whether some rule was applied. -/
def Outcome.changed (o : Outcome) : Bool := !o.firings.isEmpty

/-- Simplifies the body of a function by one scan with all rules (`rewrite`). -/
def simplify (ctx : Context) (f : Function) : Function × Bool × Trace :=
  let out := scan Rule.all (ctx.scope f) f.body
  ({ f with body := out.body }, out.changed, out.firings.flatMap (Firing.events f.name))

end WasmTrim.Peephole
