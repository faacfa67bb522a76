/-
# Nesting

Two views of the regions of a body, both defined on bodies that are not well nested.

* `Nesting` is the stack of the regions open after a prefix, innermost first (`DepthTracker`).  A
  closer that finds no open region leaves the stack empty.
* `closeOffset` counts regions from a given point on and finds where the count returns to
  zero (`matching_end`); a closer that would make the count negative ends the search without a
  result.

A branch names its region by the number of regions between, so the label `d` after a prefix
is entry `d` of the stack, and a label past the last entry is the function itself.

The two views answer different questions.  The stack tells what a branch at a position means,
and whether an exception raised there is handled in the function; the count tells how far a
region reaches, for a rule that is about to take the whole of it.  They agree where a body is
well nested, which is what `Proofs/Matching` is about: the match of an opener is the first later
position at which the stack is back to what it was, and two regions are disjoint or one holds
the other.  The arms of a region do not show in either view: an `else` neither opens nor closes.
-/
import WasmTrim.Instr.Basic

namespace WasmTrim

/-! ## 1. The stack of open regions

The stack after a prefix depends on openers and closers only, and is computed by a fold over the
prefix.  A scan keeps it up to date one instruction at a time (`observe`) and recomputes it when
a rewrite has sent it back (`scan`). -/

/-- An open region: its kind, and the type of what it leaves on the stack. -/
structure Region where
  kind : RegionKind
  result : ResultType
deriving DecidableEq

/-- The number of values a branch to the region carries: a branch to a loop restarts it and
carries none, any other branch leaves the region with its result. -/
def Region.labelArity (r : Region) : Nat :=
  match r.kind with
  | .loop => 0
  | _ => r.result.arity

/-- The open regions, innermost first. -/
abbrev Nesting := List Region

namespace Nesting

/-- The open regions after one more operation (`observe`). A closer where nothing is open changes
nothing. -/
def observe (n : Nesting) : Op → Nesting
  | .enter kind result => ⟨kind, result⟩ :: n
  | .close | .delegate _ => n.tail
  | _ => n

/-- The regions open at the end of a body (`scan`). -/
def ofBody (body : Body) : Nesting := body.foldl (fun n i => n.observe i.op) []

/-- The regions open at the end of a body that is given last instruction first. -/
def ofReversed (body : Body) : Nesting := body.foldr (fun i n => n.observe i.op) []

/-- The number of open regions (`depth`). A label below it belongs to one of these, and the one that
equals it to the function. -/
def depth (n : Nesting) : Nat := n.length

/-- Whether some open region handles exceptions (`inside_try`).  An open region counts with all
its arms, so the handlers of a `try` are inside it. -/
def insideTry (n : Nesting) : Bool := n.any fun r => r.kind = .tryCatch

/-- The number of values a branch to `label` carries, in a function with `results` results
(`label_arity`).  Only a label past all open regions names the function. -/
def labelArity (n : Nesting) (label results : Nat) : Nat :=
  match n[label]? with
  | some r => r.labelArity
  | none => results

@[simp] theorem ofBody_nil : ofBody [] = [] := rfl

@[simp] theorem ofBody_concat (body : Body) (i : Instr) :
    ofBody (body ++ [i]) = (ofBody body).observe i.op := by
  simp [ofBody]

@[simp] theorem ofReversed_cons (i : Instr) (body : Body) :
    ofReversed (i :: body) = (ofReversed body).observe i.op := rfl

/-- Both ways of reading a body agree: a scan keeps what it has passed in reverse, and the regions
open there are those of the same code read forwards. -/
theorem ofReversed_eq (body : Body) : ofReversed body = ofBody body.reverse := by
  simp [ofReversed, ofBody]

end Nesting

/-! ## 2. The end of a region

The count starts at zero, at the opener, which makes it one.  If the first instruction is a
closer there is no region to find the end of. -/

namespace Body

/-- Where the number of open regions, starting from the given one, falls to zero. -/
def closeOffset : Nat → Body → Option Nat
  | _, [] => none
  | n, i :: rest =>
    if i.op.opensRegion then (closeOffset (n + 1) rest).map (· + 1)
    else if i.op.closesRegion then
      match n with
      | 0 => none
      | 1 => some 0
      | n + 2 => (closeOffset (n + 1) rest).map (· + 1)
    else (closeOffset n rest).map (· + 1)

/-- The result of `closeOffset` is a position of the body. -/
theorem closeOffset_lt : ∀ {n : Nat} {body : Body} {k : Nat},
    closeOffset n body = some k → k < body.length
  | _, [], _, h => by simp [closeOffset] at h
  | n, i :: rest, k, h => by
    simp only [closeOffset] at h
    split at h
    · obtain ⟨j, hj, rfl⟩ := Option.map_eq_some_iff.mp h
      simpa using closeOffset_lt hj
    · split at h
      · split at h
        · simp at h
        · simp only [Option.some.injEq] at h; simp [← h]
        · obtain ⟨j, hj, rfl⟩ := Option.map_eq_some_iff.mp h
          simpa using closeOffset_lt hj
      · obtain ⟨j, hj, rfl⟩ := Option.map_eq_some_iff.mp h
        simpa using closeOffset_lt hj

/-- The position that closes the first region opened at or after `start` (`matching_end`), unless
a closer comes before any opener. -/
def matchingClose? (body : Body) (start : Nat) : Option Nat :=
  (closeOffset 0 (body.drop start)).map (start + ·)

/-- The same for a start that may lie past the end, which is refused. -/
def findClose (body : Body) (start : Nat) : Except Fault (Option Nat) :=
  if body.length < start then .error .positionPastEnd else .ok (body.matchingClose? start)

end Body

end WasmTrim
