/-
# Access by position

The passes of the library walk over lists.  They can also be written as loops that hold a position
and read, replace and remove what stands at positions computed from it.  In that form many things
can go wrong: a position may lie past the end, a difference may be negative, a loop may come back
to where it was.

A *checked* computation stops with a trap where one of these happens.  This module has the
elementary operations, and says for each what it gives when the position is right.  The modules
next to it write the passes with these operations and show that none of them ever stops.

That form is the one in which the passes were first written: bodies are arrays, a rule reads
`body[i + 1]` and calls `drain` on a range, a table of locals is reached by number, and every
difference is one of machine integers.  The walks over lists say what the passes compute, and the
loops over positions say which accesses they make to compute it.  Proving the two equal therefore
shows at once that the accesses are in range and that the walks are the right account of the loops.

A trap says which kind of accident it was, and a request that was refused is kept apart from all of
them: a local past the last index is refused by the passes themselves, with and without positions.
-/
import WasmTrim.Nesting

namespace WasmTrim.Positional

/-! ## 1. Traps

The third trap stands for a loop that would not end.  A loop by position is a recursion on a measure
here, and checks before it goes on that the measure has become smaller. -/

/-- Why a computation stopped. The first three are accidents that must not happen, and the last is a
refusal that may. -/
inductive Trap where
  /-- There is nothing at the position. -/
  | outOfRange
  /-- A difference would be negative. -/
  | underflow
  /-- A loop did not come closer to its end. -/
  | stalled
  /-- A request was refused. -/
  | fault (reason : Fault)
deriving DecidableEq

/-- A computation that may stop. Nothing that comes after the trap is done, and what was done before
is lost. -/
abbrev Checked (α : Type) := Except Trap α

/-- A computation of the library as a checked one, whose failures are passed on unchanged. -/
def ofFault {α : Type} (r : Except Fault α) : Checked α := r.mapError .fault

@[simp] theorem ofFault_ok {α : Type} (a : α) : ofFault (.ok a) = .ok a := rfl

@[simp] theorem ofFault_error {α : Type} (e : Fault) :
    ofFault (.error e : Except Fault α) = .error (.fault e) := rfl

/-! ## 2. Numbers

Positions, counts and indices are natural numbers, so a difference is the one operation on them that
can go wrong. -/

/-- The difference of two numbers, which must not be negative, as that of two machine integers
without a sign. -/
def sub (a b : Nat) : Checked Nat := if b ≤ a then .ok (a - b) else .error .underflow

theorem sub_of_le {a b : Nat} (h : b ≤ a) : sub a b = .ok (a - b) := if_pos h

@[simp] theorem sub_add (a b : Nat) : sub (a + b) b = .ok a := by
  rw [sub_of_le (by omega), Nat.add_sub_cancel]

/-! ## 3. Lists

For each operation there is one lemma on a list that is already cut where the operation works: the
position is then the length of the first part, and no arithmetic is left to do. -/

section

variable {α : Type} {l : List α} {i j : Nat}

/-- What stands at a position, which must lie within the list. -/
def item (l : List α) (i : Nat) : Checked α :=
  match l[i]? with
  | some x => .ok x
  | none => .error .outOfRange

/-- Puts something else at a position, as an assignment to an indexed place does: it fails where
there is no such position. -/
def put (l : List α) (i : Nat) (x : α) : Checked (List α) :=
  if i < l.length then .ok (l.set i x) else .error .outOfRange

/-- Takes out what stands at a position; everything behind it moves down by one. -/
def remove (l : List α) (i : Nat) : Checked (List α) :=
  if i < l.length then .ok (l.eraseIdx i) else .error .outOfRange

/-- Puts some items in place of those from position `i` up to but not including `j`. -/
def splice (l : List α) (i j : Nat) (new : List α) : Checked (List α) :=
  if i ≤ j ∧ j ≤ l.length then .ok (l.take i ++ new ++ l.drop j) else .error .outOfRange

/-- The items from position `i` up to but not including `j`. -/
def slice (l : List α) (i j : Nat) : Checked (List α) :=
  if i ≤ j ∧ j ≤ l.length then .ok ((l.take j).drop i) else .error .outOfRange

theorem item_of_getElem? {x : α} (h : l[i]? = some x) : item l i = .ok x := by rw [item, h]

/-- Positions are given by what stands before them, which is the form in which a scan knows the
body. -/
theorem item_at (a : List α) (x : α) (b : List α) (hl : l = a ++ x :: b) (hi : i = a.length) :
    item l i = .ok x :=
  item_of_getElem? (by simp [hl, hi])

theorem put_at (a : List α) (x : α) (b : List α) (hl : l = a ++ x :: b) (hi : i = a.length)
    (y : α) : put l i y = .ok (a ++ y :: b) := by
  subst hl hi
  simp [put]

theorem remove_at (a : List α) (x : α) (b : List α) (hl : l = a ++ x :: b) (hi : i = a.length) :
    remove l i = .ok (a ++ b) := by
  subst hl hi
  simp [remove, List.eraseIdx_append_of_length_le]

theorem splice_at (a w b : List α) (hl : l = a ++ (w ++ b)) (hi : i = a.length)
    (hj : j = a.length + w.length) (new : List α) : splice l i j new = .ok (a ++ new ++ b) := by
  subst hl hi hj
  simp [splice, List.drop_append]

theorem slice_at (a w b : List α) (hl : l = a ++ (w ++ b)) (hi : i = a.length)
    (hj : j = a.length + w.length) : slice l i j = .ok w := by
  subst hl hi hj
  simp [slice, List.take_append]

end

/-! ## 4. Windows

A rule looks at the last two or three instructions up to its position.  There may be fewer, and this
is no accident: the rule then does not apply (`window`). -/

/-- The last instructions up to a position, if there are that many. -/
def window (size : Nat) (body : Body) (i : Nat) : Option Body :=
  if size ≤ i + 1 ∧ i < body.length then some ((body.take (i + 1)).drop (i + 1 - size)) else none

theorem window_at {size i : Nat} {body : Body} (a w b : Body) (hbody : body = a ++ (w ++ b))
    (hi : i + 1 = a.length + w.length) (hw : w.length = size) : window size body i = some w := by
  subst hbody hw
  have hlt : i < (a ++ (w ++ b)).length := by
    simp only [List.length_append]
    omega
  have hdrop : i + 1 - w.length = a.length := by omega
  rw [window, if_pos ⟨by omega, hlt⟩, hdrop, hi, ← List.append_assoc,
    show a.length + w.length = (a ++ w).length by simp, List.take_left, List.drop_left]

theorem window_of_lt {size i : Nat} {body : Body} (h : i + 1 < size) : window size body i = none :=
  if_neg fun hc => by omega

/-! ## 5. Nesting

The position of a closer (`matching_end`) and the arity of a label (`label_arity`), with the stack
of open regions as it is built: regions are pushed at the back, so that a depth is counted from the
end. -/

/-- The position that closes the first region opened at or after `start` (`matching_end`). -/
def matchingEnd (body : Body) (start : Nat) : Checked (Option Nat) := ofFault (body.findClose start)

theorem matchingEnd_at {i : Nat} {body : Body} (a b : Body) (hbody : body = a ++ b)
    (hi : i = a.length) : matchingEnd body i = .ok ((b.closeOffset 0).map (i + ·)) := by
  subst hbody hi
  have hle : ¬ (a ++ b).length < a.length := by simp
  rw [matchingEnd, Body.findClose, if_neg hle, Body.matchingClose?, List.drop_left]
  rfl

/-- The number of values a branch carries, with the stack of regions as it is built, the innermost
one last. -/
def labelArity (n : Nesting) (label results : Nat) : Checked Nat :=
  if n.depth ≤ label then .ok results
  else do
    let top ← sub n.depth 1
    let i ← sub top label
    let region ← item n.reverse i
    return region.labelArity

theorem labelArity_eq (n : Nesting) (label results : Nat) :
    labelArity n label results = .ok (n.labelArity label results) := by
  unfold labelArity Nesting.labelArity
  split
  · rename_i h
    rw [List.getElem?_eq_none h]
  · rename_i h
    simp only [Nesting.depth, Nat.not_le] at h
    have hget := List.getElem?_eq_getElem h
    have hrev : n.reverse[n.length - 1 - label]? = n[label]? := by
      rw [List.getElem?_reverse (by omega)]
      congr 1
      omega
    rw [Nesting.depth, sub_of_le (by omega)]
    simp only [bind, Except.bind, sub_of_le (show label ≤ n.length - 1 by omega),
      item_of_getElem? (hrev.trans hget), hget]
    rfl

end WasmTrim.Positional
