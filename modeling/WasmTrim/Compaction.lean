/-
# Compaction of indices

When some members of an indexed table are removed, the others move down to close the gaps.
`Compaction` is that renumbering (`IndexRemap`), given by the removed indices in increasing
order: an index that stays becomes smaller by the number of removed indices below it.  `removing`
takes them in any order and with repetitions.

It is used for locals, all of the unused ones at once, and for functions, one at a time.  The
optimizer only renumbers indices of members that stay, since a local that is used is not removed
and an inlined function has no calls left; `apply` nevertheless answers for the removed ones too
and leaves them as they were, which is where a dangling index would show.

The position of an index among the removed ones is found by counting.  In a sorted list that is
what a binary search finds, so the order is a field of the structure and not a precondition.
-/
import WasmTrim.Distinct

namespace WasmTrim

/-- The renumbering that follows the removal of the listed indices (`IndexRemap`), which stand in
strictly increasing order. -/
structure Compaction where
  removed : List Nat
  increasing : removed.Pairwise (· < ·)

namespace Compaction

/-- The renumbering that follows the removal of the given indices (`removing`), in any order. -/
def removing (indices : List Nat) : Compaction :=
  ⟨sortDistinct id indices, pairwise_sortDistinct id indices⟩

@[simp] theorem mem_removing {indices : List Nat} {index : Nat} :
    index ∈ (removing indices).removed ↔ index ∈ indices := by
  refine ⟨mem_of_mem_sortDistinct, fun h => ?_⟩
  obtain ⟨_, hy, rfl⟩ := key_mem_sortDistinct id h
  exact hy

/-- Whether nothing is removed (`is_identity`), in which case every index stays as it is. -/
def isIdentity (c : Compaction) : Bool := c.removed.isEmpty

/-- The number of removed indices below `old`, which is how far it moves down. The source finds it
as the place where a binary search would insert `old`. -/
def below (c : Compaction) (old : Nat) : Nat := c.removed.countP (· < old)

/-- The new index, unless the old one was removed (`get`). -/
def get? (c : Compaction) (old : Nat) : Option Nat :=
  if old ∈ c.removed then none else some (old - c.below old)

/-- The new index; a removed one stays as it was (`apply`). -/
def apply (c : Compaction) (old : Nat) : Nat := (c.get? old).getD old

/-- Exactly the removed indices have no new one (`get`); all others, however large, have one. -/
theorem get?_eq_none_iff {c : Compaction} {old : Nat} : c.get? old = none ↔ old ∈ c.removed := by
  simp [get?]

theorem get?_of_notMem {c : Compaction} {old : Nat} (h : old ∉ c.removed) :
    c.get? old = some (old - c.below old) := by
  rw [get?, if_neg h]

theorem apply_of_notMem {c : Compaction} {old : Nat} (h : old ∉ c.removed) :
    c.apply old = old - c.below old := by
  rw [apply, get?_of_notMem h, Option.getD_some]

end Compaction

end WasmTrim
