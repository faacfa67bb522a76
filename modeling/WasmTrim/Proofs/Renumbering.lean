/-
# Removal in one step and in two

A table from which some members are removed is renumbered in the only way that closes its gaps and
keeps the order.  `Compaction.removing` takes the removed indices as they come, in any order and
with repetitions, so its numbers are first stated in terms of that list: an index that stays moves
down by the number of distinct listed indices below it (`Compaction.get?_removing`).

Renumberings that close the gaps are equal as soon as they keep the same indices
(`Compaction.eq_of_closes_gaps`).  So nothing has to be counted to see that it does not matter
whether indices are removed at once or some of them first, if what is removed second is named by
its new numbers (`Compaction.get?_removing_append`).

The new number is computed by a difference that a machine takes without a sign (`get`): the index,
less the place at which it would stand among the removed ones.  It cannot fall below zero, because
the removed indices below an index are different numbers below it.  The place is that of a binary
search, which on a list without repetitions is the number of smaller entries.

Both renumberings of the optimizer are instances: functions go one at a time, and each later removal
speaks in the numbers that the earlier ones have left; locals go all at once.
-/
import Mathlib.Data.Finset.Card
import WasmTrim.Proofs.Positional.Passes

namespace WasmTrim.Compaction

variable {c : Compaction} {a b x y : Nat}

/-! ## 1. Distinct indices

The list of indices that is given is sorted and rid of repetitions (`removing`).  Neither its order
nor a repetition shows in the result. -/

/-- The number of distinct indices below a bound that are listed. An index that is listed twice is
removed once and counts once. -/
def distinctBelow (indices : List Nat) (bound : Nat) : Nat :=
  (indices.toFinset.filter (· < bound)).card

/-- Sorting and dropping repetitions keeps the number of distinct indices. -/
theorem below_removing (indices : List Nat) (bound : Nat) :
    (removing indices).below bound = distinctBelow indices bound := by
  have hset : (removing indices).removed.toFinset = indices.toFinset := by
    ext index
    rw [List.mem_toFinset, List.mem_toFinset, mem_removing]
  rw [below, List.countP_eq_length_filter, distinctBelow, ← hset,
    ← List.toFinset_card_of_nodup ((removing indices).removed_nodup.filter _), List.toFinset_filter]
  simp only [decide_eq_true_eq]

/-- **The numbers after a removal**, in terms of the list that was given. The list may be in any
order and may name an index more than once; only the different indices below the old one count. -/
theorem get?_removing (indices : List Nat) (old : Nat) :
    (removing indices).get? old
      = if old ∈ indices then none else some (old - distinctBelow indices old) := by
  rw [get?, below_removing]
  simp only [mem_removing]

theorem distinctBelow_le (indices : List Nat) (bound : Nat) :
    distinctBelow indices bound ≤ bound :=
  below_removing indices bound ▸ (removing indices).below_le bound

/-! ## 2. Gaps

What characterizes the renumbering: it is increasing on the indices that stay, and every number is
the new number of one of them.  There is only one such map. -/

theorem get?_eq_some_iff : c.get? a = some x ↔ a ∉ c.removed ∧ c.apply a = x := by
  by_cases h : a ∈ c.removed
  · simp [get?_eq_none_iff.mpr h, h]
  · simp [get?_of_notMem h, apply_of_notMem h, h]

/-- Indices that stay keep their order, strictly. So the renumbering is one-to-one on them. -/
theorem get?_lt_get? (ha : c.get? a = some x) (hb : c.get? b = some y) (h : a < b) : x < y := by
  obtain ⟨hna, rfl⟩ := get?_eq_some_iff.mp ha
  obtain ⟨hnb, rfl⟩ := get?_eq_some_iff.mp hb
  exact c.apply_lt hna hnb h

theorem get?_inj (ha : c.get? a = some x) (hb : c.get? b = some x) : a = b := by
  obtain ⟨hna, ea⟩ := get?_eq_some_iff.mp ha
  obtain ⟨hnb, eb⟩ := get?_eq_some_iff.mp hb
  exact c.apply_inj hna hnb (ea.trans eb.symm)

/-- The numbers of the indices that stay are those below their count. -/
theorem exists_get?_iff (size : Nat) :
    (∃ old < size, c.get? old = some x) ↔ x < size - c.below size := by
  rw [← List.mem_range, ← filterMap_get?_range, List.mem_filterMap]
  simp only [List.mem_range]

/-- **A renumbering without gaps is determined by what it removes.**  In front of any index both
have used up the same first numbers, so there they also give the same one. -/
theorem eq_of_closes_gaps {f g : Nat → Option Nat}
    (hf : ∀ size, ∃ left, (List.range size).filterMap f = List.range left)
    (hg : ∀ size, ∃ left, (List.range size).filterMap g = List.range left)
    (h : ∀ old, f old = none ↔ g old = none) : f = g := by
  have hlist : ∀ size, (List.range size).filterMap f = (List.range size).filterMap g := by
    intro size
    obtain ⟨left, ef⟩ := hf size
    obtain ⟨left', eg⟩ := hg size
    have hlength : ((List.range size).filterMap f).length
        = ((List.range size).filterMap g).length := by
      rw [List.length_filterMap_eq_countP, List.length_filterMap_eq_countP]
      refine List.countP_congr fun old _ => ?_
      rw [Option.isSome_iff_ne_none, Option.isSome_iff_ne_none, ne_eq, ne_eq, h]
    rw [ef, eg, List.length_range, List.length_range] at hlength
    rw [ef, eg, hlength]
  funext old
  have hnext := hlist (old + 1)
  rw [List.range_succ, List.filterMap_append, List.filterMap_append, hlist old,
    List.append_cancel_left_eq] at hnext
  cases hfo : f old with
  | none => exact ((h old).mp hfo).symm
  | some new =>
    have hgo : g old ≠ none := fun hgo => by simp [(h old).mpr hgo] at hfo
    obtain ⟨new', hgo⟩ := Option.ne_none_iff_exists'.mp hgo
    simpa [hfo, hgo] using hnext

/-- **Removing in two steps.**  Those of the second list that are still there are named by the
numbers that they have after the first step. -/
theorem get?_removing_append (indices more : List Nat) :
    (removing (indices ++ more)).get?
      = fun old => ((removing indices).get? old).bind
          (removing (more.filterMap (removing indices).get?)).get? := by
  refine eq_of_closes_gaps (fun size => ⟨_, filterMap_get?_range _ size⟩) (fun size => ?_)
    fun old => ?_
  · rw [← List.filterMap_filterMap, filterMap_get?_range, filterMap_get?_range]
    exact ⟨_, rfl⟩
  · rw [get?_eq_none_iff, mem_removing, List.mem_append]
    cases hold : (removing indices).get? old with
    | none =>
      rw [get?_eq_none_iff, mem_removing] at hold
      simp [hold]
    | some new =>
      have hstays : old ∉ indices := by
        rw [← mem_removing]
        exact (get?_eq_some_iff.mp hold).1
      rw [Option.bind_some, get?_eq_none_iff, mem_removing, List.mem_filterMap, or_iff_right hstays]
      -- an index has the new number of `old` only if it is `old`
      constructor
      · exact fun h => ⟨old, h, hold⟩
      · rintro ⟨other, h, hother⟩
        rwa [get?_inj hold hother]

/-! ## 3. The renumbering

Everything about it in one statement, for any list of indices. -/

/-- **Removal closes the gaps, keeps the order and can be done in steps**, for every list of
indices.

Exactly the listed indices have no new number.  Any other moves down by the number of distinct
listed indices below it, which is never more than the index itself; to find its place among the
sorted ones and subtract that gives the same, and the difference is never negative.  Of a table of
any size, those that stay are mapped in their order onto all numbers below their count.  Two lists
can be removed together, or the second after the first, with the new numbers of what is left of
it. -/
theorem removing_renumbers (indices : List Nat) :
    (∀ old, distinctBelow indices old ≤ old ∧
      (removing indices).get? old
        = (if old ∈ indices then none else some (old - distinctBelow indices old)) ∧
      Positional.remapIndex (removing indices) old = .ok ((removing indices).get? old)) ∧
    (∀ old old' new new', (removing indices).get? old = some new →
      (removing indices).get? old' = some new' → old < old' → new < new') ∧
    (∀ size new, (∃ old < size, (removing indices).get? old = some new) ↔
      new < size - distinctBelow indices size) ∧
    ∀ more, (removing (indices ++ more)).get?
      = fun old => ((removing indices).get? old).bind
          (removing (more.filterMap (removing indices).get?)).get? := by
  refine ⟨fun old => ⟨distinctBelow_le indices old, get?_removing indices old, ?_⟩,
    fun old old' new new' hold hold' => get?_lt_get? hold hold', fun size new => ?_,
    get?_removing_append indices⟩
  · exact Positional.remapIndex_eq _ old
  · rw [exists_get?_iff, below_removing]

end WasmTrim.Compaction
