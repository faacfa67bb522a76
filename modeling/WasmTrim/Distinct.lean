/-
# Sorting by a key without repetitions

`sortDistinct key l` lists the entries of `l` in the order of their keys and keeps one entry
for each key, the first that has it.  The result is strictly increasing
(`pairwise_sortDistinct`), holds only entries of `l`, and misses no key
(`key_mem_sortDistinct`).

Two parts of the library sort in this way: a renumbering keeps the removed indices sorted and
without repetitions (`Compaction.removing`), and a table of locals is made from a list of them by
sorting on their names, the last of each name surviving (`LocalTable.ofList`).  Both carry the
order as a field, so the three properties above are all that is known of `sortDistinct`
elsewhere.

The sort is stable, so that "the first that has it" makes sense; after it, entries of one key
stand next to each other, and taking the head of each run finishes the work (`runHeads`).
-/

namespace WasmTrim

/-! ## 1. Runs of equal keys

In any list, dropping what repeats the key before it.  Only on a sorted list does this leave each
key once. -/

section

variable {α κ : Type} [DecidableEq κ]

/-- The first entry of each run of equal keys, where `a` has begun a run. -/
def runHeads (key : α → κ) (a : α) : List α → List α
  | [] => [a]
  | b :: l => if key a = key b then runHeads key a l else a :: runHeads key b l

theorem mem_of_mem_runHeads (key : α → κ) {x : α} : ∀ {a : α} {l : List α},
    x ∈ runHeads key a l → x ∈ a :: l
  | _, [], h => h
  | _, _ :: _, h => by
    simp only [runHeads] at h
    split at h
    · rcases List.mem_cons.mp (mem_of_mem_runHeads key h) with h | h <;> simp [h]
    · rcases List.mem_cons.mp h with h | h
      · simp [h]
      · exact List.mem_cons_of_mem _ (mem_of_mem_runHeads key h)

/-- The heads have all keys of the list. -/
theorem key_mem_runHeads (key : α → κ) {x : α} : ∀ {a : α} {l : List α},
    x ∈ a :: l → ∃ y ∈ runHeads key a l, key y = key x
  | _, [], h => ⟨x, h, rfl⟩
  | a, b :: l, h => by
    simp only [runHeads]
    split
    · rename_i hab
      rcases List.mem_cons.mp h with rfl | h
      · exact key_mem_runHeads key List.mem_cons_self
      · rcases List.mem_cons.mp h with rfl | h
        · obtain ⟨y, hy, e⟩ := key_mem_runHeads key (List.mem_cons_self (a := a) (l := l))
          exact ⟨y, hy, e.trans hab⟩
        · exact key_mem_runHeads key (List.mem_cons_of_mem _ h)
    · rcases List.mem_cons.mp h with rfl | h
      · exact ⟨x, List.mem_cons_self, rfl⟩
      · obtain ⟨y, hy, e⟩ := key_mem_runHeads key h
        exact ⟨y, List.mem_cons_of_mem _ hy, e⟩

/-- In a sorted list the keys of the heads increase strictly. -/
theorem pairwise_runHeads [LE κ] [LT κ] [Std.IsLinearOrder κ] [Std.LawfulOrderLT κ]
    (key : α → κ) : ∀ {a : α} {l : List α}, (a :: l).Pairwise (fun x y => key x ≤ key y) →
      (runHeads key a l).Pairwise (fun x y => key x < key y)
  | _, [], _ => List.pairwise_singleton _ _
  | _, b :: l, h => by
    obtain ⟨ha, hb⟩ := List.pairwise_cons.mp h
    simp only [runHeads]
    split
    · exact pairwise_runHeads key (List.pairwise_cons.mpr
        ⟨fun x hx => ha x (List.mem_cons_of_mem _ hx), (List.pairwise_cons.mp hb).2⟩)
    · rename_i hab
      have hlt := Std.lt_of_le_of_ne (ha b List.mem_cons_self) hab
      refine List.pairwise_cons.mpr ⟨fun x hx => ?_, pairwise_runHeads key hb⟩
      rcases List.mem_cons.mp (mem_of_mem_runHeads key hx) with rfl | hx
      · exact hlt
      · exact Std.lt_of_lt_of_le hlt ((List.pairwise_cons.mp hb).1 x hx)

end

/-! ## 2. Sorting

Sorted and thinned.  The keys are linearly ordered, so "not larger" and "not equal" make
"smaller". -/

section

variable {α κ : Type} [DecidableEq κ] [LE κ] [DecidableLE κ]

/-- The entries in the order of their keys, the first of each key only. -/
def sortDistinct (key : α → κ) (l : List α) : List α :=
  match l.mergeSort fun a b => decide (key a ≤ key b) with
  | [] => []
  | a :: rest => runHeads key a rest

theorem mem_of_mem_sortDistinct {key : α → κ} {l : List α} {x : α}
    (h : x ∈ sortDistinct key l) : x ∈ l := by
  have hp := l.mergeSort_perm fun a b => decide (key a ≤ key b)
  simp only [sortDistinct] at h
  split at h
  · simp at h
  · rename_i e
    exact hp.mem_iff.mp (e ▸ mem_of_mem_runHeads key h)

/-- Every key is kept: for each item there is one in the result with the same key, though it need
not be that item. -/
theorem key_mem_sortDistinct (key : α → κ) {l : List α} {x : α} (h : x ∈ l) :
    ∃ y ∈ sortDistinct key l, key y = key x := by
  have hp := l.mergeSort_perm fun a b => decide (key a ≤ key b)
  have hx := hp.mem_iff.mpr h
  simp only [sortDistinct]
  split
  · rename_i e
    simp [e] at hx
  · rename_i e
    exact key_mem_runHeads key (e ▸ hx)

/-- The keys increase strictly, which is both that the result is sorted and that no key is repeated.
-/
theorem pairwise_sortDistinct [LT κ] [Std.IsLinearOrder κ] [Std.LawfulOrderLT κ]
    (key : α → κ) (l : List α) : (sortDistinct key l).Pairwise (fun x y => key x < key y) := by
  have hs := @List.pairwise_mergeSort _ (fun a b => decide (key a ≤ key b))
    (fun _ _ _ hab hbc => decide_eq_true
      (Std.le_trans (of_decide_eq_true hab) (of_decide_eq_true hbc)))
    (fun a b => by
      rcases @Std.le_total _ _ _ (key a) (key b) with h | h <;> simp [h]) l
  simp only [sortDistinct]
  split
  · exact .nil
  · rename_i e
    exact pairwise_runHeads key ((e ▸ hs).imp of_decide_eq_true)

end

end WasmTrim
