/-
# Local tables without gaps

A table is *contiguous* when its indices are the numbers below its size, each once.  Then an
index determines a local, and the types of the locals in the order of their indices say
everything that a body can see of the table (`LocalTable.types`).

What happens to a table keeps it so: removing locals closes the gaps
(`LocalTable.compact_contiguous`), where a local that stays keeps its type under its new index
(`LocalTable.types_compact`), and a new local is put behind the others (`LocalTable.declare_new`).

The assembler asks for contiguous tables (`has_contiguous_locals`), and every theorem on what a
function does assumes one whose first indices are those of the parameters
(`Function.DeclaresParams`).  With that the locals of a running function are a list: the arguments,
then zeros for the types behind the parameters, and local `i` is entry `i`.

The renumbering is treated on numbers first, apart from tables.  Its core is a count: below an
index that stays there are as many indices that stay as its new number says, so the new numbers of
those that stay are the numbers from zero on, each once and in the same order.
-/
import WasmTrim.Program.Function

namespace WasmTrim

/-! ## 1. Renumbering

The indices that are left are renumbered in their order (`get`).  On them the renumbering is
increasing, hence injective, and its values are the first numbers, without gaps. -/

namespace Compaction

variable (c : Compaction)

theorem removed_nodup : c.removed.Nodup := c.increasing.imp fun h => Nat.ne_of_lt h

/-- One index more is passed when it is a removed one. -/
theorem below_succ (n : Nat) : c.below (n + 1) = c.below n + if n ∈ c.removed then 1 else 0 := by
  unfold below
  have hsplit : ∀ l : List Nat, l.Nodup →
      l.countP (· < n + 1) = l.countP (· < n) + if n ∈ l then 1 else 0 := by
    intro l hl
    induction l with
    | nil => simp
    | cons a l ih =>
      obtain ⟨ha, hl⟩ := List.nodup_cons.mp hl
      have ih := ih hl
      simp only [List.countP_cons, List.mem_cons, decide_eq_true_eq]
      by_cases hn : n = a
      · subst hn
        simp only [ha, if_false] at ih
        simp only [ih, Nat.lt_succ_self, if_true, Nat.lt_irrefl, if_false, true_or]
      · simp only [ih, hn, false_or]
        have : (a < n + 1) ↔ (a < n) := by omega
        simp only [this]
        omega
  exact hsplit c.removed c.removed_nodup

theorem below_le (n : Nat) : c.below n ≤ n := by
  induction n with
  | zero => simp [below]
  | succ n ih =>
    rw [below_succ]
    split <;> omega

/-- **The indices that stay close the gaps.** Renumbered in their order, they are the numbers from
zero on, as many as have stayed. -/
theorem filterMap_get?_range (n : Nat) :
    (List.range n).filterMap c.get? = List.range (n - c.below n) := by
  induction n with
  | zero => simp
  | succ n ih =>
    have hle := c.below_le n
    rw [List.range_succ, List.filterMap_append, ih, below_succ]
    by_cases hn : n ∈ c.removed
    · rw [if_pos hn]
      simp only [List.filterMap_cons, List.filterMap_nil, get?_eq_none_iff.mpr hn, List.append_nil]
      congr 1
      omega
    · have e : n + 1 - (c.below n + 0) = n - c.below n + 1 := by omega
      rw [if_neg hn, e, List.range_succ]
      simp only [List.filterMap_cons, List.filterMap_nil, get?_of_notMem hn]

/-- The indices that stay keep their order, and in particular no two of them become one. -/
theorem apply_lt {a b : Nat} (ha : a ∉ c.removed) (hb : b ∉ c.removed) (h : a < b) :
    c.apply a < c.apply b := by
  rw [apply_of_notMem ha, apply_of_notMem hb]
  have h₁ := c.below_succ a
  rw [if_neg ha] at h₁
  have hgap : ∀ k, c.below (a + 1 + k) ≤ c.below (a + 1) + k := by
    intro k
    induction k with
    | zero => exact Nat.le_refl _
    | succ k ih =>
      have := c.below_succ (a + 1 + k)
      rw [show a + 1 + (k + 1) = a + 1 + k + 1 by omega]
      split at this <;> omega
  have h₂ := hgap (b - (a + 1))
  rw [show a + 1 + (b - (a + 1)) = b by omega] at h₂
  have h₃ := c.below_le a
  omega

theorem apply_inj {a b : Nat} (ha : a ∉ c.removed) (hb : b ∉ c.removed)
    (h : c.apply a = c.apply b) : a = b := by
  rcases Nat.lt_trichotomy a b with hlt | rfl | hlt
  · exact absurd h (Nat.ne_of_lt (c.apply_lt ha hb hlt))
  · rfl
  · exact absurd h.symm (Nat.ne_of_lt (c.apply_lt hb ha hlt))

/-- An index that stays is below the new bound when it was below the old one. -/
theorem apply_lt_of_lt {a n : Nat} (ha : a ∉ c.removed) (h : a < n) :
    c.apply a < n - c.below n := by
  rw [← List.mem_range, ← filterMap_get?_range, List.mem_filterMap]
  exact ⟨a, List.mem_range.mpr h, by rw [get?_of_notMem ha, apply_of_notMem ha]⟩

/-- Indices below all removed ones stay as they are; the parameters are of this kind. -/
theorem apply_of_forall_le {a m : Nat} (h : ∀ i ∈ c.removed, m ≤ i) (ha : a < m) :
    c.apply a = a := by
  have hn : a ∉ c.removed := fun hm => by
    have := h a hm
    omega
  have hz : c.below a = 0 := List.countP_eq_zero.mpr fun i hi => by
    have := h i hi
    simp only [decide_eq_true_eq]
    omega
  rw [apply_of_notMem hn, hz, Nat.sub_zero]

/-- Without one index, only those above it move, by one. The index itself stays where it is, though
nothing may be found there. -/
theorem apply_removing_one (a i : Nat) :
    (removing [a]).apply i = if a < i then i - 1 else i := by
  have hr : (removing [a]).removed = [a] := by simp [removing, sortDistinct, runHeads]
  simp only [apply, get?, below, hr, List.mem_singleton, List.countP_cons, List.countP_nil,
    decide_eq_true_eq]
  by_cases h : i = a
  · simp [h]
  · rw [if_neg h]
    split <;> simp

end Compaction

/-! ## 2. Contiguous tables

A table is sorted by name, and what counts is the order of the indices.  In a contiguous table
(`has_contiguous_locals`) there is one local for each number below the size, so that the types by
index say everything about it. -/

namespace LocalTable

variable {t : LocalTable}

theorem byIndex_perm (t : LocalTable) : t.byIndex.Perm t.entries := List.mergeSort_perm _ _

theorem byIndex_pairwise (t : LocalTable) :
    t.byIndex.Pairwise fun a b => a.index ≤ b.index := by
  have h := @List.pairwise_mergeSort _ (fun a b : Local => decide (a.index ≤ b.index))
    (fun a b c hab hbc => by simp only [decide_eq_true_eq] at *; omega)
    (fun a b => by simp only [Bool.or_eq_true, decide_eq_true_eq]; omega) t.entries
  exact h.imp of_decide_eq_true

/-- **A table is contiguous** exactly when its indices are the numbers below its size in some
order. -/
theorem isContiguous_iff :
    t.isContiguous = true ↔ (t.entries.map Local.index).Perm (List.range t.size) := by
  have hp : (t.byIndex.map Local.index).Perm (t.entries.map Local.index) :=
    (byIndex_perm t).map _
  constructor
  · intro h
    have e : t.byIndex.map Local.index = List.range t.size := of_decide_eq_true h
    exact hp.symm.trans (e ▸ .refl _)
  · intro h
    refine decide_eq_true (List.Perm.eq_of_pairwise (fun a b _ _ => Nat.le_antisymm)
      (List.pairwise_map.mpr t.byIndex_pairwise) ?_ (hp.trans h))
    exact List.pairwise_le_range

theorem map_index_byIndex (h : t.isContiguous) :
    t.byIndex.map Local.index = List.range t.size := of_decide_eq_true h

/-- The types of the locals in the order of their indices. -/
def types (t : LocalTable) : List ValueType := t.byIndex.map Local.type

theorem length_types (t : LocalTable) : t.types.length = t.size := by
  rw [types, List.length_map, (byIndex_perm t).length_eq, size]

theorem index_eq_of_map_index {ls : List Local} {n : Nat} (h : ls.map Local.index = List.range n)
    {j : Nat} {l : Local} (hl : ls[j]? = some l) : l.index = j := by
  have hj : (ls.map Local.index)[j]? = some l.index := by simp [hl]
  rw [h] at hj
  obtain ⟨hlt, e⟩ := List.getElem?_eq_some_iff.mp hj
  rw [List.getElem_range] at e
  exact e.symm

/-- In a contiguous table an index determines a local, and every index below the number of locals
has one. -/
theorem getElem?_byIndex (h : t.isContiguous) {i : Nat} {l : Local} :
    t.byIndex[i]? = some l ↔ l ∈ t.entries ∧ l.index = i := by
  have hidx : ∀ {j : Nat} {l : Local}, t.byIndex[j]? = some l → l.index = j :=
    index_eq_of_map_index (map_index_byIndex h)
  constructor
  · intro hl
    exact ⟨(byIndex_perm t).mem_iff.mp (List.mem_of_getElem? hl), hidx hl⟩
  · rintro ⟨hm, rfl⟩
    obtain ⟨j, hj⟩ := List.getElem?_of_mem ((byIndex_perm t).mem_iff.mpr hm)
    rw [hidx hj]
    exact hj

/-- The locals in the order of their indices, when the order is known. -/
theorem byIndex_eq_of_perm {ls : List Local} (hp : ls.Perm t.entries)
    (hi : ls.map Local.index = List.range ls.length) : t.byIndex = ls := by
  have hc : t.isContiguous := by
    rw [isContiguous_iff, size, ← hp.length_eq, ← hi]
    exact (hp.map _).symm
  refine List.ext_getElem? fun i => Option.ext fun l => (getElem?_byIndex hc).trans ⟨?_, ?_⟩
  · rintro ⟨hl, rfl⟩
    obtain ⟨j, hj⟩ := List.getElem?_of_mem (hp.mem_iff.mpr hl)
    rw [index_eq_of_map_index hi hj]
    exact hj
  · intro hl
    exact ⟨hp.mem_iff.mp (List.mem_of_getElem? hl), index_eq_of_map_index hi hl⟩

theorem getElem?_types (h : t.isContiguous) {i : Nat} {τ : ValueType} :
    t.types[i]? = some τ ↔ ∃ l ∈ t.entries, l.index = i ∧ l.type = τ := by
  rw [types, List.getElem?_map, Option.map_eq_some_iff]
  constructor
  · rintro ⟨l, hl, rfl⟩
    obtain ⟨hm, hi⟩ := (getElem?_byIndex h).mp hl
    exact ⟨l, hm, hi, rfl⟩
  · rintro ⟨l, hm, hi, rfl⟩
    exact ⟨l, (getElem?_byIndex h).mpr ⟨hm, hi⟩, rfl⟩

theorem index_lt (h : t.isContiguous) {l : Local} (hl : l ∈ t.entries) : l.index < t.size :=
  List.mem_range.mp ((isContiguous_iff.mp h).mem_iff.mp (List.mem_map_of_mem hl))

/-- The locals from an index on are those behind the others. -/
theorem filter_byIndex (h : t.isContiguous) (n : Nat) :
    t.byIndex.filter (fun l => n ≤ l.index) = t.byIndex.drop n := by
  have hat : ∀ {i : Nat} {l : Local}, t.byIndex[i]? = some l → l.index = i :=
    fun e => ((getElem?_byIndex h).mp e).2
  have htake : (t.byIndex.take n).filter (fun l => n ≤ l.index) = [] := by
    rw [List.filter_eq_nil_iff]
    intro l hl
    obtain ⟨i, hi⟩ := List.getElem?_of_mem hl
    rw [List.getElem?_take] at hi
    split at hi
    · rw [hat hi]
      simp only [decide_eq_true_eq]
      omega
    · cases hi
  have hdrop : (t.byIndex.drop n).filter (fun l => n ≤ l.index) = t.byIndex.drop n := by
    rw [List.filter_eq_self]
    intro l hl
    obtain ⟨i, hi⟩ := List.getElem?_of_mem hl
    rw [List.getElem?_drop] at hi
    rw [hat hi]
    simp
  conv => lhs; rw [← List.take_append_drop n t.byIndex]
  rw [List.filter_append, htake, List.nil_append, hdrop]

/-! ## 3. Removing locals

Entries go, and those that stay are renumbered (`eliminate`).  No name is touched, so the table
stays sorted. -/

/-- **Removing locals closes the gaps.** A table without gaps has none afterwards, and is smaller by
as many locals as were removed from it. -/
theorem compact_contiguous (h : t.isContiguous) (c : Compaction) :
    (t.compact c).isContiguous ∧ (t.compact c).size = t.size - c.below t.size := by
  have hmap : (t.compact c).entries.map Local.index
      = (t.entries.map Local.index).filterMap c.get? := by
    simp only [compact, List.map_filterMap, List.filterMap_map]
    refine congrArg (List.filterMap · t.entries) (funext fun l => ?_)
    simp only [Local.compact?, Function.comp]
    cases c.get? l.index <;> rfl
  have hperm : ((t.compact c).entries.map Local.index).Perm
      (List.range (t.size - c.below t.size)) := by
    rw [hmap, ← c.filterMap_get?_range]
    exact (isContiguous_iff.mp h).filterMap _
  have hsize : (t.compact c).size = t.size - c.below t.size := by
    have := hperm.length_eq
    simpa [size] using this
  exact ⟨isContiguous_iff.mpr (hsize ▸ hperm), hsize⟩

theorem mem_compact {c : Compaction} {l : Local} :
    l ∈ (t.compact c).entries ↔ ∃ k ∈ t.entries, k.index ∉ c.removed ∧
      l = { k with index := c.apply k.index } := by
  simp only [compact, List.mem_filterMap, Local.compact?, Option.map_eq_some_iff]
  constructor
  · rintro ⟨k, hk, i, hi, rfl⟩
    have hn : k.index ∉ c.removed := fun hm => by
      rw [Compaction.get?_eq_none_iff.mpr hm] at hi
      cases hi
    refine ⟨k, hk, hn, ?_⟩
    rw [Compaction.get?_of_notMem hn] at hi
    rw [Compaction.apply_of_notMem hn, Option.some.inj hi]
  · rintro ⟨k, hk, hn, rfl⟩
    exact ⟨k, hk, _, Compaction.get?_of_notMem hn, by rw [Compaction.apply_of_notMem hn]⟩

/-- **A local that stays keeps its type**, which is found at its new index. -/
theorem types_compact (h : t.isContiguous) (c : Compaction) {i : Nat} (hi : i ∉ c.removed) :
    i < t.size → (t.compact c).types[c.apply i]? = t.types[i]? := by
  intro hlt
  have hlt' : i < t.types.length := by rwa [length_types]
  obtain ⟨l, hl, rfl, hτ⟩ := (getElem?_types h).mp (List.getElem?_eq_getElem hlt')
  rw [List.getElem?_eq_getElem hlt', getElem?_types (compact_contiguous h c).1]
  exact ⟨{ l with index := c.apply l.index }, mem_compact.mpr ⟨l, hl, hi, rfl⟩, rfl, hτ⟩

/-! ## 4. Adding locals

A name that is there adds nothing, and a new one adds the index that is the size of the table. -/

theorem find?_eq_none {name : String} : t.find? name = none ↔ ∀ l ∈ t.entries, l.name ≠ name := by
  simp [find?]

theorem mem_of_find? {name : String} {l : Local} (h : t.find? name = some l) :
    l ∈ t.entries ∧ l.name = name :=
  ⟨List.mem_of_find?_eq_some h, by simpa using List.find?_some h⟩

/-- The next index of a contiguous table is its size. -/
theorem nextIndex_of_contiguous (h : t.isContiguous) :
    t.nextIndex = if t.size < indexLimit then .ok t.size else .error .localIndexOverflow := by
  have hfold : ∀ (ls : List Local) (n : Nat), n ≤ t.size → (∀ l ∈ ls, l.index < t.size) →
      (n = t.size ∨ ∃ l ∈ ls, l.index + 1 = t.size) →
      ls.foldl (fun n l => max n (l.index + 1)) n = t.size := by
    intro ls
    induction ls with
    | nil =>
      intro n _ _ hmax
      rcases hmax with e | ⟨l, hl, -⟩
      · exact e
      · cases hl
    | cons l ls ih =>
      intro n hn hlt hmax
      have hl := hlt l List.mem_cons_self
      rw [List.foldl_cons]
      refine ih (max n (l.index + 1)) (by omega) (fun k hk => hlt k (List.mem_cons_of_mem _ hk)) ?_
      rcases hmax with e | ⟨k, hk, e⟩
      · exact .inl (by omega)
      · rcases List.mem_cons.mp hk with rfl | hk
        · exact .inl (by omega)
        · exact .inr ⟨k, hk, e⟩
  -- some local is at the last index, if there is any local
  have hlast : t.size = 0 ∨ ∃ l ∈ t.entries, l.index + 1 = t.size := by
    by_cases hz : t.size = 0
    · exact .inl hz
    · have hm : t.size - 1 ∈ t.entries.map Local.index :=
        (isContiguous_iff.mp h).mem_iff.mpr (List.mem_range.mpr (by omega))
      obtain ⟨l, hl, e⟩ := List.mem_map.mp hm
      exact .inr ⟨l, hl, by omega⟩
  unfold nextIndex
  by_cases hs : t.size < indexLimit
  · rw [if_pos hs, if_neg, hfold t.entries 0 (Nat.zero_le _) (fun l hl => index_lt h hl)
      (hlast.imp Eq.symm id)]
    simp only [List.any_eq_true, decide_eq_true_eq, not_exists, not_and]
    intro l hl
    have := index_lt h hl
    omega
  · rw [if_neg hs, if_pos]
    simp only [List.any_eq_true, decide_eq_true_eq]
    rcases hlast with e | ⟨l, hl, e⟩
    · have : 0 < indexLimit := by decide
      omega
    · exact ⟨l, hl, by omega⟩

/-- A new name only adds an entry, at its place among the names; the others stay in their order. -/
theorem insert_perm {l : Local} (h : t.find? l.name = none) :
    (t.insert l).entries.Perm (l :: t.entries) := by
  rw [find?_eq_none] at h
  rw [entries_insert]
  generalize t.entries = ls at h
  induction ls with
  | nil => exact .refl _
  | cons x ls ih =>
    have hx := h x List.mem_cons_self
    simp only [insertByName]
    split
    · exact .refl _
    · split
      · have ih := ih fun k hk => h k (List.mem_cons_of_mem _ hk)
        exact (ih.cons x).trans (.swap l x ls)
      · rename_i hnlt hngt
        exact absurd (String.le_antisymm hnlt hngt) hx

/-- **A new local is put behind the others.** Its index is the size of the table, so that a table
without gaps has none with it either, and its type is the last one. -/
theorem insert_contiguous (h : t.isContiguous) {name : String} (type : ValueType)
    (hn : t.find? name = none) :
    (t.insert ⟨name, t.size, type⟩).isContiguous ∧
      (t.insert ⟨name, t.size, type⟩).types = t.types ++ [type] := by
  have hp := @insert_perm t ⟨name, t.size, type⟩ hn
  have hsize : (t.insert ⟨name, t.size, type⟩).size = t.size + 1 := hp.length_eq
  have hc : (t.insert ⟨name, t.size, type⟩).isContiguous := by
    rw [isContiguous_iff, hsize, List.range_succ]
    refine (hp.map Local.index).trans ?_
    rw [List.map_cons]
    exact ((isContiguous_iff.mp h).cons t.size).trans (List.perm_append_singleton _ _).symm
  refine ⟨hc, List.ext_getElem? fun i => Option.ext fun τ => ?_⟩
  rw [getElem?_types hc]
  simp only [hp.mem_iff, List.mem_cons]
  by_cases hi : i < t.size
  · rw [List.getElem?_append_left (by rwa [length_types]), getElem?_types h]
    constructor
    · rintro ⟨l, rfl | hl, rfl, e⟩
      · exact absurd hi (Nat.lt_irrefl _)
      · exact ⟨l, hl, rfl, e⟩
    · rintro ⟨l, hl, hli, e⟩
      exact ⟨l, .inr hl, hli, e⟩
  · rw [List.getElem?_append_right (by rw [length_types]; omega), length_types]
    by_cases he : i = t.size
    · subst he
      simp only [Nat.sub_self, List.getElem?_cons_zero, Option.some.injEq]
      constructor
      · rintro ⟨l, rfl | hl, hli, e⟩
        · exact e
        · exact absurd (hli ▸ index_lt h hl) (Nat.lt_irrefl _)
      · rintro rfl
        exact ⟨_, .inl rfl, rfl, rfl⟩
    · rw [List.getElem?_eq_none (by simp only [List.length_singleton]; omega)]
      simp only [reduceCtorEq, iff_false, not_exists, not_and]
      rintro l (rfl | hl) hli
      · exact absurd hli.symm he
      · exact absurd (hli ▸ index_lt h hl) hi

/-- What `declare` does with a name that is there: the local of this name is used, whatever type it
has. The limit on indices is looked at all the same. -/
theorem declare_of_find? (h : t.isContiguous) {name : String} {type : ValueType} {l : Local}
    (hl : t.find? name = some l) :
    t.declare name type
      = if t.size < indexLimit then .ok (t, l.index) else .error .localIndexOverflow := by
  unfold declare
  rw [nextIndex_of_contiguous h, hl]
  split <;> rfl

/-- What `declare` does with a new name: the local gets the first free index, if there is one. -/
theorem declare_new (h : t.isContiguous) {name : String} {type : ValueType}
    (hl : t.find? name = none) :
    t.declare name type
      = if t.size < indexLimit then .ok (t.insert ⟨name, t.size, type⟩, t.size)
        else .error .localIndexOverflow := by
  unfold declare
  rw [nextIndex_of_contiguous h, hl]
  split <;> rfl

end LocalTable

/-! ## 5. Functions

The binary declares the locals from the number of parameters on (`local_types`).  With the
parameters in front these are all the locals, if the parameters are the first of them. -/

/-- In a contiguous table the other locals are those behind the parameters. -/
theorem Function.localTypes_of_contiguous {f : Function} (h : f.locals.isContiguous) :
    f.localTypes = f.locals.types.drop f.paramCount := by
  rw [localTypes, LocalTable.filter_byIndex h, LocalTable.types, List.map_drop]

/-- **The parameters are the first locals**: the table is contiguous, and the types at its first
indices are those of the parameters. -/
structure Function.DeclaresParams (f : Function) : Prop where
  contiguous : f.locals.isContiguous
  params : f.params <+: f.locals.types

namespace Function.DeclaresParams

variable {f : Function}

/-- The other locals are those behind the parameters, which is how the binary lists them
(`local_types`). -/
theorem localTypes (h : f.DeclaresParams) : f.localTypes = f.locals.types.drop f.paramCount :=
  localTypes_of_contiguous h.contiguous

/-- **The locals of a function are its table**: the parameters and the types of the locals behind
them are the types of the table, in the order of the indices. -/
theorem append_localTypes (h : f.DeclaresParams) : f.params ++ f.localTypes = f.locals.types := by
  obtain ⟨rest, e⟩ := h.params
  rw [h.localTypes, ← e, paramCount, List.drop_left]

theorem paramCount_le (h : f.DeclaresParams) : f.paramCount ≤ f.locals.size := by
  rw [← LocalTable.length_types]
  exact h.params.length_le

end Function.DeclaresParams

end WasmTrim
