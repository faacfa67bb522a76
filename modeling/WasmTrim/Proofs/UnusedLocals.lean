/-
# Dead locals go in one pass

A function is *trimmed* when every local that is not a parameter is read if it is written, and used
if it is declared (`DeadLocals.Trimmed`).  These are the functions that the removal of dead locals
leaves alone (`DeadLocals.not_changed_iff_trimmed`), and its result is always one of them
(`DeadLocals.trimmed_eliminate`), whatever the function was: its table may skip or repeat indices,
and its body may use locals that are not declared.

A local that stays is counted as often after the renumbering as before it: only locals that nothing
uses are removed, and no two of the others are given the same index
(`DeadLocals.uses_removeLocals`, `DeadLocals.reads_removeLocals`).

The delicate point is an index that the body uses and the table does not have.  It is not removed,
so it is renumbered with the others, and it must not be given the number of one that is in the
table.  It is not, as the renumbering is injective on everything that stays.  If it is stored to and
never read, its stores go like any others.

Whether an index is that of a parameter is asked before and after the renumbering.  The answers
agree, since nothing below the number of parameters is ever removed.
-/
import WasmTrim.Proofs.Semantics.DeadLocals
import WasmTrim.Proofs.Termination

namespace WasmTrim.DeadLocals

variable {f : Function}

/-! ## 1. Functions without dead locals

Trimmed means that every local which is not a parameter is read, and that no store goes to a local
that is not.  That is the form that the pass works towards (`eliminate`). -/

/-- **A function is trimmed**: no local behind the parameters is written and not read, and none is
declared and not used. -/
structure Trimmed (f : Function) : Prop where
  read : ∀ i ∈ f.body, ∀ l, i.op.storedLocal? = some l → f.paramCount ≤ l → 0 < f.body.reads l
  used : ∀ l ∈ f.locals.entries, f.paramCount ≤ l.index → 0 < f.body.uses l.index

/-- The pass reports no change exactly if it finds no dead store and no unused local. -/
theorem not_changed_iff : (eliminate f).2.1 = false ↔
    f.body.any (writes (isUnread f)) = false ∧ unused (dropStores f) = [] := by
  simp only [eliminate]
  split
  · rename_i h
    simp [List.isEmpty_iff.mp h]
  · rename_i h
    simpa using fun _ => h

/-- A local that is used but not read is written. -/
theorem exists_store {l : Nat} (hused : 0 < f.body.uses l) (hread : f.body.reads l = 0) :
    ∃ i ∈ f.body, i.op.storedLocal? = some l := by
  obtain ⟨i, hi, hl⟩ := List.countP_pos_iff.mp hused
  refine ⟨i, hi, ?_⟩
  rcases Op.localIndex?_eq_some.mp (of_decide_eq_true hl) with hget | hstored
  · exact absurd (decide_eq_true hget) (List.countP_eq_zero.mp hread i hi)
  · exact hstored

/-- **The pass leaves exactly the trimmed functions alone.** So its report of a change can be relied
on in both directions. -/
theorem not_changed_iff_trimmed : (eliminate f).2.1 = false ↔ Trimmed f := by
  rw [not_changed_iff, List.any_eq_false]
  constructor
  · rintro ⟨hstores, hunused⟩
    have hread : ∀ i ∈ f.body, ∀ l, i.op.storedLocal? = some l → ¬ isUnread f l := by
      intro i hi l hl hdead
      exact hstores i hi (by simp [writes, hl, hdead])
    constructor
    · intro i hi l hl hp
      refine Nat.pos_of_ne_zero fun hz => hread i hi l hl ?_
      exact isUnread_iff.mpr ⟨hp, hz⟩
    · intro l hl hp
      -- a local that is not used is not read either, so it would have gone
      refine Nat.pos_of_ne_zero fun hz => ?_
      have hreads : f.body.reads l.index = 0 := by
        have := f.body.reads_le_uses l.index
        omega
      have hgoes : l.index ∈ unused (dropStores f) :=
        mem_unused_dropStores.mpr ⟨⟨l, hl, rfl⟩, isUnread_iff.mpr ⟨hp, hreads⟩⟩
      rw [hunused] at hgoes
      cases hgoes
  · intro h
    constructor
    · intro i hi hwrites
      simp only [writes, Option.any_eq_true] at hwrites
      obtain ⟨l, hl, hdead⟩ := hwrites
      obtain ⟨hp, hz⟩ := isUnread_iff.mp hdead
      have := h.read i hi l hl hp
      omega
    · refine List.eq_nil_iff_forall_not_mem.mpr fun l hl => ?_
      obtain ⟨⟨k, hk, rfl⟩, hdead⟩ := mem_unused_dropStores.mp hl
      obtain ⟨hp, hz⟩ := isUnread_iff.mp hdead
      obtain ⟨i, hi, hstored⟩ := exists_store (h.used k hk hp) hz
      have := h.read i hi k.index hstored hp
      omega

/-! ## 2. What is counted

Uses are counted per index, and indices are renumbered; so it has to be seen that the counts go with
the locals. -/

section

variable {l : Nat}

/-- Nothing else is given the new index of a local that stays. -/
theorem apply_eq_iff {i : Instr} {k : Nat} (hi : i ∈ f.body) (hk : i.op.localIndex? = some k)
    (hl : l ∉ unused f) :
    let c := Compaction.removing (unused f)
    c.apply k = c.apply l ↔ k = l := by
  intro c
  constructor
  · intro e
    refine Compaction.apply_inj _ ?_ ?_ e
    · exact fun hm => notMem_unused hi hk (Compaction.mem_removing.mp hm)
    · exact fun hm => hl (Compaction.mem_removing.mp hm)
  · rintro rfl
    rfl

/-- **The renumbering carries the uses over**, of every local that stays. Different locals have
different new numbers, so no uses are added up. -/
theorem uses_removeLocals (hl : l ∉ unused f) :
    (removeLocals f (unused f)).body.uses ((Compaction.removing (unused f)).apply l)
      = f.body.uses l := by
  rw [removeLocals, Function.compactLocals, Body.uses, List.countP_map]
  refine List.countP_congr fun i hi => ?_
  simp only [Function.comp_apply, Instr.op_mapLocal, Op.localIndex?_mapLocal, decide_eq_true_eq]
  cases hk : i.op.localIndex? with
  | none => simp
  | some k => simp [apply_eq_iff hi hk hl]

/-- **The renumbering carries the readings over**, of every local that stays, for the same reason as
the uses. -/
theorem reads_removeLocals (hl : l ∉ unused f) :
    (removeLocals f (unused f)).body.reads ((Compaction.removing (unused f)).apply l)
      = f.body.reads l := by
  rw [removeLocals, Function.compactLocals, Body.reads, List.countP_map]
  refine List.countP_congr fun i hi => ?_
  rw [Function.comp_apply, decide_eq_true_iff, decide_eq_true_iff, Instr.op_mapLocal]
  cases hop : i.op with
  | localGet k =>
    have hk : i.op.localIndex? = some k := by rw [hop]; rfl
    simp [Op.mapLocal, apply_eq_iff hi hk hl]
  | _ => simp [Op.mapLocal]

end

/-- The renumbering keeps what is a parameter apart from what is none. -/
theorem le_of_le_apply {l : Nat} (h : f.paramCount ≤ (Compaction.removing (unused f)).apply l) :
    f.paramCount ≤ l := by
  rcases Nat.lt_or_ge l f.paramCount with hlt | hge
  · rw [apply_of_lt_paramCount hlt] at h
    omega
  · exact hge

/-! ## 3. The pass

No condition on the table or on the body is needed for the normal form, only for saying which locals
are left and in which order. -/

/-- **The pass leaves a trimmed function**, after one application and for any function at all. The
count that decides what goes is made after the dead stores are gone. -/
theorem trimmed_eliminate (f : Function) : Trimmed (eliminate f).1 := by
  rw [eliminate_eq]
  constructor
  · intro i hi l hl hp
    obtain ⟨j, hj, rfl⟩ := List.mem_map.mp hi
    rw [Instr.op_mapLocal, Op.storedLocal?_mapLocal] at hl
    obtain ⟨k, hk, rfl⟩ := Option.map_eq_some_iff.mp hl
    -- what was written is no parameter, so it was read
    have hle : f.paramCount ≤ k := le_of_le_apply (f := dropStores f) hp
    have hpos : f.body.reads k ≠ 0 := by
      intro hz
      exact not_isUnread_of_mem hj hk (isUnread_iff.mpr ⟨hle, hz⟩)
    have hstays : k ∉ unused (dropStores f) :=
      notMem_unused hj (Op.localIndex?_eq_some.mpr (.inr hk))
    rw [reads_removeLocals hstays, reads_dropStores]
    exact Nat.pos_of_ne_zero hpos
  · intro l hl hp
    obtain ⟨k, hk, hstays, rfl⟩ := LocalTable.mem_compact.mp hl
    rw [Compaction.mem_removing] at hstays
    rw [uses_removeLocals hstays]
    refine Nat.pos_of_ne_zero fun hz => hstays ?_
    exact mem_unused.mpr ⟨⟨k, hk, rfl⟩, le_of_le_apply hp, hz⟩

/-- The parameters stay, with their names, indices and types, even those that nothing uses. -/
theorem mem_eliminate_of_lt {l : Local} (hl : l ∈ f.locals.entries) (hp : l.index < f.paramCount) :
    l ∈ (eliminate f).1.locals.entries := by
  rw [eliminate_eq]
  refine LocalTable.mem_compact.mpr ⟨l, hl, fun hm => ?_, ?_⟩
  · have hle : f.paramCount ≤ l.index := (mem_unused.mp (Compaction.mem_removing.mp hm)).2.1
    omega
  · rw [apply_of_lt_paramCount (f := dropStores f) hp]

/-- A change is reported exactly if there is one, be it in the body or in the table of locals. -/
theorem changed_iff : (eliminate f).2.1 = true ↔ (eliminate f).1 ≠ f := by
  constructor
  · intro hchanged hsame
    have hfalls := (eliminate_lightens f).falls hchanged
    rw [hsame] at hfalls
    exact Nat.lt_irrefl _ hfalls
  · intro hne
    cases hchanged : (eliminate f).2.1 with
    | true => rfl
    | false => exact absurd (eliminate_unchanged hchanged) hne

/-- **The removal of dead locals reaches its normal form in one pass**, on any function.  The result
is trimmed, so a second pass does nothing; a change is reported exactly if there is one; and in a
table without gaps the locals that stay close the gaps again, the parameters in their places and
the others in the same order. -/
theorem eliminate_normalizes (f : Function) :
    let g := (eliminate f).1
    Trimmed g ∧ g = { f with locals := g.locals, body := g.body } ∧
      (eliminate g).2.1 = false ∧ (eliminate g).1 = g ∧
      ((eliminate f).2.1 = true ↔ g ≠ f) ∧
      (f.locals.isContiguous → g.locals.isContiguous ∧
        (∀ l ∈ f.locals.entries, l.index < f.paramCount → l ∈ g.locals.entries) ∧
        g.locals.byIndex = (f.locals.byIndex.filter fun l => !isUnread f l.index).mapIdx
          fun i l => { l with index := i }) := by
  intro g
  have htrimmed : Trimmed g := trimmed_eliminate f
  have hagain : (eliminate g).2.1 = false := not_changed_iff_trimmed.mpr htrimmed
  have hg : g = removeLocals (dropStores f) (unused (dropStores f)) := eliminate_eq f
  refine ⟨htrimmed, ?_, hagain, eliminate_unchanged hagain, changed_iff, fun h => ⟨?_, ?_, ?_⟩⟩
  · rw [hg]
    rfl
  · rw [hg]
    exact (LocalTable.compact_contiguous h _).1
  · intro l hl hp
    exact mem_eliminate_of_lt hl hp
  · exact byIndex_eliminate h

/-- A function whose table lacks the parameter, skips indices and has one twice, and whose body uses
locals that are not declared. -/
def scattered : Function where
  index := 0
  name := "scattered"
  params := [.i32]
  locals := ⟨[⟨"left", 5, .i32⟩, ⟨"other", 2, .i32⟩, ⟨"right", 5, .i32⟩], by decide +kernel⟩
  result := some .i32
  body := [.localGet 0, .localTee 2, .localSet 9, .localGet 7, .localSet 5, .localGet 5].map
    Op.plain
  throws := false
  usesMemory := false

theorem eliminate_normalizes_scattered :
    let g := (eliminate scattered).1
    g.body = [.localGet 0, .drop, .localGet 6, .localSet 4, .localGet 4].map Op.plain ∧
      g.locals.entries = [⟨"left", 4, .i32⟩, ⟨"right", 4, .i32⟩] ∧
      Trimmed g ∧ (eliminate g).1 = g ∧
      stash.locals.isContiguous ∧ (eliminate stash).1.locals.isContiguous := by
  intro g
  have hstash : stash.locals.isContiguous := LocalTable.isContiguous_iff.mpr (by decide +kernel)
  obtain ⟨htrimmed, -, -, hagain, -⟩ := eliminate_normalizes scattered
  obtain ⟨-, -, -, -, -, hcontiguous⟩ := eliminate_normalizes stash
  exact ⟨by decide +kernel, by decide +kernel, htrimmed, hagain, hstash, (hcontiguous hstash).1⟩

end WasmTrim.DeadLocals
