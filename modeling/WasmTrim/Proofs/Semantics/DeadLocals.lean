/-
# Removing dead locals from a function

A store to a local that nothing reads can be left out: the locals of the two runs differ only
where nobody looks (`DeadLocals.refines_dropStores`).  After that such a local is not used at
all, and the locals that stay are renumbered.

So the pass (`eliminate`) leaves a function with the same outcomes, and of the table it takes
exactly the locals that are neither parameters nor read (`DeadLocals.eliminate_sameOutcomes`).

What is left of the table is said in full: names, types and order of the locals that stay, their
new numbers, and the types that the function then declares, which is what it starts with zeros
for.  It follows from two facts.  A local goes exactly when it is not a parameter and not read,
because dropping its stores leaves no use of it; and a renumbering keeps order.

Reading is what counts, not use: a local that is only written has its stores dropped first and is
unused after that.
-/
import WasmTrim.Proofs.Semantics.Outcomes
import WasmTrim.Proofs.Semantics.Passes

namespace WasmTrim

/-! ## 1. Tables after a removal

The locals by index, after some are gone: those that are left, in the same order, numbered from zero
on. -/

namespace LocalTable

variable {t : LocalTable}

theorem filterMap_compact? (c : Compaction) (ls : List Local) :
    ls.filterMap (Local.compact? c)
      = (ls.filter fun l => l.index ∉ c.removed).map
          fun l => { l with index := c.apply l.index } := by
  induction ls with
  | nil => rfl
  | cons l ls ih =>
    by_cases hl : l.index ∈ c.removed
    · simp [Local.compact?, Compaction.get?_eq_none_iff.mpr hl, hl, ih]
    · simp [Local.compact?, Compaction.get?_of_notMem hl, Compaction.apply_of_notMem hl, hl, ih]

/-- **What a removal leaves**: the locals that stay, in the same order, with their names and types,
numbered from zero on. -/
theorem byIndex_compact (h : t.isContiguous) (c : Compaction) :
    (t.compact c).byIndex
      = (t.byIndex.filter fun l => l.index ∉ c.removed).mapIdx
          fun i l => { l with index := i } := by
  have hat := @getElem?_byIndex _ (compact_contiguous h c).1
  -- renumbering keeps the order, so the locals that stay are in order as they are
  have hsorted :
      (t.byIndex.filterMap (Local.compact? c)).Pairwise fun a b => a.index ≤ b.index := by
    have hlt : t.byIndex.Pairwise fun a b => a.index < b.index :=
      List.pairwise_map.mp (map_index_byIndex h ▸ List.pairwise_lt_range)
    rw [filterMap_compact?, List.pairwise_map, List.pairwise_filter]
    refine hlt.imp fun hab ha hb => Nat.le_of_lt (c.apply_lt ?_ ?_ hab)
    · exact of_decide_eq_true ha
    · exact of_decide_eq_true hb
  have hbyIndex : (t.compact c).byIndex = t.byIndex.filterMap (Local.compact? c) := by
    refine List.Perm.eq_of_pairwise (fun a b ha hb hab hba => ?_) (byIndex_pairwise _) hsorted
      ((byIndex_perm _).trans ((byIndex_perm t).filterMap _).symm)
    have ha' := hat.mpr ⟨(byIndex_perm _).mem_iff.mp ha, Nat.le_antisymm hab hba⟩
    have hb' := hat.mpr ⟨((byIndex_perm t).filterMap _).mem_iff.mp hb, rfl⟩
    exact Option.some.inj (ha'.symm.trans hb')
  have hmap := hbyIndex.trans (filterMap_compact? c t.byIndex)
  rw [hmap]
  refine List.ext_getElem? fun i => ?_
  rw [List.getElem?_mapIdx, List.getElem?_map]
  cases hk : (t.byIndex.filter fun l => l.index ∉ c.removed)[i]? with
  | none => rfl
  | some k =>
    have hi : c.apply k.index = i := (hat (l := { k with index := c.apply k.index })).mp
      (by rw [hmap, List.getElem?_map, hk]; rfl) |>.2
    rw [Option.map_some, Option.map_some, hi]

theorem compact_removing_nil (t : LocalTable) : t.compact (.removing []) = t := by
  have hr : (Compaction.removing []).removed = [] := by simp [Compaction.removing, sortDistinct]
  have hstay : Local.compact? (.removing []) = some := by
    funext l
    simp [Local.compact?, Compaction.get?, Compaction.below, hr]
  simp only [compact, hstay, List.filterMap_some]

end LocalTable

/-- A local that is not a parameter starts as zero. -/
theorem Function.DeclaresParams.zero_of_entryState {σ : Type} {f : Function} (h : f.DeclaresParams)
    {l : Local} (hl : l ∈ f.locals.entries) (hp : f.paramCount ≤ l.index) {args : List Value}
    (ha : args.length = f.paramCount) (w : World σ) :
    (f.entryState args w).locals[l.index]? = some (.zero l.type) := by
  have htype : f.locals.types[l.index]? = some l.type :=
    (LocalTable.getElem?_types h.contiguous).mpr ⟨l, hl, rfl, rfl⟩
  rw [Function.entryState, List.getElem?_append_right (by omega), List.getElem?_map, h.localTypes,
    List.getElem?_drop, ha, Nat.add_sub_cancel' hp, htype]
  rfl

/-- A local is used by reading or by writing it. -/
theorem Op.localIndex?_eq_some {o : Op} {l : Nat} :
    o.localIndex? = some l ↔ o = .localGet l ∨ o.storedLocal? = some l := by
  cases o <;> simp [localIndex?, storedLocal?]

namespace DeadLocals

/-! ## 2. Dead stores

The body without the stores is the old one with some operations replaced by a `drop` or by nothing,
and the two run side by side with locals that differ where nothing reads. -/

/-- What stands for an operation when the given locals are not written. -/
def withoutStore (dead : Nat → Bool) : Op → List Op
  | .localSet l => if dead l then [.drop] else [.localSet l]
  | .localTee l => if dead l then [] else [.localTee l]
  | o => [o]

/-- An operation that writes no dead local stays; one that does only takes its value off the stack,
or does nothing. -/
theorem withoutStore_cases (dead : Nat → Bool) (o : Op) :
    (withoutStore dead o = [o] ∧ ∀ l, o.storedLocal? = some l → ¬ dead l) ∨
    ∃ l, dead l ∧ (o = .localSet l ∧ withoutStore dead o = [.drop] ∨
      o = .localTee l ∧ withoutStore dead o = []) := by
  cases o with
  | localSet l | localTee l => by_cases hl : dead l <;> simp [withoutStore, hl, Op.storedLocal?]
  | _ => exact .inl ⟨rfl, fun _ h => by cases h⟩

theorem ops_dropStore (dead : Nat → Bool) (i : Instr) :
    Body.ops (dropStore dead i) = withoutStore dead i.op := by
  obtain ⟨o, m⟩ := i
  cases o with
  | localSet l | localTee l => by_cases hl : dead l <;> simp [dropStore, withoutStore, hl, Op.plain]
  | _ => rfl

/-- Leaving out stores replaces plain operations by others, at most one for each, so the structure
of the body stays. -/
theorem ops_flatMap_dropStore (dead : Nat → Bool) : ∀ (body : Body) (n : Nesting),
    Body.ops (body.flatMap (dropStore dead))
      = Congruence.substitute (fun _ o => .ofOps (withoutStore dead o)) n body.ops
  | [], _ => rfl
  | i :: body, n => by
    rw [List.flatMap_cons, Body.ops_append, ops_flatMap_dropStore dead body (n.observe i.op),
      ops_dropStore, Body.ops_cons, Congruence.substitute, Code.ops_ofOps]
    split
    · rfl
    · rename_i h
      rcases withoutStore_cases dead i.op with ⟨e, -⟩ | ⟨l, -, ⟨e, -⟩ | ⟨e, -⟩⟩
      · rw [e]
      all_goals
        rw [e] at h
        exact absurd rfl h

/-- **Leaving out dead stores refines the function.**  The locals of both sides agree except where
nothing is read. -/
theorem refines_dropStores {signatures : List Signature} (f : Function) :
    f.Refines signatures (dropStores f) := by
  refine Function.refines_of_sim (AgreeOff fun l => isUnread f l) rfl rfl
    (fun args _ => .refl _) fun M _ _ c hc => ?_
  rw [dropStores, ops_flatMap_dropStore (isUnread f) f.body []]
  refine Setting.plain_self.congruence.parse_substitute (fun _ _ _ _ _ => trivial)
    (fun o _ hp _ => Code.wellFormed_ofOps ?_) (fun before o after hops hp c c' h => ?_) hc
  · rcases withoutStore_cases (isUnread f) o with ⟨e, -⟩ | ⟨l, -, ⟨-, e⟩ | ⟨-, e⟩⟩ <;> rw [e]
    · simpa using hp
    · decide
    · simp
  · rcases withoutStore_cases (isUnread f) o with ⟨e, -⟩ | ⟨l, hl, ⟨rfl, e⟩ | ⟨rfl, e⟩⟩ <;> rw [e]
    · -- what is read is not dead, and a dead local may be written on both sides
      refine (Setting.plain_opSim (fun l ho => AgreeOff.readsAs fun hl => ?_)
        fun l _ => AgreeOff.writesAs l).cons h
      subst ho
      have hread : Op.localGet l ∈ f.body.ops := hops ▸ List.mem_append_right _ List.mem_cons_self
      exact Body.notMem_of_reads (isUnread_iff.mp hl).2 hread
    · exact (AgreeOff.replaces_deadSet M _ hl).sim h
    · exact (AgreeOff.replaces_deadTee M _ hl).sim h

/-! ## 3. Locals that go

What is unused is counted after the dead stores have been dropped (`tally`), so it is the same as
what was never read. -/

/-- Leaving out dead stores leaves all readings, of dead locals and of others: only `local.set`s and
`local.tee`s go. -/
theorem reads_dropStores (f : Function) (l : Nat) :
    (dropStores f).body.reads l = f.body.reads l := by
  rw [dropStores]
  generalize isUnread f = dead
  induction f.body with
  | nil => rfl
  | cons i body ih =>
    have hi : Body.reads (dropStore dead i) l = Body.reads [i] l := by
      obtain ⟨op, m⟩ := i
      cases op with
      | localSet k | localTee k =>
        cases hk : dead k <;> simp [dropStore, hk, Body.reads, Op.plain]
      | _ => rfl
    rw [List.flatMap_cons, Body.reads_append, hi, ih, ← Body.reads_append]
    rfl

/-- A store that stays writes a parameter or a local that is read. -/
theorem not_isUnread_of_mem {f : Function} {i : Instr} {l : Nat} (hi : i ∈ (dropStores f).body)
    (hl : i.op.storedLocal? = some l) : ¬ isUnread f l := by
  obtain ⟨j, hj, hi⟩ := List.mem_flatMap.mp hi
  have hop : i.op ∈ withoutStore (isUnread f) j.op := by
    rw [← ops_dropStore]
    exact List.mem_map_of_mem hi
  rcases withoutStore_cases (isUnread f) j.op with ⟨e, hwrites⟩ | ⟨k, -, ⟨-, e⟩ | ⟨-, e⟩⟩ <;>
    rw [e] at hop
  · rw [List.mem_singleton.mp hop] at hl
    exact hwrites l hl
  · rw [List.mem_singleton.mp hop] at hl
    cases hl
  · cases hop

/-- A local that is not read is not used once its stores are left out. -/
theorem uses_dropStores {f : Function} {l : Nat} (hl : isUnread f l) :
    (dropStores f).body.uses l = 0 := by
  have hreads : (dropStores f).body.reads l = 0 := by
    rw [reads_dropStores]
    exact (isUnread_iff.mp hl).2
  refine List.countP_eq_zero.mpr fun i hi hused => ?_
  rcases Op.localIndex?_eq_some.mp (of_decide_eq_true hused) with hget | hstored
  · exact List.countP_eq_zero.mp hreads i hi (decide_eq_true hget)
  · exact not_isUnread_of_mem hi hstored hl

/-- **The locals that go** are those that are neither parameters nor read. A local that was only
written is among them, since its stores are gone by the time the uses are counted. -/
theorem mem_unused_dropStores {f : Function} {l : Nat} :
    l ∈ unused (dropStores f) ↔ (∃ k ∈ f.locals.entries, k.index = l) ∧ isUnread f l := by
  rw [mem_unused]
  refine and_congr_right fun _ => ⟨fun ⟨hp, hu⟩ => ?_, fun h => ⟨?_, uses_dropStores h⟩⟩
  · -- a reading stays, so there was none
    have hle := (dropStores f).body.reads_le_uses l
    rw [reads_dropStores] at hle
    exact isUnread_iff.mpr ⟨hp, by omega⟩
  · exact (isUnread_iff.mp h).1

/-- The pass leaves out the dead stores and then removes what is not used. -/
theorem eliminate_eq (f : Function) :
    (eliminate f).1 = removeLocals (dropStores f) (unused (dropStores f)) := by
  simp only [eliminate]
  split
  · rename_i h
    have happly : ∀ i, (Compaction.removing []).apply i = i :=
      fun i => Compaction.apply_of_forall_le _ (fun j hj => by simp at hj) (Nat.lt_succ_self i)
    have hid : Instr.mapLocal (Compaction.removing []).apply = id := by
      funext i
      rw [funext happly, Instr.mapLocal, Op.mapLocal_id]
      rfl
    rw [List.isEmpty_iff.mp h, removeLocals, Function.compactLocals,
      LocalTable.compact_removing_nil, hid, List.map_id]
  · rfl

end DeadLocals

/-! ## 4. The pass

Two refinements one after the other, first for the stores and then for the table (`eliminate`). -/

/-- **What a pass leaves of the locals.**  Those that stay keep their names, their types and their
order, and are numbered from zero on; the types that a function declares are the old ones without
those of the locals that go; and whatever is declared starts as zero. -/
structure Function.KeepsLocals (stays : Local → Bool) (f f' : Function) : Prop where
  table : f'.locals.byIndex
    = (f.locals.byIndex.filter stays).mapIdx fun i l => { l with index := i }
  declared : f'.localTypes
    = ((f.locals.byIndex.filter fun l => f.paramCount ≤ l.index).filter stays).map Local.type
  zero : ∀ {σ : Type} (args : List Value) (w : World σ), args.length = f'.paramCount →
    ∀ l ∈ f'.locals.entries, f'.paramCount ≤ l.index →
      (f'.entryState args w).locals[l.index]? = some (.zero l.type)

namespace DeadLocals

theorem declaresParams_eliminate {f : Function} (h : f.DeclaresParams) :
    (eliminate f).1.DeclaresParams := by
  rw [eliminate_eq]
  exact declaresParams_removeLocals ⟨h.contiguous, h.params⟩

/-- In a table without gaps the locals that stay keep their order. -/
theorem byIndex_eliminate {f : Function} (h : f.locals.isContiguous) :
    (eliminate f).1.locals.byIndex
      = (f.locals.byIndex.filter fun l => !isUnread f l.index).mapIdx
          fun i l => { l with index := i } := by
  rw [eliminate_eq]
  refine (LocalTable.byIndex_compact h _).trans ?_
  refine congrArg (List.mapIdx _) (List.filter_congr fun l hl => ?_)
  have hentry : ∃ k ∈ f.locals.entries, k.index = l.index :=
    ⟨l, (LocalTable.byIndex_perm _).mem_iff.mp hl, rfl⟩
  simp [mem_unused_dropStores, hentry]

/-- **The locals that are neither parameters nor read go**, and the others stay, with their names
and types and in their order. -/
theorem keepsLocals_eliminate {f : Function} (h : f.DeclaresParams) :
    f.KeepsLocals (fun l => !isUnread f l.index) (eliminate f).1 := by
  have h' := declaresParams_eliminate h
  have hparams : (eliminate f).1.paramCount = f.paramCount := by rw [eliminate_eq]; rfl
  have htable := byIndex_eliminate h.contiguous
  refine ⟨htable, ?_, fun args w ha l hl hp => h'.zero_of_entryState hl hp ha w⟩
  -- the parameters stay, so what follows them is what stays of the other locals
  have hfirst : (f.locals.byIndex.take f.paramCount).filter (fun l => !isUnread f l.index)
      = f.locals.byIndex.take f.paramCount := by
    refine List.filter_eq_self.mpr fun l hl => ?_
    obtain ⟨i, hi⟩ := List.getElem?_of_mem hl
    rw [List.getElem?_take] at hi
    split at hi
    · rename_i hlt
      rw [((LocalTable.getElem?_byIndex h.contiguous).mp hi).2]
      simp [isUnread, hlt]
    · cases hi
  have hlength : (f.locals.byIndex.take f.paramCount).length = f.paramCount := by
    have hsize : f.locals.byIndex.length = f.locals.size := (LocalTable.byIndex_perm _).length_eq
    rw [List.length_take, hsize]
    exact Nat.min_eq_left h.paramCount_le
  have htypes : (eliminate f).1.locals.types
      = (f.locals.byIndex.filter fun l => !isUnread f l.index).map Local.type := by
    rw [LocalTable.types, htable]
    refine List.ext_getElem? fun i => ?_
    simp only [List.getElem?_map, List.getElem?_mapIdx, Option.map_map]
    rfl
  calc (eliminate f).1.localTypes
      = ((f.locals.byIndex.filter fun l => !isUnread f l.index).drop f.paramCount).map
          Local.type := by
        rw [h'.localTypes, htypes, hparams, List.map_drop]
    _ = ((f.locals.byIndex.drop f.paramCount).filter fun l => !isUnread f l.index).map
          Local.type := by
        conv => lhs; rw [← List.take_append_drop f.paramCount f.locals.byIndex]
        rw [List.filter_append, hfirst, List.drop_left' hlength]
    _ = _ := by rw [LocalTable.filter_byIndex h.contiguous]

/-- **Removing dead locals keeps the outcomes of a function**, for any machine that offers what the
function is checked against, and keeps exactly the locals that are parameters or are read somewhere.
-/
theorem eliminate_sameOutcomes (s : Validation.Surroundings) (f : Function) (hd : f.DeclaresParams)
    (hf : f.Typed s) :
    f.SameOutcomes s (eliminate f).1 ∧
      f.KeepsLocals (fun l => !isUnread f l.index) (eliminate f).1 := by
  have hrefines : f.Refines s.signatures (eliminate f).1 := by
    rw [eliminate_eq]
    exact (refines_dropStores f).trans (refines_removeLocals ⟨hd.contiguous, hd.params⟩)
  exact ⟨hrefines.sameOutcomes hf, keepsLocals_eliminate hd⟩

/-- A function with a local that is only written, between its parameter and a local that is
read. -/
def stash : Function where
  index := 0
  name := "stash"
  params := [.i32]
  locals := ⟨[⟨"copy", 1, .i32⟩, ⟨"sum", 2, .i64⟩, ⟨"value", 0, .i32⟩], by decide +kernel⟩
  result := some .i64
  body := [.localGet 0, .localTee 1, .localSet 1, .localGet 2, .const (.i64 5), .num .i64Add,
    .localSet 2, .localGet 2].map Op.plain
  throws := false
  usesMemory := false

theorem eliminate_sameOutcomes_stash :
    let s : Validation.Surroundings := ⟨[], [], [], [], false, []⟩
    (eliminate stash).1.body
        = [.localGet 0, .drop, .localGet 1, .const (.i64 5), .num .i64Add, .localSet 1,
            .localGet 1].map Op.plain ∧
      (eliminate stash).1.localTypes = [.i64] ∧
      stash.SameOutcomes s (eliminate stash).1 ∧
      stash.KeepsLocals (fun l => !isUnread stash l.index) (eliminate stash).1 := by
  intro s
  have hindex : stash.locals.byIndex = [⟨"value", 0, .i32⟩, ⟨"copy", 1, .i32⟩, ⟨"sum", 2, .i64⟩] :=
    LocalTable.byIndex_eq_of_perm (by decide +kernel) rfl
  have hd : stash.DeclaresParams := by
    refine ⟨LocalTable.isContiguous_iff.mpr (by decide +kernel), ⟨[.i32, .i64], ?_⟩⟩
    rw [LocalTable.types, hindex]
    rfl
  have ht : stash.Typed s := by
    rw [Function.Typed, Function.env, Function.localTypes, hindex]
    decide +kernel
  have hbody : (eliminate stash).1.body
      = [.localGet 0, .drop, .localGet 1, .const (.i64 5), .num .i64Add, .localSet 1,
          .localGet 1].map Op.plain := by decide +kernel
  have hindex' : (eliminate stash).1.locals.byIndex = [⟨"value", 0, .i32⟩, ⟨"sum", 1, .i64⟩] :=
    LocalTable.byIndex_eq_of_perm (by decide +kernel) rfl
  refine ⟨hbody, ?_, eliminate_sameOutcomes s stash hd ht⟩
  rw [Function.localTypes, hindex']
  rfl

end DeadLocals

end WasmTrim
