/-
# Locals and local tables

A function keeps its locals by name.  The table lists them in the order of their names, which
the type enforces, so that a table is determined by what it holds: `insert` replaces the entry
of the same name or puts a new one in its place, and `find?` reads it back.  In particular two
tables that answer every look-up alike are equal.

Indices are a separate matter.  A table may skip or repeat them; `declare` gives a new local
the index after the highest one (`next_local_index`), and `compact` renumbers after a removal.
Only the assembler refuses a table whose indices are not the numbers below its size
(`has_contiguous_locals`), and it does so for each function before it writes its body.

Looking a name up and finding a local there does not say that the local has the type one asked
for: `declare` reuses whatever has the name.  Two parameters inlined under one name therefore
share a slot, which is why a theorem about inlining has to say that the names it makes up are
not taken.

The highest index an instruction can hold is one below `indexLimit`.  A local there has no
successor, and asking for one is the only way in which the optimizer can fail.
-/
import WasmTrim.Compaction
import WasmTrim.Distinct
import WasmTrim.Instr.Basic

namespace WasmTrim

/-! ## 1. Locals

The order of names is that of their characters, which decides in which order locals of one index
are listed and which of two names of one index is found first. -/

/-- A storage slot of a function (`Local`), together with the name it is kept under. -/
structure Local where
  name : String
  index : Nat
  type : ValueType
deriving DecidableEq

/-- Every name of the list comes before the next. -/
abbrev SortedByName (ls : List Local) : Prop := ls.Pairwise fun a b => a.name < b.name

theorem sortedByName_nil : SortedByName [] := .nil

/-- Puts a local at the place of its name, over an entry of the same name. -/
def insertByName (l : Local) : List Local → List Local
  | [] => [l]
  | x :: rest =>
    if l.name < x.name then l :: x :: rest
    else if x.name < l.name then x :: insertByName l rest
    else l :: rest

theorem mem_insertByName {l a : Local} : ∀ {ls : List Local},
    a ∈ insertByName l ls → a = l ∨ a ∈ ls
  | [], h => Or.inl (by simpa [insertByName] using h)
  | x :: rest, h => by
    simp only [insertByName] at h
    split at h
    · simpa using h
    · split at h
      · rcases List.mem_cons.mp h with rfl | h
        · simp
        · rcases mem_insertByName h with rfl | h <;> simp [*]
      · rcases List.mem_cons.mp h with rfl | h <;> simp [*]

/-- Insertion keeps the order, whether the name is new or replaces an entry. -/
theorem SortedByName.insert {l : Local} : ∀ {ls : List Local},
    SortedByName ls → SortedByName (insertByName l ls)
  | [], _ => by simp [insertByName]
  | x :: rest, h => by
    obtain ⟨hx, hr⟩ := List.pairwise_cons.mp h
    simp only [insertByName]
    split
    · rename_i hlt
      exact List.pairwise_cons.mpr
        ⟨fun a ha => (List.mem_cons.mp ha).elim (· ▸ hlt) fun ha =>
          String.lt_trans hlt (hx a ha), h⟩
    · split
      · rename_i hgt
        refine List.pairwise_cons.mpr ⟨fun a ha => ?_, SortedByName.insert hr⟩
        exact (mem_insertByName ha).elim (· ▸ hgt) (hx a)
      · rename_i hnlt hngt
        have e : l.name = x.name := String.le_antisymm hngt hnlt
        exact List.pairwise_cons.mpr ⟨fun a ha => e ▸ hx a ha, hr⟩

/-! ## 2. Tables

A sorted list without repetitions, with the three look-ups that a function needs: by name, by
index, and all locals in the order of their indices. -/

/-- The locals of a function, by name. The entries are sorted by their names and no name occurs
twice, as in the map of the source; the indices are part of the entries and may be in any order. -/
structure LocalTable where
  entries : List Local
  sorted : SortedByName entries
deriving DecidableEq

namespace LocalTable

/-- The number of locals, the parameters included if they are declared among them. -/
def size (t : LocalTable) : Nat := t.entries.length

/-- Adds a local, over an entry of the same name. -/
def insert (t : LocalTable) (l : Local) : LocalTable := ⟨insertByName l t.entries, t.sorted.insert⟩

/-- The table with the listed locals; of several with one name the last stays. -/
def ofList (ls : List Local) : LocalTable :=
  ⟨sortDistinct Local.name ls.reverse, pairwise_sortDistinct Local.name ls.reverse⟩

/-- The local of the given name (`local`), of which there is at most one. -/
def find? (t : LocalTable) (name : String) : Option Local := t.entries.find? fun l => l.name = name

/-- The first name, in name order, of a local with the given index (`local_name`). -/
def nameOf? (t : LocalTable) (index : Nat) : Option String :=
  (t.entries.find? fun l => l.index = index).map Local.name

/-- The locals in the order of their indices; those with equal indices stay in name order. -/
def byIndex (t : LocalTable) : List Local := t.entries.mergeSort fun a b => a.index ≤ b.index

/-- Whether the indices are exactly the numbers below the number of locals
(`has_contiguous_locals`). -/
def isContiguous (t : LocalTable) : Bool := t.byIndex.map Local.index = List.range t.size

@[simp] theorem entries_insert (t : LocalTable) (l : Local) :
    (t.insert l).entries = insertByName l t.entries := rfl

/-- A local that was put in is found under its name, even if another one had this name before. -/
theorem find?_insert_self (t : LocalTable) (l : Local) : (t.insert l).find? l.name = some l := by
  obtain ⟨entries, sorted⟩ := t
  simp only [find?, entries_insert]
  clear sorted
  induction entries with
  | nil => simp [insertByName]
  | cons x rest ih =>
    simp only [insertByName]
    split
    · simp
    · split
      · rename_i hgt
        have hne : x.name ≠ l.name := fun e => String.lt_irrefl l.name (e ▸ hgt)
        simpa [List.find?_cons, hne] using ih
      · simp

/-- Other names are found as before, so that a new local hides none that was there. -/
theorem find?_insert_of_ne (t : LocalTable) {l : Local} {name : String} (h : name ≠ l.name) :
    (t.insert l).find? name = t.find? name := by
  obtain ⟨entries, sorted⟩ := t
  simp only [find?, entries_insert]
  clear sorted
  induction entries with
  | nil => simp [insertByName, h.symm]
  | cons x rest ih =>
    simp only [insertByName]
    split
    · simp [List.find?_cons, h.symm]
    · split
      · by_cases hx : x.name = name
        · simp [hx]
        · simpa [List.find?_cons, hx] using ih
      · rename_i hnlt hngt
        have hx : x.name ≠ name := fun e => h (e.symm.trans (String.le_antisymm hnlt hngt))
        simp [h.symm, hx]

/-! ## 3. New indices

The new index comes from the indices in use, not from the number of locals, so a gap in the table
is never filled. -/

/-- The index after the highest one in use (`next_local_index`).  It must still be an index, so
a local at the last index leaves none. -/
def nextIndex (t : LocalTable) : Except Fault Nat :=
  if t.entries.any fun l => indexLimit ≤ l.index + 1 then .error .localIndexOverflow
  else .ok (t.entries.foldl (fun n l => max n (l.index + 1)) 0)

/-- Finds the local of the given name, or adds it after all others (`add_local`).  The new index
is computed first, so a full table is refused even when the name exists. -/
def declare (t : LocalTable) (name : String) (type : ValueType) :
    Except Fault (LocalTable × Nat) := do
  let index ← t.nextIndex
  match t.find? name with
  | some l => return (t, l.index)
  | none => return (t.insert ⟨name, index, type⟩, index)

end LocalTable

/-! ## 4. Renumbering

Renumbering keeps names and types.  Since it does not touch names, the order of the table needs
no new proof. -/

/-- A local after a compaction, unless it is removed; its name and type stay. -/
def Local.compact? (c : Compaction) (l : Local) : Option Local :=
  (c.get? l.index).map fun i => { l with index := i }

theorem Local.name_of_compact? {c : Compaction} {l l' : Local} (h : l.compact? c = some l') :
    l'.name = l.name := by
  obtain ⟨i, -, rfl⟩ := Option.map_eq_some_iff.mp h
  rfl

/-- Renumbers the locals of a table and leaves out those that are removed. -/
def LocalTable.compact (t : LocalTable) (c : Compaction) : LocalTable where
  entries := t.entries.filterMap (Local.compact? c)
  sorted := List.pairwise_filterMap.mpr <| t.sorted.imp fun h a ha b hb => by
    rwa [Local.name_of_compact? ha, Local.name_of_compact? hb]

end WasmTrim
