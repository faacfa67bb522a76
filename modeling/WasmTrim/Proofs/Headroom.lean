/-
# Room for the locals of arguments

Inlining gives a caller one more local for each parameter of the callee, behind all others, and
removing dead locals moves the others down.  Both happen again and again, to tables that may skip
and repeat indices.  The highest index can therefore grow, but only so far: every local that is
added has one of the names that the parameters of the program give, and a table holds each name
once.

So count the indices at which a table has such names.  No index ever exceeds what there was at the
start by more than this count: a new local raises both by one, and removing locals lowers the
indices by at least as much as the count (`LocalTable.Within`).  The count is at most the number of
parameters.  Hence a program in which the highest index and the number of all parameters together
are below the last index is optimized without a refusal, whatever its bodies look like, and the
result can be assembled if the program could (`optimize_completes`).

A bound on a single pass would not be enough.  A run may inline sixteen times over, and between two
of these remove locals and so make functions inlinable that were not; what a table can hold in the
end has to be bounded by something that no pass raises.  The names of arguments are that: they are
made from the names of functions and the positions of parameters, neither of which ever changes.

The other half of the result is about the optimizer that works by position (`Proofs/Positional`).
It asks whether a position is in range at every access, and a difference whether it is one of
natural numbers; that none of these checks ever fails is shown there, and is part of the statement
here.
-/
import Mathlib.Data.Finset.Card
import Mathlib.Data.Finset.Image
import WasmTrim.Compile
import WasmTrim.Proofs.Binary.Image
import WasmTrim.Proofs.Idempotence
import WasmTrim.Proofs.Positional.Run

namespace WasmTrim

open Inline

/-! ## 1. Tables

A table is measured by the indices of given names.  Declaring one of these names adds at most one
index and raises the bound by one, or finds the name and changes nothing (`add_local`). -/

namespace LocalTable

variable {names : Finset String} {bound : Nat} {t : LocalTable}

/-- The indices at which a table has one of the given names. Their number grows when such a name is
declared for the first time, and only then. -/
def slots (names : Finset String) (t : LocalTable) : Finset Nat :=
  ((t.entries.filter fun l => l.name ∈ names).map Local.index).toFinset

theorem mem_slots {i : Nat} :
    i ∈ t.slots names ↔ ∃ l ∈ t.entries, l.name ∈ names ∧ l.index = i := by
  simp only [slots, List.mem_toFinset, List.mem_map, List.mem_filter, decide_eq_true_eq, and_assoc]

/-- A table holds each name once, so there are no more such indices than names. -/
theorem card_slots_le (names : Finset String) (t : LocalTable) :
    (t.slots names).card ≤ names.card := by
  have hne : t.entries.Pairwise fun a b => a.name ≠ b.name := by
    refine t.sorted.imp ?_
    intro a b h e
    exact String.lt_irrefl b.name (e ▸ h)
  have hnodup : ((t.entries.filter fun l => l.name ∈ names).map Local.name).Nodup :=
    List.pairwise_map.mpr (hne.filter _)
  have hsub : ((t.entries.filter fun l => l.name ∈ names).map Local.name).toFinset ⊆ names := by
    intro name h
    simp only [List.mem_toFinset, List.mem_map, List.mem_filter, decide_eq_true_eq] at h
    obtain ⟨l, ⟨-, hl⟩, rfl⟩ := h
    exact hl
  calc (t.slots names).card
      ≤ ((t.entries.filter fun l => l.name ∈ names).map Local.index).length :=
        List.toFinset_card_le _
    _ = ((t.entries.filter fun l => l.name ∈ names).map Local.name).length := by simp
    _ = ((t.entries.filter fun l => l.name ∈ names).map Local.name).toFinset.card :=
        (List.toFinset_card_of_nodup hnodup).symm
    _ ≤ names.card := Finset.card_le_card hsub

/-- **The indices stay within a bound** that grows with the indices of the given names. A name that
is declared again gets no new index, so each of the names can raise the bound only once. -/
def Within (names : Finset String) (bound : Nat) (t : LocalTable) : Prop :=
  ∀ l ∈ t.entries, l.index < bound + (t.slots names).card

theorem foldl_max_le {n : Nat} : ∀ (ls : List Local) (m : Nat), m ≤ n →
    (∀ l ∈ ls, l.index < n) → ls.foldl (fun n l => max n (l.index + 1)) m ≤ n
  | [], _, hm, _ => hm
  | l :: ls, m, hm, h => by
    have hl := h l List.mem_cons_self
    exact foldl_max_le ls (max m (l.index + 1)) (by omega)
      fun k hk => h k (List.mem_cons_of_mem _ hk)

theorem le_foldl_max : ∀ (ls : List Local) (m : Nat),
    m ≤ ls.foldl (fun n l => max n (l.index + 1)) m ∧
      ∀ l ∈ ls, l.index < ls.foldl (fun n l => max n (l.index + 1)) m
  | [], m => ⟨Nat.le_refl m, by simp⟩
  | l :: ls, m => by
    obtain ⟨hm, hls⟩ := le_foldl_max ls (max m (l.index + 1))
    rw [List.foldl_cons]
    refine ⟨by omega, fun k hk => ?_⟩
    rcases List.mem_cons.mp hk with rfl | hk
    · omega
    · exact hls k hk

/-- A new local at a new index raises the count. -/
theorem card_slots_insert {l : Local} (hname : l.name ∈ names) (hnew : t.find? l.name = none)
    (hindex : ∀ k ∈ t.entries, k.index < l.index) :
    ((t.insert l).slots names).card = (t.slots names).card + 1 := by
  have hslots : (t.insert l).slots names = Insert.insert l.index (t.slots names) := by
    ext i
    simp only [mem_slots, Finset.mem_insert, (insert_perm hnew).mem_iff, List.mem_cons]
    constructor
    · rintro ⟨k, rfl | hk, hn, rfl⟩
      · exact .inl rfl
      · exact .inr ⟨k, hk, hn, rfl⟩
    · rintro (rfl | ⟨k, hk, hn, rfl⟩)
      · exact ⟨l, .inl rfl, hname, rfl⟩
      · exact ⟨k, .inr hk, hn, rfl⟩
  have hfresh : l.index ∉ t.slots names := by
    intro h
    obtain ⟨k, hk, -, e⟩ := mem_slots.mp h
    exact absurd e (Nat.ne_of_lt (hindex k hk))
  rw [hslots, Finset.card_insert_of_notMem hfresh]

/-- **A table within the bound takes a local of one of the names**, and stays within the bound. -/
theorem Within.declare (h : t.Within names bound) (hroom : bound + names.card < indexLimit)
    {name : String} (hname : name ∈ names) (type : ValueType) :
    ∃ t' index, t.declare name type = .ok (t', index) ∧ t'.Within names bound := by
  have hcard := card_slots_le names t
  have hnext : t.nextIndex = .ok (t.entries.foldl (fun n l => max n (l.index + 1)) 0) := by
    rw [nextIndex, if_neg]
    simp only [List.any_eq_true, decide_eq_true_eq, not_exists, not_and]
    intro l hl
    have := h l hl
    omega
  have hbound := foldl_max_le t.entries 0 (Nat.zero_le _) h
  have habove := (le_foldl_max t.entries 0).2
  generalize t.entries.foldl (fun n l => max n (l.index + 1)) 0 = next at hnext hbound habove
  simp only [LocalTable.declare, hnext, bind, Except.bind]
  cases hfind : t.find? name with
  | some l => exact ⟨t, l.index, rfl, h⟩
  | none =>
    refine ⟨_, next, rfl, fun k hk => ?_⟩
    have hslots : ((t.insert ⟨name, next, type⟩).slots names).card = (t.slots names).card + 1 :=
      card_slots_insert hname hfind habove
    rw [hslots]
    rcases List.mem_cons.mp ((insert_perm (l := ⟨name, next, type⟩) hfind).mem_iff.mp hk)
      with rfl | hk
    · show next < _
      omega
    · have := h k hk
      omega

/-- **Removing locals keeps a table within the bound**: the count falls by no more than the number
of removed indices, and every index falls by as much. -/
theorem Within.compact (h : t.Within names bound) {c : Compaction}
    (hremoved : ∀ i ∈ c.removed, ∃ l ∈ t.entries, l.index = i) :
    (t.compact c).Within names bound := by
  set n := bound + (t.slots names).card with hn
  have hbelow : c.below n = c.removed.length := by
    rw [Compaction.below, List.countP_eq_length]
    intro i hi
    obtain ⟨l, hl, rfl⟩ := hremoved i hi
    exact decide_eq_true (h l hl)
  have hslots : (t.compact c).slots names = (t.slots names \ c.removed.toFinset).image c.apply := by
    ext i
    simp only [mem_slots, mem_compact, Finset.mem_image, Finset.mem_sdiff, List.mem_toFinset]
    constructor
    · rintro ⟨l, ⟨k, hk, hstay, rfl⟩, hname, rfl⟩
      exact ⟨k.index, ⟨⟨k, hk, hname, rfl⟩, hstay⟩, rfl⟩
    · rintro ⟨-, ⟨⟨k, hk, hname, rfl⟩, hstay⟩, rfl⟩
      exact ⟨_, ⟨k, hk, hstay, rfl⟩, hname, rfl⟩
  have hinj : Set.InjOn c.apply (t.slots names \ c.removed.toFinset : Finset Nat) := by
    intro a ha b hb e
    simp only [Finset.coe_sdiff, Set.mem_sdiff, Finset.mem_coe, List.mem_toFinset] at ha hb
    exact c.apply_inj ha.2 hb.2 e
  have hcard : (t.slots names).card ≤ ((t.compact c).slots names).card + c.removed.length := by
    rw [hslots, Finset.card_image_of_injOn hinj]
    have hle := Finset.le_card_sdiff c.removed.toFinset (t.slots names)
    have hlength := List.toFinset_card_le c.removed
    omega
  intro l hl
  obtain ⟨k, hk, hstay, rfl⟩ := mem_compact.mp hl
  have hlt := c.apply_lt_of_lt hstay (h k hk)
  rw [← hn, hbelow] at hlt
  show c.apply k.index < _
  omega

end LocalTable

/-! ## 2. Functions

Renumbering and the passes on a function raise no index, so a function that fits goes on fitting. -/

variable {names : Finset String} {bound : Nat}

/-- **A function fits**: its table is within the bound, and the names that its parameters give are
among those counted, unless there are no locals anywhere. -/
structure Function.Fits (names : Finset String) (bound : Nat) (f : Function) : Prop where
  within : f.locals.Within names bound
  counted : (names = ∅ ∧ bound = 0) ∨ ∀ j < f.params.length, argumentName f.name j ∈ names

namespace Function.Fits

variable {f : Function}

/-- The names that an inlinable function gives to its arguments are counted. -/
theorem argumentName_mem (h : f.Fits names bound) {tailCalled : List Nat}
    (ho : f.obstacles tailCalled = []) : ∀ j < f.params.length, argumentName f.name j ∈ names := by
  rcases h.counted with ⟨rfl, rfl⟩ | hcounted
  · -- without locals only a function without parameters can be inlined
    have hsize := (Function.eligible_of_obstacles ho).size
    have hempty : f.locals.entries = [] := by
      refine List.eq_nil_iff_forall_not_mem.mpr fun l hl => ?_
      have hlt := h.within l hl
      have hcard := LocalTable.card_slots_le ∅ f.locals
      rw [Finset.card_empty] at hcard
      omega
    rw [LocalTable.size, hempty, List.length_nil, Function.paramCount] at hsize
    intro j hj
    omega
  · exact hcounted

theorem compactCalls (h : f.Fits names bound) (c : Compaction) :
    (f.compactCalls c).Fits names bound := ⟨h.within, h.counted⟩

/-- The passes on one function keep it so, since they give no local a new name and remove some. -/
theorem optimizeFunction (h : f.Fits names bound) (level : Level) (ctx : Peephole.Context) :
    (Optimize.optimizeFunction level ctx f).1.Fits names bound := by
  refine Optimize.optimizeFunction_induction (P := Function.Fits names bound) ?_ ?_ f h
  · exact fun g b _ hg => ⟨hg.within, hg.counted⟩
  · intro g hg
    exact ⟨hg.within.compact fun i hi =>
      (DeadLocals.mem_unused.mp (Compaction.mem_removing.mp hi)).1, hg.counted⟩

end Function.Fits

/-! ## 3. Inlining

The names that inlining declares are those of arguments, one for each function and parameter.  They
are counted in advance, so that inlining cannot run out of indices however long it goes on. -/

namespace Inline

theorem within_declareArguments (hroom : bound + names.card < indexLimit) {callee : String} :
    ∀ {types : List ValueType} {position : Nat} {t : LocalTable}, t.Within names bound →
      (∀ j < types.length, argumentName callee (position + j) ∈ names) →
      ∃ t' arguments, declareArguments callee types position t = .ok (t', arguments) ∧
        t'.Within names bound
  | [], _, t, h, _ => ⟨t, [], rfl, h⟩
  | type :: types, position, t, h, hnames => by
    have hlater : ∀ j < types.length, argumentName callee (position + 1 + j) ∈ names := by
      intro j hj
      rw [Nat.add_assoc, Nat.add_comm 1 j]
      exact hnames (j + 1) (by simpa using hj)
    obtain ⟨t₁, later, h₁, ht₁⟩ := within_declareArguments hroom h hlater
    obtain ⟨t₂, index, h₂, ht₂⟩ := ht₁.declare hroom (hnames 0 (by simp)) type
    rw [Nat.add_zero] at h₂
    exact ⟨t₂, index :: later,
      by simp only [declareArguments, h₁, h₂, bind, Except.bind, pure, Except.pure], ht₂⟩

/-- **Inlining into a function that fits is not refused**, and the function still fits. The locals
that inlining declares have names among the given ones, and these have been allowed for. -/
theorem exists_inlineInto_of_fits (hroom : bound + names.card < indexLimit) {callee f : Function}
    (hcallee : ∀ j < callee.params.length, argumentName callee.name j ∈ names) (prepared : Body)
    (hf : f.Fits names bound) :
    ∃ f' t, inlineInto callee prepared f = .ok (f', t) ∧ f'.Fits names bound := by
  have hexpand : ∀ (body : Body) (t : LocalTable), t.Within names bound →
      ∃ out, expandCalls callee prepared f.name body t = .ok out ∧
        out.locals.Within names bound := by
    intro body
    induction body with
    | nil => exact fun t ht => ⟨_, rfl, ht⟩
    | cons i body ih =>
      intro t ht
      rw [expandCalls]
      split
      · obtain ⟨t', arguments, hd, ht'⟩ := within_declareArguments hroom ht
          (show ∀ j < callee.params.length, argumentName callee.name (0 + j) ∈ names by
            simpa using hcallee)
        obtain ⟨out, ho, hout⟩ := ih t' ht'
        simp only [hd, ho, bind, Except.bind, pure, Except.pure]
        exact ⟨_, rfl, hout⟩
      · obtain ⟨out, ho, hout⟩ := ih t ht
        simp only [ho, bind, Except.bind, pure, Except.pure]
        exact ⟨_, rfl, hout⟩
  obtain ⟨out, ho, hout⟩ := hexpand f.body f.locals hf.within
  simp only [inlineInto, ho, bind, Except.bind, pure, Except.pure]
  exact ⟨_, _, rfl, hout, hf.counted⟩

theorem exists_inlineIntoAll_of_fits (hroom : bound + names.card < indexLimit) {callee : Function}
    (hcallee : ∀ j < callee.params.length, argumentName callee.name j ∈ names) (prepared : Body) :
    ∀ {fs : List Function}, (∀ f ∈ fs, f.Fits names bound) →
      ∃ fs' t, inlineIntoAll callee prepared fs = .ok (fs', t) ∧ ∀ f ∈ fs', f.Fits names bound
  | [], _ => ⟨[], [], rfl, by simp⟩
  | f :: fs, h => by
    have hf := h f List.mem_cons_self
    obtain ⟨fs', t, hfs, hfits⟩ := exists_inlineIntoAll_of_fits hroom hcallee prepared
      fun g hg => h g (List.mem_cons_of_mem _ hg)
    rw [inlineIntoAll]
    split
    · simp only [hfs, bind, Except.bind, pure, Except.pure]
      exact ⟨_, _, rfl, List.forall_mem_cons.mpr ⟨hf, hfits⟩⟩
    · obtain ⟨f', t', hinto, hf'⟩ := exists_inlineInto_of_fits hroom hcallee prepared hf
      simp only [hinto, hfs, bind, Except.bind, pure, Except.pure]
      exact ⟨_, _, rfl, List.forall_mem_cons.mpr ⟨hf', hfits⟩⟩

end Inline

/-- Whatever renumbering keeps holds of the functions that stay, when one function is removed and
the calls of the others are renumbered. -/
theorem Program.forall_withoutFunction {P : Function → Prop} {p : Program} {index : Nat}
    (hP : ∀ c f, P f → P (f.compactCalls c)) (h : ∀ f ∈ p.functions, P f) :
    ∀ f ∈ (p.withoutFunction index).functions, P f := by
  intro g hg
  unfold withoutFunction removeFunction at hg
  split at hg
  · rename_i hsome
    split at hsome
    · cases hsome
    · obtain ⟨-, rfl⟩ := Prod.mk.inj (Option.some.inj hsome)
      obtain ⟨f, hf, rfl⟩ := List.mem_map.mp hg
      exact hP _ f (h f (List.mem_of_mem_eraseP hf))
  · exact h g hg

/-- **Inlining in a program whose functions fit is not refused**, and they still fit. Nothing is
assumed about the order in which functions are inlined or how often a callee is spliced in. -/
theorem Inline.exists_inlineCallee_of_fits (hroom : bound + names.card < indexLimit) {p : Program}
    {callee : Function} (hmem : callee ∈ p.functions) {tailCalled : List Nat}
    (ho : callee.obstacles tailCalled = []) (h : ∀ f ∈ p.functions, f.Fits names bound) :
    ∃ p' t, inlineCallee p callee = .ok (p', t) ∧ ∀ f ∈ p'.functions, f.Fits names bound := by
  obtain ⟨fs, t, hfs, hfits⟩ := exists_inlineIntoAll_of_fits hroom
    ((h callee hmem).argumentName_mem ho) (callee.preparedBody p.signatureAt?) h
  simp only [inlineCallee, hfs, bind, Except.bind, pure, Except.pure]
  exact ⟨_, _, rfl, Program.forall_withoutFunction (fun c f hf => hf.compactCalls c) hfits⟩

/-! ## 4. Runs

The condition on the program that is run: behind the largest index of each of its functions there is
room for all parameters of all functions. -/

/-- **Indices are left**: the highest local index of any function and the number of all parameters
together stay below the last index. -/
def Program.HasHeadroom (p : Program) : Prop :=
  ∀ f ∈ p.functions, ∀ l ∈ f.locals.entries, l.index + p.paramTotal < indexLimit - 1

/-- The names that inlining can give: one for each parameter of each function. They depend on names
and parameter counts only, and so there are never more of them than at the start. -/
def Program.argumentNames (p : Program) : List String :=
  p.functions.flatMap fun f => (List.range f.paramCount).map (argumentName f.name)

theorem Program.length_argumentNames (p : Program) : p.argumentNames.length = p.paramTotal := by
  simp only [argumentNames, paramTotal]
  induction p.functions with
  | nil => rfl
  | cons f fs ih => simp [ih]

theorem Program.HasHeadroom.fits {p : Program} (h : p.HasHeadroom) :
    ∃ names bound, bound + names.card < indexLimit ∧ ∀ f ∈ p.functions, f.Fits names bound := by
  by_cases hlocals : ∃ f ∈ p.functions, ∃ l, l ∈ f.locals.entries
  · obtain ⟨f₀, hf₀, l₀, hl₀⟩ := hlocals
    have h₀ := h f₀ hf₀ l₀ hl₀
    have hcard := List.toFinset_card_le p.argumentNames
    rw [p.length_argumentNames] at hcard
    refine ⟨p.argumentNames.toFinset, indexLimit - 1 - p.paramTotal, by omega,
      fun f hf => ⟨fun l hl => ?_, .inr fun j hj => ?_⟩⟩
    · have := h f hf l hl
      omega
    · rw [List.mem_toFinset]
      exact List.mem_flatMap.mpr ⟨f, hf, List.mem_map.mpr ⟨j, List.mem_range.mpr hj, rfl⟩⟩
  · refine ⟨∅, 0, by decide, fun f hf => ⟨fun l hl => ?_, .inl ⟨rfl, rfl⟩⟩⟩
    exact absurd ⟨f, hf, l, hl⟩ hlocals

theorem Program.HasHeadroom.exists_run {p : Program} (h : p.HasHeadroom) (c : Config) :
    ∃ q t, Optimize.run c p = .ok (q, t) := by
  obtain ⟨names, bound, hroom, hfits⟩ := h.fits
  refine Optimize.exists_run (P := fun p => ∀ f ∈ p.functions, f.Fits names bound) ?_ ?_ hfits
  · exact fun p callee hmem ho hp => Inline.exists_inlineCallee_of_fits hroom hmem ho hp
  · intro p hp g hg
    simp only [Optimize.optimizeFunctions, List.map_map, List.mem_map, Function.comp] at hg
    obtain ⟨f, hf, rfl⟩ := hg
    exact (hp f hf).optimizeFunction _ _

/-! ## 5. Assembling

A program can be assembled when it has none of three defects.  The passes bring in none: functions
move to their places, tables without gaps stay so, and globals are not touched. -/

namespace Program.Assemblable

variable {p : Program}

/-- Inlining leaves a program that can be assembled: indices are positions, locals have no gaps, and
globals are as before. -/
theorem inlineCallee (h : p.Assemblable) {callee : Function} (hmem : callee ∈ p.functions)
    {p' : Program} {t : Trace} (hi : Inline.inlineCallee p callee = .ok (p', t)) :
    p'.Assemblable := by
  obtain ⟨k, hk⟩ := List.getElem?_of_mem hmem
  have hspec := inlineCallee_spec h.indices hk hi
  refine ⟨hspec.indices h.indices hk, hspec.globals ▸ h.constants, fun g hg => ?_⟩
  obtain ⟨i', hi'⟩ := List.getElem?_of_mem hg
  obtain ⟨i, f, f', t, -, -, hf, hin, rfl⟩ := hspec.exists_source hi'
  exact (locals_of_inlineInto (h.locals f (List.mem_of_getElem? hf)) hin).1

/-- So do the passes on the functions, which touch neither indices nor globals and compact the
locals. -/
theorem optimizeFunctions (h : p.Assemblable) (c : Config) :
    (Optimize.optimizeFunctions c p).1.Assemblable := by
  refine ⟨fun i g hg => ?_, h.constants, fun g hg => ?_⟩
  · rw [Optimize.getElem?_optimizeFunctions] at hg
    obtain ⟨f, hf, rfl⟩ := Option.map_eq_some_iff.mp hg
    rw [(Optimize.optimizeFunction_identity _ _ _).1]
    exact h.indices i f hf
  · obtain ⟨i, hi⟩ := List.getElem?_of_mem hg
    rw [Optimize.getElem?_optimizeFunctions] at hi
    obtain ⟨f, hf, rfl⟩ := Option.map_eq_some_iff.mp hi
    exact Optimize.optimizeFunction_induction (P := fun g => g.locals.isContiguous)
      (fun g b _ hg => hg) (fun g hg => (LocalTable.compact_contiguous hg _).1) f
      (h.locals f (List.mem_of_getElem? hf))

/-- **What could be assembled before a run can be assembled after it.** The three conditions, on the
places of functions, the starts of globals and the numbers of locals, are kept by each change that a
run is made of. -/
theorem of_run (h : p.Assemblable) {c : Config} {q : Program} {t : Trace}
    (hrun : Optimize.run c p = .ok (q, t)) : q.Assemblable :=
  Optimize.run_induction (P := Program.Assemblable)
    (fun _ _ _ _ hmem _ hi hp => hp.inlineCallee hmem hi) (fun _ hp => hp.optimizeFunctions c)
    hrun h

end Program.Assemblable

/-- Compiling fails to assemble exactly when there is nothing to assemble. -/
theorem Program.exists_emit_encoding_iff {p : Program} :
    (∃ e, p.emit = .error (.encoding e)) ↔ ¬ ∃ bytes, p.assemble = .ok bytes := by
  unfold Program.emit
  cases p.assemble with
  | error e => simp
  | ok bytes =>
    simp only [Except.ok.injEq, exists_eq', not_true_eq_false, iff_false, not_exists]
    split <;> simp

/-! ## 6. The result

The three parts of the statement come from different places: the run by position, the run of the
library, and the assembler. -/

open Positional in
/-- **Optimizing runs to completion and leaves a program that can be assembled if it could be
before.**  The bodies are arbitrary: regions may be unbalanced, locals undeclared, labels out of
range and markers misplaced.  The optimizer by position makes no access out of range, no difference
below zero and no step that leads nowhere, and gives the same.  So compiling fails to assemble under
some settings only if it fails to assemble without optimizing. -/
theorem optimize_completes (c : Config) (p : Program) (h : p.HasHeadroom) :
    (∃ q t, optimize c p = .ok (q, t) ∧ optimizeAt c p = .ok (q, t) ∧
      ((∃ bytes, p.assemble = .ok bytes) → ∃ bytes, q.assemble = .ok bytes)) ∧
    ∃ r r₀, compile c p = .ok r ∧ compile { c with level := .off } p = .ok r₀ ∧
      ((∃ e, r.outcome = .error (.encoding e)) → ∃ e, r₀.outcome = .error (.encoding e)) := by
  obtain ⟨q, t, hrun⟩ := h.exists_run c
  have hassemble : (∃ bytes, p.assemble = .ok bytes) → ∃ bytes, q.assemble = .ok bytes := by
    simp only [Program.exists_assemble_iff]
    exact fun hp => hp.of_run hrun
  have hopt : optimize c p = .ok (q, t.shown c.verbose) := by
    simp only [optimize, hrun, bind, Except.bind, pure, Except.pure]
  refine ⟨⟨q, _, hopt, by rw [optimizeAt_eq, hopt]; rfl, hassemble⟩, ?_⟩
  have hoff : Optimize.run { c with level := .off } p = .ok (p, []) := by simp [Optimize.run]
  simp only [compile, hrun, hoff, bind, Except.bind, pure, Except.pure]
  refine ⟨_, _, rfl, rfl, fun he => ?_⟩
  rw [Program.exists_emit_encoding_iff] at he ⊢
  exact fun hp => he (hassemble hp)

/-- A program that is wrong in many ways: indices that are skipped and repeated, locals that are not
declared, regions that are not closed or not opened, labels and calls out of range, and markers
where they do not belong. -/
def unruly : Program where
  imports := []
  functions :=
    [{ index := 3, name := "spin", params := [.i32], 
       locals := ⟨[⟨"x", 6, .i32⟩], List.pairwise_singleton _ _⟩, result := none,
       body := [⟨.close, some (.typeCase .string)⟩, Op.elseArm.plain, (Op.br 9).plain,
         (Op.localGet 6).plain, Op.drop.plain, Op.ret.plain],
       throws := false, usesMemory := false },
     { index := 3, name := "main", params := [],
       locals := ⟨[⟨"a", 5, .i32⟩, ⟨"b", 5, .f64⟩], by decide⟩, result := some .i32,
       body := [⟨.enter .ifThen none, some (.typeCase .array)⟩, (Op.call 3).plain,
         (Op.localSet 40).plain, (Op.localGet 40).plain, (Op.enter .block none).plain,
         ⟨.close, some .typeSwitchEnd⟩, (Op.call 8).plain, Op.close.plain, Op.close.plain],
       throws := false, usesMemory := false }]
  globals := []
  tags := []
  exceptions := []
  types := .empty

theorem optimize_completes_unruly : unruly.HasHeadroom ∧
    ∃ q t, optimize { level := .fold } unruly = .ok (q, t) ∧
      Positional.optimizeAt { level := .fold } unruly = .ok (q, t) := by
  have h : ∀ f ∈ unruly.functions, ∀ l ∈ f.locals.entries,
      l.index + unruly.paramTotal < indexLimit - 1 := by decide +kernel
  obtain ⟨q, t, hq, hat, -⟩ := (optimize_completes { level := .fold } unruly h).1
  exact ⟨h, q, t, hq, hat⟩

end WasmTrim
