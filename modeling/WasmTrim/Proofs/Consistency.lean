/-
# Consistent programs

The parts of a program refer to each other by number: functions by their index, calls by the
index of the callee, operands of `local.get` and its kin by the index of a local.  A program is
*consistent* when all these numbers mean something: every function stands at its index, every
call and every local exists, the parameters are the first locals, and a function that touches
memory says so.

The optimizer renumbers functions and locals all the time, and it keeps programs consistent
(`consistent_of_run`).  Functions disappear, but those that stay keep their names, signatures
and order, and the entry point stays (`Retains`).

Scoping and the flags on memory are kept apart.  The former is needed nearly everywhere, the latter
where it matters whether a program has a memory; and the two are kept for different reasons.
Indices stay in range because no pass makes one up: a step takes the indices of new instructions
from old ones, and inlining puts in locals that it has declared.  Flags stay right because an
operation on memory never comes out of nothing, and the function that one comes into is given the
flag of the function that it comes from.

The converse is not true and not claimed: a function may keep the flag when its last operation on
memory has been removed, and the flag of a function that is removed without having been called is
lost.

Running out of local indices is the one way in which inlining fails.  A function can take in at most
every parameter of the program under the names made for them, so a program with that much room has
a result.
-/
import WasmTrim.Proofs.Inline.Prepared
import WasmTrim.Proofs.Inline.Splice
import WasmTrim.Proofs.Pipeline

namespace WasmTrim

/-! ## 1. Functions

A step of a pass keeps the names of locals and functions within bounds because it makes its
operations of those that were there, and for the same reason it makes up no use of memory. -/

/-- **A function is well scoped** in a program with the given number of callables: it declares its
parameters and names no local and no function that is not there. -/
structure Function.Scoped (callables : Nat) (f : Function) : Prop where
  declares : f.DeclaresParams
  locals : ∀ i ∈ f.body, ∀ l, i.op.localIndex? = some l → l < f.locals.size
  calls : ∀ i ∈ f.body, ∀ t, i.op.callTarget? = some t → t < callables

/-- A function that touches memory says so: its flag `uses_memory` is set whenever an instruction of
its body reads, writes or resizes memory. Whether the program has a memory is decided by these flags
alone, and the type checker looks at the program as a whole, so a valid program may still have a
function that relies on the flag of another. -/
def Function.DeclaresMemory (f : Function) : Prop :=
  ∀ i ∈ f.body, i.op.touchesMemory → f.usesMemory

section

variable {callables : Nat} {f : Function}

/-- A step brings in no new numbers: the locals and callables that the new code mentions were
mentioned before. -/
theorem Function.Scoped.step (h : f.Scoped callables) {s : Surround} {b : Body}
    (hb : f.body.Step s b) : Function.Scoped callables { f with body := b } where
  declares := ⟨h.declares.contiguous, h.declares.params⟩
  locals := by
    intro i hi l e
    obtain ⟨j, hj, ej⟩ := (hb.provides i hi).locals l e
    exact h.locals j hj l ej
  calls := by
    intro i hi t e
    obtain ⟨j, hj, ej⟩ := (hb.provides i hi).calls t e
    exact h.calls j hj t ej

theorem Op.isRigid_of_touchesMemory {op : Op} (h : op.touchesMemory) : op.isRigid := by
  cases op with
  | load | store | memorySize | memoryGrow => rfl
  | _ => cases h

theorem Function.DeclaresMemory.step (h : f.DeclaresMemory) {s : Surround} {b : Body}
    (hb : f.body.Step s b) : Function.DeclaresMemory { f with body := b } := by
  intro i hi hm
  obtain ⟨j, hj, ej⟩ := (hb.provides i hi).rigid (Op.isRigid_of_touchesMemory hm)
  exact h j hj (ej ▸ hm)

end

/-! ## 2. Removing locals

What is removed is named by nothing (`eliminate`), so every name that is left has a new number, and
the new numbers close the gaps. -/

namespace DeadLocals

theorem mem_unused {f : Function} {i : Nat} :
    i ∈ unused f ↔
      (∃ l ∈ f.locals.entries, l.index = i) ∧ f.paramCount ≤ i ∧ f.body.uses i = 0 := by
  simp [unused]

/-- An unused local is not used, by any instruction of the body; so renumbering never meets an index
that was removed. -/
theorem notMem_unused {f : Function} {i : Instr} {l : Nat} (hi : i ∈ f.body)
    (hl : i.op.localIndex? = some l) : l ∉ unused f := by
  intro hm
  have h := (mem_unused.mp hm).2.2
  exact List.countP_eq_zero.mp h i hi (decide_eq_true hl)

/-- The removal of unused locals leaves the parameters where they are. -/
theorem apply_of_lt_paramCount {f : Function} {i : Nat} (h : i < f.paramCount) :
    (Compaction.removing (unused f)).apply i = i :=
  Compaction.apply_of_forall_le _
    (fun _ hj => (mem_unused.mp (Compaction.mem_removing.mp hj)).2.1) h

/-- **The parameters stay the first locals.** Only locals behind them are ever removed, so their
indices do not move. -/
theorem declaresParams_removeLocals {f : Function} (h : f.DeclaresParams) :
    (removeLocals f (unused f)).DeclaresParams where
  contiguous := (LocalTable.compact_contiguous h.contiguous _).1
  params := by
    refine List.prefix_iff_getElem?.mpr fun i hi => ?_
    have hi' : i < f.paramCount := hi
    have hn : i ∉ (Compaction.removing (unused f)).removed := by
      intro hm
      have := (mem_unused.mp (Compaction.mem_removing.mp hm)).2.1
      omega
    have ht := LocalTable.types_compact h.contiguous (Compaction.removing (unused f)) hn
      (by have := h.paramCount_le; omega)
    rw [apply_of_lt_paramCount hi'] at ht
    exact ht.trans (List.prefix_iff_getElem?.mp h.params i hi)

/-- **Removing unused locals keeps a function well scoped.** The locals that stay are those that the
body may still name, and they are renumbered together with it. -/
theorem scoped_removeLocals {callables : Nat} {f : Function} (h : f.Scoped callables) :
    (removeLocals f (unused f)).Scoped callables where
  declares := declaresParams_removeLocals h.declares
  locals := by
    intro i hi l e
    obtain ⟨j, hj, rfl⟩ := List.mem_map.mp hi
    rw [Instr.op_mapLocal, Op.localIndex?_mapLocal] at e
    obtain ⟨l₀, hl₀, rfl⟩ := Option.map_eq_some_iff.mp e
    have hn : l₀ ∉ (Compaction.removing (unused f)).removed :=
      fun hm => notMem_unused hj hl₀ (Compaction.mem_removing.mp hm)
    have hsize := (LocalTable.compact_contiguous h.declares.contiguous
      (Compaction.removing (unused f))).2
    exact hsize ▸ Compaction.apply_lt_of_lt _ hn (h.locals j hj l₀ hl₀)
  calls := by
    intro i hi t e
    obtain ⟨j, hj, rfl⟩ := List.mem_map.mp hi
    refine h.calls j hj t (e ▸ ?_)
    rw [Instr.op_mapLocal]
    cases j.op <;> rfl

theorem declaresMemory_removeLocals {f : Function} (h : f.DeclaresMemory) :
    (removeLocals f (unused f)).DeclaresMemory := by
  intro i hi hm
  obtain ⟨j, hj, rfl⟩ := List.mem_map.mp hi
  refine h j hj (hm ▸ ?_)
  rw [Instr.op_mapLocal]
  cases j.op <;> rfl

theorem size_removeLocals_le {f : Function} (h : f.DeclaresParams) :
    (removeLocals f (unused f)).locals.size ≤ f.locals.size := by
  have hsize := (LocalTable.compact_contiguous h.contiguous (Compaction.removing (unused f))).2
  have e : (removeLocals f (unused f)).locals.size
      = (f.locals.compact (.removing (unused f))).size := rfl
  omega

end DeadLocals

/-! ## 3. Programs

`Retains` says of two lists of functions that the second has come of the first by leaving functions
out: no name, no signature and no order has changed. -/

/-- **A program is well scoped**: every function stands at its index and is well scoped. It follows
that every call in it is a call of an import or of the function at that place. -/
structure Program.Scoped (p : Program) : Prop where
  indices : ∀ (i : Nat) (f : Function), p.functions[i]? = some f → f.index = p.functionBase + i
  functions : ∀ f ∈ p.functions, f.Scoped (p.imports.length + p.functions.length)

/-- **A program is consistent**: it is well scoped, and what touches memory says so. -/
structure Program.Consistent (p : Program) : Prop extends p.Scoped where
  memory : ∀ f ∈ p.functions, f.DeclaresMemory

/-- What is left of a list of functions: some that are not the entry point are removed, the others
keep their names, parameters and results, and their order. -/
inductive Retains : List Function → List Function → Prop where
  | nil : Retains [] []
  | keep {f g : Function} {fs gs : List Function} (name : g.name = f.name)
    (params : g.params = f.params) (result : g.result = f.result) (rest : Retains fs gs) :
    Retains (f :: fs) (g :: gs)
  | remove {f : Function} {fs gs : List Function} (entry : f.isEntry = false)
    (rest : Retains fs gs) : Retains (f :: fs) gs

namespace Retains

theorem refl : ∀ fs : List Function, Retains fs fs
  | [] => .nil
  | _ :: fs => .keep rfl rfl rfl (refl fs)

theorem trans {fs gs hs : List Function} (h : Retains fs gs) (h' : Retains gs hs) :
    Retains fs hs := by
  induction h generalizing hs with
  | nil => exact h'
  | keep name params result _ ih =>
    cases h' with
    | keep name' params' result' rest' =>
      exact .keep (name'.trans name) (params'.trans params) (result'.trans result) (ih rest')
    | remove entry rest' =>
      refine .remove ?_ (ih rest')
      simpa [Function.isEntry, name] using entry
  | remove entry _ ih => exact .remove entry (ih h')

/-- Changing functions one by one, with name, parameters and result of each left as they are.
Nothing is removed. -/
theorem of_getElem? : ∀ {fs gs : List Function}, gs.length = fs.length →
    (∀ (i : Nat) (f : Function), fs[i]? = some f → ∃ g, gs[i]? = some g ∧ g.name = f.name ∧
      g.params = f.params ∧ g.result = f.result) → Retains fs gs
  | [], [], _, _ => .nil
  | f :: fs, g :: gs, hl, h => by
    obtain ⟨g', e, hn, hp, hr⟩ := h 0 f rfl
    obtain rfl : g = g' := by simpa using e
    refine .keep hn hp hr (of_getElem? (by simpa using hl) fun i f hf => ?_)
    simpa using h (i + 1) f (by simpa using hf)

theorem eraseIdx : ∀ {fs : List Function} {k : Nat} {f : Function}, fs[k]? = some f →
    f.isEntry = false → Retains fs (fs.eraseIdx k)
  | g :: fs, 0, f, h, hf => by
    obtain rfl : g = f := by simpa using h
    exact .remove hf (refl fs)
  | g :: fs, k + 1, f, h, hf => .keep rfl rfl rfl (eraseIdx (by simpa using h) hf)

end Retains

/-! ## 4. Inlining

A caller takes in instructions of the callee, stores for the arguments and perhaps a block.  Each of
them is looked at once, for what it names and for whether it uses memory. -/

namespace Inline

theorem mem_tailCallTargets {p : Program} {f : Function} {i : Instr} {t : Nat}
    (hf : f ∈ p.functions) (hi : i ∈ f.body) (ht : i.op = .returnCall t) :
    t ∈ p.tailCallTargets := by
  simp only [Program.tailCallTargets, List.mem_flatMap, List.mem_filterMap]
  exact ⟨f, hf, i, hi, by rw [ht]; rfl⟩

/-- The instructions that replace a call store the arguments, or are those of the callee with its
parameters renamed. -/
theorem mem_callCode {prepared : Body} {arguments : List Nat} {i : Instr}
    (h : i ∈ callCode prepared arguments) :
    (∃ a ∈ arguments, i = (Op.localSet a).plain) ∨
      ∃ j ∈ prepared, i = j.mapLocal (renameLocal arguments) := by
  simp only [callCode, storeArguments, List.mem_append, List.mem_map, List.mem_reverse] at h
  rcases h with ⟨a, ha, rfl⟩ | ⟨j, hj, rfl⟩
  · exact .inl ⟨a, ha, rfl⟩
  · exact .inr ⟨j, hj, rfl⟩

section

variable {p p' : Program} {callee : Function} {k : Nat} {f f' : Function} {t : Trace}

/-- **Where an instruction of a caller comes from** after inlining: from the caller, where it is not
one of the calls that were replaced; from the stores of the arguments; from the callee, with its
locals renamed; or it is a branch or the wrapping of the body, which names neither a local nor a
function. -/
theorem mem_inlined {arguments : List Nat} {signatureOf : Nat → Option Signature} {i : Instr}
    (h : i ∈ replaceCalls callee.index
      (callCode (callee.preparedBody signatureOf) arguments) f.body) :
    (i ∈ f.body ∧ i.op ≠ .call callee.index) ∨ (∃ a ∈ arguments, i = (Op.localSet a).plain) ∨
      (∃ j ∈ callee.body, i = j.mapLocal (renameLocal arguments)) ∨
      (i.op.localIndex? = none ∧ i.op.callTarget? = none ∧ i.op.touchesMemory = false) := by
  rcases mem_replaceCalls.mp h with h | ⟨h, -⟩
  · exact .inl h
  · rcases mem_callCode h with h | ⟨j, hj, rfl⟩
    · exact .inr (.inl h)
    · rcases Function.mem_preparedBody hj with hj | e | e | ⟨label, e⟩
      · exact .inr (.inr (.inl ⟨j, hj, rfl⟩))
      all_goals exact .inr (.inr (.inr (by rw [Instr.op_mapLocal, e]; exact ⟨rfl, rfl, rfl⟩)))

/-- **A caller stays well scoped** when an eligible callee is put in place of its calls, and the
callee is not called any more. -/
theorem scoped_inlineInto (hp : p.Scoped) (hk : p.functions[k]? = some callee)
    (he : callee.Eligible p.tailCallTargets) (hf : f ∈ p.functions)
    (h : inlineInto callee (callee.preparedBody p.signatureAt?) f = .ok (f', t)) :
    f'.Scoped (p.imports.length + p.functions.length) ∧
      ∀ i ∈ f'.body, i.op.callTarget? ≠ some callee.index := by
  have hfc := hp.functions f hf
  have hgc := hp.functions callee (List.mem_of_getElem? hk)
  -- a call of the callee that is not replaced would be a tail call
  have hown : ∀ i ∈ f.body, i.op ≠ .call callee.index → i.op.callTarget? ≠ some callee.index := by
    intro i hi hne ht
    cases ho : i.op <;> rw [ho] at ht hne <;> simp only [Op.callTarget?, Option.some.injEq,
      reduceCtorEq] at ht
    · exact hne (by rw [ht])
    · exact he.notTarget (mem_tailCallTargets hf hi (by rw [ho, ht]))
  rcases inlineInto_cases hfc.declares.contiguous h with ⟨hn, rfl⟩ | ⟨-, locals, arguments, hd, rfl⟩
  · exact ⟨hfc, fun i hi => hown i hi (hn i hi)⟩
  · have hspec := declareArguments_spec hfc.declares.contiguous hd
    refine ⟨⟨⟨hspec.contiguous, hfc.declares.params.trans hspec.longer⟩, ?_, ?_⟩, ?_⟩
    · intro i hi l e
      rcases mem_inlined hi with ⟨hi, -⟩ | ⟨a, ha, rfl⟩ | ⟨j, hj, rfl⟩ | ⟨hl, -, -⟩
      · exact Nat.lt_of_lt_of_le (hfc.locals i hi l e) hspec.size_le
      · obtain rfl : a = l := by simpa [Op.localIndex?] using e
        exact hspec.lt ha
      · rw [Instr.op_mapLocal, Op.localIndex?_mapLocal] at e
        obtain ⟨l₀, hl₀, rfl⟩ := Option.map_eq_some_iff.mp e
        have hlt := hgc.locals j hj l₀ hl₀
        rw [he.size, Function.paramCount, ← hspec.length] at hlt
        rw [renameLocal, List.getElem?_eq_getElem hlt]
        exact hspec.lt (List.getElem_mem hlt)
      · rw [hl] at e
        cases e
    · intro i hi t e
      rcases mem_inlined hi with ⟨hi, -⟩ | ⟨a, ha, rfl⟩ | ⟨j, hj, rfl⟩ | ⟨-, hc, -⟩
      · exact hfc.calls i hi t e
      · cases e
      · refine hgc.calls j hj t (e ▸ ?_)
        rw [Instr.op_mapLocal]
        cases j.op <;> rfl
      · rw [hc] at e
        cases e
    · intro i hi e
      rcases mem_inlined hi with ⟨hi, hne⟩ | ⟨a, ha, rfl⟩ | ⟨j, hj, rfl⟩ | ⟨-, hc, -⟩
      · exact hown i hi hne e
      · cases e
      · have hself := he.notSelf j hj
        have htail := he.noTailCall j hj
        rw [Instr.op_mapLocal] at e
        cases ho : j.op <;> rw [ho] at e hself htail <;> simp only [Op.mapLocal, Op.callTarget?,
          Option.some.injEq, reduceCtorEq] at e
        · exact hself (by rw [e])
        · cases htail
      · rw [hc] at e
        cases e

theorem declaresMemory_inlineInto (hc : f.locals.isContiguous) (hf : f.DeclaresMemory)
    (hcallee : callee.DeclaresMemory)
    (h : inlineInto callee (callee.preparedBody p.signatureAt?) f = .ok (f', t)) :
    f'.DeclaresMemory := by
  rcases inlineInto_cases hc h with ⟨-, rfl⟩ | ⟨-, locals, arguments, -, rfl⟩
  · exact hf
  · intro i hi hm
    simp only [Bool.or_eq_true]
    rcases mem_inlined hi with ⟨hi, -⟩ | ⟨a, ha, rfl⟩ | ⟨j, hj, rfl⟩ | ⟨-, -, hm'⟩
    · exact .inl (hf i hi hm)
    · cases hm
    · refine .inr (hcallee j hj (hm ▸ ?_))
      rw [Instr.op_mapLocal]
      cases j.op <;> rfl
    · rw [hm'] at hm
      cases hm

/-- Renumbering the calls keeps a function well scoped, in a program with one callable less. -/
theorem scoped_compactCalls {n index : Nat} (h : f.Scoped (n + 1)) (hindex : index < n + 1)
    (hcalls : ∀ i ∈ f.body, i.op.callTarget? ≠ some index) :
    (f.compactCalls (.removing [index])).Scoped n where
  declares := ⟨h.declares.contiguous, h.declares.params⟩
  locals := by
    intro i hi l e
    obtain ⟨j, hj, rfl⟩ := List.mem_map.mp hi
    refine h.locals j hj l (e ▸ ?_)
    rw [Instr.op_mapCall]
    cases j.op <;> rfl
  calls := by
    intro i hi t e
    obtain ⟨j, hj, rfl⟩ := List.mem_map.mp hi
    rw [Instr.op_mapCall, Op.callTarget?_mapCall] at e
    obtain ⟨t₀, ht₀, rfl⟩ := Option.map_eq_some_iff.mp e
    have hne : t₀ ≠ index := fun e => hcalls j hj (e ▸ ht₀)
    have hlt := h.calls j hj t₀ ht₀
    rw [Compaction.apply_removing_one]
    split <;> omega

theorem declaresMemory_compactCalls (h : f.DeclaresMemory) (c : Compaction) :
    (f.compactCalls c).DeclaresMemory := by
  intro i hi hm
  obtain ⟨j, hj, rfl⟩ := List.mem_map.mp hi
  refine h j hj (hm ▸ ?_)
  rw [Instr.op_mapCall]
  cases j.op <;> rfl

/-- **Inlining keeps programs well scoped.** The code of the callee names locals that were declared
for it, and all calls follow the functions to their new places. -/
theorem Inlined.wellScoped (h : Inlined p p' callee k) (hp : p.Scoped)
    (hk : p.functions[k]? = some callee) (he : callee.Eligible p.tailCallTargets) :
    p'.Scoped where
  indices := by
    intro i' g hg
    obtain ⟨i, f, f', t, hi, rfl, hf, hin, rfl⟩ := h.exists_source hg
    have hcallee := hp.indices k callee hk
    have hfi := hp.indices i f hf
    simp only [Function.compactCalls, index_of_inlineInto hin, Compaction.apply_removing_one, hfi,
      hcallee, Program.functionBase, h.imports, position, Nat.add_lt_add_iff_left]
    split <;> omega
  functions := by
    intro g hg
    obtain ⟨i', hi'⟩ := List.getElem?_of_mem hg
    obtain ⟨i, f, f', t, hi, -, hf, hin, rfl⟩ := h.exists_source hi'
    obtain ⟨hc, hcalls⟩ := scoped_inlineInto hp hk he (List.mem_of_getElem? hf) hin
    have hl := h.length_functions hk
    have hcallee := hp.indices k callee hk
    have hlt := (List.getElem?_eq_some_iff.mp hk).1
    rw [h.imports]
    refine scoped_compactCalls (n := p.imports.length + p'.functions.length) ?_ ?_ hcalls
    · rwa [Nat.add_assoc, hl]
    · rw [hcallee, Program.functionBase]
      omega

theorem Inlined.memory (h : Inlined p p' callee k) (hp : p.Consistent)
    (hk : p.functions[k]? = some callee) : ∀ g ∈ p'.functions, g.DeclaresMemory := by
  intro g hg
  obtain ⟨i', hi'⟩ := List.getElem?_of_mem hg
  obtain ⟨i, f, f', t, -, -, hf, hin, rfl⟩ := h.exists_source hi'
  have hm := List.mem_of_getElem? hf
  exact declaresMemory_compactCalls (declaresMemory_inlineInto
    (hp.functions f hm).declares.contiguous (hp.memory f hm)
    (hp.memory callee (List.mem_of_getElem? hk)) hin) _

/-- **Inlining removes only the callee.** All other functions are still there, in the same order,
with the names and the signatures that they had. -/
theorem Inlined.retains (h : Inlined p p' callee k) (hp : p.Scoped)
    (hk : p.functions[k]? = some callee) (he : callee.Eligible p.tailCallTargets) :
    Retains p.functions p'.functions := by
  obtain ⟨fs, hl, hfs, hrel⟩ := h.functions
  have hfirst : Retains p.functions fs := by
    refine .of_getElem? hl fun i f hf => ?_
    obtain ⟨f', hf', hcase⟩ := hrel i f hf
    refine ⟨f', hf', ?_⟩
    rcases hcase with ⟨-, rfl⟩ | ⟨-, t, ht⟩
    · exact ⟨rfl, rfl, rfl⟩
    · have hc := (hp.functions f (List.mem_of_getElem? hf)).declares.contiguous
      rcases inlineInto_cases hc ht with ⟨-, rfl⟩ | ⟨-, locals, arguments, -, rfl⟩
      · exact ⟨rfl, rfl, rfl⟩
      · exact ⟨rfl, rfl, rfl⟩
  have hcallee : fs[k]? = some callee := by
    obtain ⟨f', hf', hcase⟩ := hrel k callee hk
    rcases hcase with ⟨-, rfl⟩ | ⟨hne, -⟩
    · exact hf'
    · exact absurd rfl hne
  have hmap : Retains (fs.eraseIdx k) p'.functions := by
    rw [hfs]
    refine .of_getElem? (by simp) fun i f hf =>
      ⟨f.compactCalls (.removing [callee.index]), ?_, rfl, rfl, rfl⟩
    rw [List.getElem?_map, hf, Option.map_some]
  exact (hfirst.trans (.eraseIdx hcallee he.notEntry)).trans hmap

end

end Inline

/-! ## 5. Room for more locals

Inlining a callee uses up at most its parameters, in every caller at once, and takes them off the
sum when the callee is removed. -/

namespace Program

/-- The number of all parameters, of all functions together. Inlining adds at most so many locals to
a function. -/
def paramTotal (p : Program) : Nat := (p.functions.map Function.paramCount).foldr (· + ·) 0

/-- No function can run out of local indices: even if it takes in every other function, there is
an index left. -/
def HasRoom (p : Program) : Prop :=
  ∀ f ∈ p.functions, f.locals.size + p.paramTotal < indexLimit

end Program

theorem foldr_add_eraseIdx : ∀ {l : List Nat} {k n : Nat}, l[k]? = some n →
    (l.eraseIdx k).foldr (· + ·) 0 + n = l.foldr (· + ·) 0
  | x :: l, 0, n, h => by
    obtain rfl : x = n := by simpa using h
    rw [List.eraseIdx_cons_zero, List.foldr_cons, Nat.add_comm]
  | x :: l, k + 1, n, h => by
    have ih : (l.eraseIdx k).foldr (· + ·) 0 + n = l.foldr (· + ·) 0 :=
      foldr_add_eraseIdx (by simpa using h)
    rw [List.eraseIdx_cons_succ, List.foldr_cons, List.foldr_cons]
    omega

namespace Inline

variable {p p' : Program} {callee : Function} {k : Nat}

theorem Inlined.paramTotal (h : Inlined p p' callee k) (hp : p.Scoped)
    (hk : p.functions[k]? = some callee) :
    p'.paramTotal + callee.paramCount = p.paramTotal := by
  obtain ⟨fs, hl, hfs, hrel⟩ := h.functions
  have hcounts : fs.map Function.paramCount = p.functions.map Function.paramCount := by
    refine List.ext_getElem? fun i => ?_
    rw [List.getElem?_map, List.getElem?_map]
    cases hf : p.functions[i]? with
    | none =>
      have := List.getElem?_eq_none_iff.mp hf
      rw [List.getElem?_eq_none (by omega)]
    | some f =>
      obtain ⟨f', hf', hcase⟩ := hrel i f hf
      rw [hf']
      rcases hcase with ⟨-, rfl⟩ | ⟨-, t, ht⟩
      · rfl
      · have hc := (hp.functions f (List.mem_of_getElem? hf)).declares.contiguous
        rcases inlineInto_cases hc ht with ⟨-, rfl⟩ | ⟨-, locals, arguments, -, rfl⟩ <;> rfl
  have herase : p'.functions.map Function.paramCount
      = (p.functions.map Function.paramCount).eraseIdx k := by
    rw [← hcounts, hfs, List.map_map]
    refine List.ext_getElem? fun i => ?_
    simp only [List.getElem?_map, List.getElem?_eraseIdx]
    split <;> rfl
  rw [Program.paramTotal, herase]
  exact foldr_add_eraseIdx (by rw [List.getElem?_map, hk]; rfl)

/-- **Inlining succeeds while there is room**, and leaves enough room. A caller may get as many new
locals as the callee has parameters, and the parameters of the callee are no longer counted once it
is gone. -/
theorem exists_inlineCallee (hp : p.Scoped) (hroom : p.HasRoom)
    (hk : p.functions[k]? = some callee) :
    ∃ p' t, inlineCallee p callee = .ok (p', t) ∧ p'.HasRoom := by
  have hle : callee.paramCount ≤ p.paramTotal := by
    have hm : (p.functions.map Function.paramCount)[k]? = some callee.paramCount := by
      rw [List.getElem?_map, hk, Option.map_some]
    have := foldr_add_eraseIdx hm
    rw [Program.paramTotal]
    omega
  have hfit : ∀ f ∈ p.functions, ∃ f' t,
      inlineInto callee (callee.preparedBody p.signatureAt?) f = .ok (f', t) ∧
        f'.locals.size ≤ f.locals.size + callee.params.length := by
    intro f hf
    have hr := hroom f hf
    simp only [Function.paramCount] at hle
    exact exists_inlineInto (hp.functions f hf).declares.contiguous (by omega)
  have hall : ∀ f ∈ p.functions, f.index ≠ callee.index →
      ∃ f' t, inlineInto callee (callee.preparedBody p.signatureAt?) f = .ok (f', t) := by
    intro f hf _
    obtain ⟨f', t, h, -⟩ := hfit f hf
    exact ⟨f', t, h⟩
  obtain ⟨fs, t, hfs⟩ := exists_inlineIntoAll hall
  have hok : inlineCallee p callee
      = .ok (({ p with functions := fs } : Program).withoutFunction callee.index, t) := by
    simp only [inlineCallee, hfs, bind, Except.bind, pure, Except.pure]
  refine ⟨_, _, hok, fun g hg => ?_⟩
  have h := inlineCallee_spec hp.indices hk hok
  obtain ⟨i', hi'⟩ := List.getElem?_of_mem hg
  obtain ⟨i, f, f', t', -, -, hf, hin, rfl⟩ := h.exists_source hi'
  obtain ⟨f'', t'', hin', hsize⟩ := hfit f (List.mem_of_getElem? hf)
  obtain ⟨rfl, -⟩ := Prod.mk.inj (Except.ok.inj (hin.symm.trans hin'))
  have htotal := h.paramTotal hp hk
  have hr := hroom f (List.mem_of_getElem? hf)
  simp only [Function.compactCalls, Function.paramCount] at htotal ⊢
  omega

end Inline

/-! ## 6. The optimizer

The invariants of single changes become those of a run by the induction principles of
`Proofs/Pipeline`, and with them what a run preserves of the program that it was given. -/

/-- What the passes on one function keep: what other functions and the host can see of it, and that
its indices exist. -/
structure Function.Kept (callables : Nat) (f g : Function) : Prop where
  wellScoped : g.Scoped callables
  index : g.index = f.index
  name : g.name = f.name
  params : g.params = f.params
  result : g.result = f.result
  size : g.locals.size ≤ f.locals.size
  names : ∀ l ∈ g.locals.entries, ∃ l' ∈ f.locals.entries, l'.name = l.name
  memory : f.DeclaresMemory → g.DeclaresMemory

namespace Optimize

theorem kept_optimizeFunction {callables : Nat} {f : Function} (h : f.Scoped callables)
    (level : Level) (ctx : Peephole.Context) :
    f.Kept callables (optimizeFunction level ctx f).1 := by
  refine optimizeFunction_induction ?_ ?_ f
    ⟨h, rfl, rfl, rfl, rfl, Nat.le_refl _, fun l hl => ⟨l, hl, rfl⟩, id⟩
  · intro g b hb hg
    exact { hg with wellScoped := hg.wellScoped.step hb, memory := fun h => (hg.memory h).step hb }
  · intro g hg
    refine { hg with
      wellScoped := DeadLocals.scoped_removeLocals hg.wellScoped
      size := Nat.le_trans (DeadLocals.size_removeLocals_le hg.wellScoped.declares) hg.size
      names := fun l hl => ?_
      memory := fun h => DeadLocals.declaresMemory_removeLocals (hg.memory h) }
    obtain ⟨k, hk, -, rfl⟩ := LocalTable.mem_compact.mp hl
    exact hg.names k hk

theorem getElem?_optimizeFunctions {c : Config} {p : Program} (i : Nat) :
    (optimizeFunctions c p).1.functions[i]?
      = (p.functions[i]?).map fun f => (optimizeFunction c.level (context c p) f).1 := by
  simp only [optimizeFunctions, List.map_map, List.getElem?_map]
  rfl

theorem length_optimizeFunctions {c : Config} {p : Program} :
    (optimizeFunctions c p).1.functions.length = p.functions.length := by
  simp [optimizeFunctions]

/-- Every function comes from the one at its position, and keeps what the passes on a function keep.
-/
theorem kept_of_getElem? {c : Config} {p : Program} (h : p.Scoped) {i : Nat} {g : Function}
    (hg : (optimizeFunctions c p).1.functions[i]? = some g) : ∃ f, p.functions[i]? = some f ∧
      f.Kept (p.imports.length + p.functions.length) g := by
  rw [getElem?_optimizeFunctions] at hg
  obtain ⟨f, hf, rfl⟩ := Option.map_eq_some_iff.mp hg
  exact ⟨f, hf, kept_optimizeFunction (h.functions f (List.mem_of_getElem? hf)) _ _⟩

theorem optimizeFunctions_scoped {c : Config} {p : Program} (h : p.Scoped) :
    (optimizeFunctions c p).1.Scoped where
  indices := by
    intro i g hg
    obtain ⟨f, hf, hk⟩ := kept_of_getElem? h hg
    rw [hk.index]
    exact h.indices i f hf
  functions := by
    intro g hg
    obtain ⟨i, hi⟩ := List.getElem?_of_mem hg
    obtain ⟨f, hf, hk⟩ := kept_of_getElem? h hi
    rw [length_optimizeFunctions]
    exact hk.wellScoped

theorem optimizeFunctions_memory {c : Config} {p : Program} (h : p.Consistent) :
    ∀ g ∈ (optimizeFunctions c p).1.functions, g.DeclaresMemory := by
  intro g hg
  obtain ⟨i, hi⟩ := List.getElem?_of_mem hg
  obtain ⟨f, hf, hk⟩ := kept_of_getElem? h.toScoped hi
  exact hk.memory (h.memory f (List.mem_of_getElem? hf))

theorem optimizeFunctions_retains {c : Config} {p : Program} (h : p.Scoped) :
    Retains p.functions (optimizeFunctions c p).1.functions := by
  refine .of_getElem? length_optimizeFunctions fun i f hf => ?_
  have hk := kept_optimizeFunction (h.functions f (List.mem_of_getElem? hf)) c.level (context c p)
  exact ⟨_, by rw [getElem?_optimizeFunctions, hf]; rfl, hk.name, hk.params, hk.result⟩

theorem optimizeFunctions_hasRoom {c : Config} {p : Program} (h : p.Scoped) (hr : p.HasRoom) :
    (optimizeFunctions c p).1.HasRoom := by
  have htotal : (optimizeFunctions c p).1.paramTotal = p.paramTotal := by
    unfold Program.paramTotal
    refine congrArg (List.foldr (· + ·) 0) (List.ext_getElem? fun i => ?_)
    rw [List.getElem?_map, List.getElem?_map, getElem?_optimizeFunctions]
    cases hf : p.functions[i]? with
    | none => rfl
    | some f =>
      have hk := kept_optimizeFunction (h.functions f (List.mem_of_getElem? hf)) c.level
        (context c p)
      simp only [Option.map_some, Function.paramCount, hk.params]
  intro g hg
  obtain ⟨i, hi⟩ := List.getElem?_of_mem hg
  obtain ⟨f, hf, hk⟩ := kept_of_getElem? h hi
  have := hr f (List.mem_of_getElem? hf)
  have := hk.size
  omega

end Optimize

/-- What the optimizer promises about the parts of its result. -/
structure Program.Preserved (p q : Program) : Prop where
  imports : q.imports = p.imports
  globals : q.globals = p.globals
  tags : q.tags = p.tags
  exceptions : q.exceptions = p.exceptions
  types : q.types = p.types
  functions : Retains p.functions q.functions

namespace Program.Preserved

variable {p q r : Program}

theorem refl (p : Program) : p.Preserved p := ⟨rfl, rfl, rfl, rfl, rfl, .refl _⟩

theorem trans (h : p.Preserved q) (h' : q.Preserved r) : p.Preserved r :=
  ⟨h'.imports.trans h.imports, h'.globals.trans h.globals, h'.tags.trans h.tags,
    h'.exceptions.trans h.exceptions, h'.types.trans h.types, h.functions.trans h'.functions⟩

end Program.Preserved

theorem Inline.Inlined.preserved {p p' : Program} {callee : Function} {k : Nat}
    (h : Inlined p p' callee k) (hp : p.Scoped) (hk : p.functions[k]? = some callee)
    (he : callee.Eligible p.tailCallTargets) : p.Preserved p' :=
  ⟨h.imports, h.globals, h.tags, h.exceptions, h.types, h.retains hp hk he⟩

theorem Optimize.optimizeFunctions_preserved {c : Config} {p : Program} (h : p.Scoped) :
    p.Preserved (optimizeFunctions c p).1 :=
  ⟨rfl, rfl, rfl, rfl, rfl, optimizeFunctions_retains h⟩

/-- A result of `optimize` is a result of a run. -/
theorem exists_run_of_optimize {c : Config} {p q : Program} {t : Trace}
    (h : optimize c p = .ok (q, t)) : ∃ t', Optimize.run c p = .ok (q, t') := by
  simp only [optimize, bind, Except.bind] at h
  split at h
  · cases h
  · rename_i v hv
    obtain ⟨q', t'⟩ := v
    obtain ⟨rfl, -⟩ := Prod.mk.inj (Except.ok.inj h)
    exact ⟨t', hv⟩

/-- Every candidate of a program with room can be inlined. -/
theorem Inline.exists_inlined {p : Program} {callee : Function} (hm : callee ∈ p.functions)
    (ho : callee.obstacles p.tailCallTargets = []) (h : p.Scoped ∧ p.HasRoom) :
    ∃ p' t, inlineCallee p callee = .ok (p', t) ∧ p'.Scoped ∧ p'.HasRoom := by
  obtain ⟨k, hk⟩ := List.getElem?_of_mem hm
  obtain ⟨p', t, hp', hr'⟩ := exists_inlineCallee h.1 h.2 hk
  have hi := inlineCallee_spec h.1.indices hk hp'
  exact ⟨p', t, hp', hi.wellScoped h.1 hk (Function.eligible_of_obstacles ho), hr'⟩

/-- **The optimizer gives a result** as long as no function can run out of local indices. No other
request of the passes is ever refused. -/
theorem exists_optimize (c : Config) {p : Program} (h : p.Scoped) (hr : p.HasRoom) :
    ∃ q t, optimize c p = .ok (q, t) := by
  obtain ⟨q, t, hq⟩ := Optimize.exists_run (c := c) (P := fun q => q.Scoped ∧ q.HasRoom)
    (fun q callee hm ho h => Inline.exists_inlined hm ho h)
    (fun q ⟨hc, hr⟩ =>
      ⟨Optimize.optimizeFunctions_scoped hc, Optimize.optimizeFunctions_hasRoom hc hr⟩) ⟨h, hr⟩
  exact ⟨q, t.shown c.verbose, by simp only [optimize, hq, bind, Except.bind, pure, Except.pure]⟩

/-- A run keeps everything that the optimizer promises, by one lemma for an inlining step and one
for a round of passes. -/
theorem consistent_of_run {c : Config} {p q : Program} {t : Trace} (hp : p.Consistent)
    (h : Optimize.run c p = .ok (q, t)) : q.Consistent ∧ p.Preserved q := by
  refine Optimize.run_induction (P := fun q => q.Consistent ∧ p.Preserved q) (c := c) ?_ ?_ h
    ⟨hp, .refl p⟩
  · rintro q callee q' t hm ho hin ⟨hc, hq⟩
    obtain ⟨k, hk⟩ := List.getElem?_of_mem hm
    have he := Function.eligible_of_obstacles ho
    have hi := Inline.inlineCallee_spec hc.indices hk hin
    exact ⟨⟨hi.wellScoped hc.toScoped hk he, hi.memory hc hk⟩,
      hq.trans (hi.preserved hc.toScoped hk he)⟩
  · rintro q ⟨hc, hq⟩
    exact ⟨⟨Optimize.optimizeFunctions_scoped hc.toScoped, Optimize.optimizeFunctions_memory hc⟩,
      hq.trans (Optimize.optimizeFunctions_preserved hc.toScoped)⟩

/-- **The optimizer keeps programs consistent.**  What it returns is consistent, has the imports,
globals, tags and types of the program before, and its functions are some of those before, the
entry point among them.  It does return something unless a function runs out of local indices. -/
theorem optimize_consistent (c : Config) (p : Program) (hp : p.Consistent) :
    (∀ q t, optimize c p = .ok (q, t) → q.Consistent ∧ p.Preserved q) ∧
    (p.HasRoom → ∃ q t, optimize c p = .ok (q, t)) := by
  refine ⟨fun q t h => ?_, exists_optimize c hp.toScoped⟩
  obtain ⟨t', hrun⟩ := exists_run_of_optimize h
  exact consistent_of_run hp hrun

/-! ## 7. An example

One program for the examples of several theorems, in which a callee needs every part of the
preparation. -/

/-- A computation that succeeds, and what is true of its result, read off a part of the result that
can be evaluated and compared. -/
theorem exists_ok_of_map {ε α β : Type} {r : Except ε α} {f : α → β} {b : β}
    (h : r.toOption.map f = some b) : ∃ a, r = .ok a ∧ f a = b := by
  cases r with
  | error e => cases h
  | ok a => exact ⟨a, rfl, Option.some.inj h⟩

/-- A program that tells the host a number.  The function that computes it returns early from a
region, writes its parameter, reads memory, and is called with its own result. -/
def sample : Program where
  imports := [⟨"env", "log", ⟨[.i32], none⟩⟩]
  functions := [
    { index := 1, name := entryName, params := [], locals := ⟨[], .nil⟩, result := none
      body := [.const (.i32 3), .call 2, .call 2, .call 0].map Op.plain
      throws := false, usesMemory := false },
    { index := 2, name := "fetch", params := [.i32]
      locals := ⟨[⟨"address", 0, .i32⟩], List.pairwise_singleton _ _⟩, result := some .i32
      body := [.localGet 0, .num .i32Eqz, .enter .ifThen none, .const (.i32 1), .ret, .close,
        .localGet 0, .load .i32 ⟨0, 2⟩, .localTee 0].map Op.plain
      throws := false, usesMemory := true }]
  globals := []
  tags := []
  exceptions := []
  types := .empty

theorem sample_indices : ∀ (i : Nat) (f : Function), sample.functions[i]? = some f →
    f.index = sample.functionBase + i
  | 0, _, h | 1, _, h => by
    obtain rfl := Option.some.inj h
    rfl

theorem sample_declares : ∀ f ∈ sample.functions, f.DeclaresParams := by
  intro f hf
  simp only [sample, List.mem_cons, List.not_mem_nil, or_false] at hf
  rcases hf with rfl | rfl <;>
    exact ⟨by simp [LocalTable.isContiguous, LocalTable.byIndex, LocalTable.size],
      by simp [LocalTable.types, LocalTable.byIndex]⟩

theorem sample_consistent : sample.Consistent := by
  have hlocals : ∀ f ∈ sample.functions, ∀ i ∈ f.body, ∀ l ∈ i.op.localIndex?,
      l < f.locals.size := by decide
  have hcalls : ∀ f ∈ sample.functions, ∀ i ∈ f.body, ∀ t ∈ i.op.callTarget?,
      t < sample.imports.length + sample.functions.length := by decide
  have hmemory : ∀ f ∈ sample.functions, ∀ i ∈ f.body, i.op.touchesMemory → f.usesMemory := by
    decide
  exact ⟨⟨sample_indices, fun f hf => ⟨sample_declares f hf, hlocals f hf, hcalls f hf⟩⟩, hmemory⟩

theorem sample_hasRoom : sample.HasRoom := by
  have h : ∀ f ∈ sample.functions, f.locals.size + sample.paramTotal < indexLimit := by decide
  exact h

theorem optimize_consistent_sample : sample.Consistent ∧ sample.HasRoom ∧
    ∃ q t, optimize { level := .fold } sample = .ok (q, t) ∧ q.functions.length = 1 ∧
      q.Consistent ∧ sample.Preserved q := by
  have h := optimize_consistent { level := .fold } sample sample_consistent
  obtain ⟨q, t, hq⟩ := h.2 sample_hasRoom
  have hlength : (optimize { level := .fold } sample).toOption.map
      (fun r => r.1.functions.length) = some 1 := by decide +kernel
  rw [hq] at hlength
  exact ⟨sample_consistent, sample_hasRoom, q, t, hq, Option.some.inj hlength, h.1 q t hq⟩

end WasmTrim
