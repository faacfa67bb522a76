/-
# The passes on one function

Removing unused locals is a renaming of the locals that stay, and a body cannot tell the
difference (`DeadLocals.refines_removeLocals`).  The other steps of the passes are rewrites.  So
the passes refine every function of a well-scoped program without markers
(`Optimize.refines_optimizeFunction`), and the program as a whole
(`Optimize.invoke_optimizeFunctions`).

The number of rounds does not enter.  Every round is a chain of steps, each a refinement, and a
repetition that is cut short has made fewer of them; so the statement holds for the function a run
stops with, whether it stopped at its bound or because nothing changed.

Markers are excluded once and for all at this level.  Two rules apply only at markers, and both
rest on more than the body shows: `deadTypeCase` on the record of constructed types, and
`emptyTypeSwitch` on nobody reading the captured type.
-/
import WasmTrim.Proofs.Consistency
import WasmTrim.Proofs.Semantics.Rewrites

namespace WasmTrim

/-! ## 1. Renaming operations

A renaming changes plain operations only, so the structure of the code stays. -/

/-- Replacing each plain operation by another one, the same wherever it stands, is mapping along the
list. -/
theorem Congruence.substitute_map {r : Op → Op} (hr : ∀ o, ¬ o.isPlain → r o = o) :
    ∀ (n : Nesting) (ops : List Op), substitute (fun _ o => .op (r o) .done) n ops = ops.map r
  | _, [] => rfl
  | n, o :: ops => by
    rw [substitute, substitute_map hr, List.map_cons]
    split
    · rfl
    · rename_i h
      rw [hr o h]
      rfl

theorem Op.mapLocal_of_not_isPlain (f : Nat → Nat) {o : Op} (h : ¬ o.isPlain) :
    o.mapLocal f = o := by
  cases o with
  | localGet _ | localSet _ | localTee _ => exact absurd rfl h
  | _ => rfl

/-! ## 2. Removing unused locals

The locals that stay keep their values under their new numbers, on entry and at every step; the
locals that go are never mentioned. -/

namespace DeadLocals

/-- The locals before and after a removal: those that stay have the same values. -/
def Kept (c : Compaction) (size : Nat) (l l' : List Value) : Prop :=
  l.length = size ∧ l'.length = size - c.below size ∧
    ∀ i, i ∉ c.removed → i < size → l'[c.apply i]? = l[i]?

theorem Kept.readsAs {c : Compaction} {size i : Nat} (hi : i ∉ c.removed) :
    Setting.ReadsAs (Kept c size) i (c.apply i) := by
  intro l l' h v hv
  have hlt : i < size := h.1 ▸ (List.getElem?_eq_some_iff.mp hv).1
  rw [h.2.2 i hi hlt, hv]

theorem Kept.writesAs {c : Compaction} {size i : Nat} (hi : i ∉ c.removed) :
    Setting.WritesAs (Kept c size) i (c.apply i) := by
  intro l l' h hlt
  have hlt' : c.apply i < l'.length := by
    rw [h.2.1]
    exact c.apply_lt_of_lt hi (h.1 ▸ hlt)
  refine ⟨hlt', fun v => ⟨by simp [h.1], by simp [h.2.1], fun j hj hjs => ?_⟩⟩
  by_cases e : j = i
  · subst e
    rw [List.getElem?_set_self hlt', List.getElem?_set_self hlt]
  · have hne : c.apply i ≠ c.apply j := fun h => e (c.apply_inj hj hi h.symm)
    rw [List.getElem?_set_ne hne, List.getElem?_set_ne (Ne.symm e)]
    exact h.2.2 j hj hjs

/-- On entry the locals that stay have the same values: the arguments, and zeros of the same
types. -/
theorem kept_entry {f : Function} (hf : f.DeclaresParams) (args : List Value)
    (ha : args.length = f.params.length) :
    Kept (.removing (unused f)) f.locals.size (args ++ f.localTypes.map Value.zero)
      (args ++ (removeLocals f (unused f)).localTypes.map Value.zero) := by
  have hf' := declaresParams_removeLocals hf
  have hle := hf.paramCount_le
  have hle' := hf'.paramCount_le
  have hpc : (removeLocals f (unused f)).paramCount = f.paramCount := rfl
  have htypes : (removeLocals f (unused f)).locals.types
      = (f.locals.compact (.removing (unused f))).types := rfl
  have hsize := (LocalTable.compact_contiguous hf.contiguous (Compaction.removing (unused f))).2
  have ha' : args.length = f.paramCount := ha
  have hl : f.localTypes.length = f.locals.size - f.paramCount := by
    rw [hf.localTypes, List.length_drop, LocalTable.length_types]
  have hl' : (removeLocals f (unused f)).localTypes.length
      = (f.locals.compact (.removing (unused f))).size - f.paramCount := by
    rw [hf'.localTypes, List.length_drop, htypes, LocalTable.length_types, hpc]
  have hsize' : f.paramCount ≤ (f.locals.compact (.removing (unused f))).size := hle'
  refine ⟨?_, ?_, fun i hi hlt => ?_⟩
  · rw [List.length_append, List.length_map, hl]
    omega
  · rw [List.length_append, List.length_map, hl', hsize]
    omega
  · by_cases hip : i < f.paramCount
    · rw [apply_of_lt_paramCount hip, List.getElem?_append_left (by omega),
        List.getElem?_append_left (by omega)]
    · -- the other locals keep their order, so they stay behind the parameters
      have hge : f.paramCount ≤ (Compaction.removing (unused f)).apply i := by
        by_cases hz : f.paramCount = 0
        · omega
        · have hlast : f.paramCount - 1 < f.paramCount := by omega
          have hn : f.paramCount - 1 ∉ (Compaction.removing (unused f)).removed := by
            intro hm
            have := (mem_unused.mp (Compaction.mem_removing.mp hm)).2.1
            omega
          have := Compaction.apply_lt _ hn hi (show f.paramCount - 1 < i by omega)
          rw [apply_of_lt_paramCount hlast] at this
          omega
      rw [List.getElem?_append_right (by omega), List.getElem?_append_right (by omega),
        List.getElem?_map, List.getElem?_map, hf.localTypes, hf'.localTypes, List.getElem?_drop,
        List.getElem?_drop, hpc, htypes, ha', Nat.add_sub_cancel' hge,
        Nat.add_sub_cancel' (by omega), LocalTable.types_compact hf.contiguous _ hi hlt]

/-- **Removing unused locals refines the function.** Unused means that the body names them nowhere,
so it never sees that they are gone; the others have new numbers, in the body as in the table. -/
theorem refines_removeLocals {signatures : List Signature} {f : Function} (hf : f.DeclaresParams) :
    f.Refines signatures (removeLocals f (unused f)) := by
  refine Function.refines_of_sim (Kept (.removing (unused f)) f.locals.size) rfl rfl
    (kept_entry hf) fun M _ _ c hc => ?_
  have hops : (removeLocals f (unused f)).body.ops
      = Congruence.substitute
          (fun _ o => .op (o.mapLocal (Compaction.removing (unused f)).apply) .done) []
          f.body.ops := by
    rw [Congruence.substitute_map fun o ho => Op.mapLocal_of_not_isPlain _ ho]
    simp [removeLocals, Function.compactLocals, Body.ops]
  rw [hops]
  refine Setting.plain_self.congruence.parse_substitute (fun _ _ _ _ _ => trivial)
    (fun o _ hp _ => ?_) (fun before o after e hp c c' h => ?_) hc
  · exact ⟨by cases o <;> exact hp, trivial⟩
  · have hm : o ∈ f.body.ops := e ▸ List.mem_append_right _ List.mem_cons_self
    have hused : ∀ l, o.localIndex? = some l → l ∉ (Compaction.removing (unused f)).removed := by
      intro l hl hr
      obtain ⟨i, hi, rfl⟩ := Body.mem_ops.mp hm
      exact notMem_unused hi hl (Compaction.mem_removing.mp hr)
    have hadm : (Setting.plain M M (Kept (.removing (unused f)) f.locals.size)).Admits
        (Nesting.observeAll [] before).length (Compaction.removing (unused f)).apply (fun t => t)
        o := by
      refine ⟨fun i e => ?_, fun i e => ?_, fun t _ => Setting.plain_calls t,
        fun label _ => Setting.plain_allows _ label, fun _ => trivial, fun _ h => h⟩
      · subst e
        exact Kept.readsAs (hused i rfl)
      · exact Kept.writesAs (hused i (Op.localIndex?_of_storedLocal? e))
    have hsim := Setting.plain_self.opSim hadm
    rw [Op.mapCall_id] at hsim
    exact hsim.cons h

end DeadLocals

/-! ## 3. All passes

From one function to all: every function of the new program refines the one at its place, and calls
of either end alike. -/

namespace Program

/-- The signature of a callable is the one at its position, if functions stand at their
indices. -/
theorem signatureAt?_eq {p : Program}
    (h : ∀ (i : Nat) (f : Function), p.functions[i]? = some f → f.index = p.functionBase + i)
    (index : Nat) : p.signatureAt? index = p.signatures[index]? := by
  have hcallables : p.callables = p.signatures.mapIdx fun i s => (i, s) := by
    refine List.ext_getElem? fun i => ?_
    rw [List.getElem?_mapIdx, callables, signatures]
    by_cases hi : i < p.imports.length
    · rw [List.getElem?_append_left (by simpa using hi),
        List.getElem?_append_left (by simpa using hi)]
      simp only [List.getElem?_mapIdx, List.getElem?_map, Option.map_map]
      rfl
    · rw [List.getElem?_append_right (by simpa using hi),
        List.getElem?_append_right (by simpa using hi)]
      simp only [List.length_mapIdx, List.length_map, List.getElem?_map]
      cases hf : p.functions[i - p.imports.length]? with
      | none => rfl
      | some f =>
        have := h _ f hf
        rw [functionBase, Nat.add_sub_cancel' (by omega)] at this
        simp [this]
  have hlookup : ∀ (l : List Signature) (base : Nat),
      (l.mapIdx fun i s => (base + i, s)).reverse.lookup index
        = if base ≤ index then l[index - base]? else none := by
    intro l
    induction l with
    | nil => simp
    | cons s l ih =>
      intro base
      have ih := ih (base + 1)
      rw [List.mapIdx_cons, List.reverse_cons, List.lookup_append]
      have e : (fun i s => (base + (i + 1), s))
          = fun (i : Nat) (s : Signature) => (base + 1 + i, s) := by
        funext i s
        simp only [Prod.mk.injEq, and_true]
        omega
      rw [e, ih]
      by_cases hb : base + 1 ≤ index
      · rw [if_pos hb, if_pos (by omega), show index - base = index - (base + 1) + 1 by omega,
          List.getElem?_cons_succ]
        have hne : (index == base) = false := by
          simp only [beq_eq_false_iff_ne, ne_eq]
          omega
        simp [List.lookup_cons, hne]
      · rw [if_neg hb]
        by_cases he : index = base
        · subst he
          simp
        · have hne : (index == base) = false := by simp [he]
          rw [if_neg (by omega)]
          simp [List.lookup_cons, hne]
  have := hlookup p.signatures 0
  simp only [Nat.zero_add, Nat.zero_le, if_true, Nat.sub_zero] at this
  rw [Program.signatureAt?, hcallables, this]

theorem Scoped.signatureAt? {p : Program} (h : p.Scoped) (index : Nat) :
    p.signatureAt? index = p.signatures[index]? :=
  signatureAt?_eq h.indices index

end Program

/-- **A step refines a function without markers.** The rewrites of a dispatch over runtime types ask
for markers, and so they are not among those that such a function can undergo. -/
theorem Function.refines_of_step {signatures : List Signature} {f : Function}
    {resultsOf : Nat → Option Nat} {b : Body} (hm : f.body.MarkerFree)
    (hsignatures : ∀ t count, resultsOf t = some count → ∀ signature,
      signatures[t]? = some signature → signature.result.arity = count)
    (h : f.body.Step (f.surround resultsOf) b) : f.Refines signatures { f with body := b } := by
  cases hc : Code.parse f.body.ops with
  | none =>
    refine ⟨rfl, rfl, fun h => by simp [hc] at h, fun M _ args w _ => .inl ?_⟩
    simp only [run, hc]
  | some c =>
    exact refines_of_rewritesTo (s := f.surround resultsOf) rfl rfl hsignatures (h.rewrites hm c hc)

namespace Optimize

/-- **The passes refine every function** that declares its parameters and has no markers, whatever
the settings: rounds are made of steps and of removals of unused locals. -/
theorem refines_optimizeFunction {c : Config} {p : Program} (hp : p.Scoped) {f : Function}
    (hf : f.DeclaresParams) (hm : f.body.MarkerFree) :
    f.Refines p.signatures (optimizeFunction c.level (context c p) f).1 := by
  refine (optimizeFunction_induction (P := fun g => f.Refines p.signatures g ∧ g.DeclaresParams ∧
    g.body.MarkerFree) ?_ ?_ f ⟨.refl _ f, hf, hm⟩).1
  · intro g b hb ⟨href, hd, hfree⟩
    refine ⟨href.trans (Function.refines_of_step hfree (fun t count ht s hs => ?_) hb),
      ⟨hd.contiguous, hd.params⟩, hb.markerFree hfree⟩
    simp only [context, hp.signatureAt?, hs, Option.map_some, Option.some.injEq] at ht
    exact ht
  · intro g ⟨href, hd, hfree⟩
    refine ⟨href.trans (DeadLocals.refines_removeLocals hd),
      DeadLocals.declaresParams_removeLocals hd, fun i hi => ?_⟩
    obtain ⟨j, hj, rfl⟩ := List.mem_map.mp hi
    exact hfree j hj

theorem markerFree_optimizeFunction {level : Level} {ctx : Peephole.Context} {f : Function}
    (hm : f.body.MarkerFree) : (optimizeFunction level ctx f).1.body.MarkerFree := by
  refine optimizeFunction_induction (P := fun g => g.body.MarkerFree)
    (fun g b hb hfree => hb.markerFree hfree) (fun g hfree i hi => ?_) f hm
  obtain ⟨j, hj, rfl⟩ := List.mem_map.mp hi
  exact hfree j hj

theorem usesMemory_optimizeFunction (level : Level) (ctx : Peephole.Context) (f : Function) :
    (optimizeFunction level ctx f).1.usesMemory = f.usesMemory :=
  optimizeFunction_induction (P := fun g => g.usesMemory = f.usesMemory)
    (fun _ _ _ h => h) (fun _ h => h) f rfl

theorem usesMemory_optimizeFunctions (c : Config) (p : Program) :
    (optimizeFunctions c p).1.usesMemory = p.usesMemory := by
  simp only [Program.usesMemory, optimizeFunctions, List.map_map, List.any_map]
  refine congrArg (List.any p.functions) (funext fun f => ?_)
  exact usesMemory_optimizeFunction _ _ f

/-- **The passes on all functions refine the program**: within the same bounds every call ends as
before, unless it was stuck. -/
theorem invoke_optimizeFunctions {c : Config} {p : Program} (hp : p.Scoped)
    (hm : ∀ f ∈ p.functions, f.body.MarkerFree) {σ : Type} (u : FloatUnit) (host : Host σ)
    (fuel index : Nat) (s : Signature) (args : List Value) (w : World σ)
    (hs : p.signatures[index]? = some s) (ha : args.length = s.params.length) :
    Covers (p.invoke u host fuel index args w)
      ((optimizeFunctions c p).1.invoke u host fuel index args w) := by
  refine Program.invoke_refines (by rfl) (by rfl) (fun hm => usesMemory_optimizeFunctions c p ▸ hm)
    length_optimizeFunctions (fun k f f' hf hf' => ?_) u host fuel index s args w hs ha
  rw [getElem?_optimizeFunctions, hf, Option.map_some] at hf'
  obtain rfl := Option.some.inj hf'
  have hmem := List.mem_of_getElem? hf
  exact refines_optimizeFunction hp (hp.functions f hmem).declares (hm f hmem)

end Optimize

end WasmTrim
