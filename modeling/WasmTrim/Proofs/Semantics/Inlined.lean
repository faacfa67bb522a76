/-
# Programs after inlining

The simulation between a call and the code in its place is lifted to whole programs.  One callee
is inlined at a time.  First its last `return` is left out where it does nothing; that is a
refinement of the callee (`Inline.trimmed`).  Then every other function is run side by side with
what inlining has made of it (`Inline.Inlining.agree_step`), and by induction on the bounds every
call that is not a call of the callee ends alike (`Inline.Inlining.agree`).

The induction is on the bounds and not on the program, because functions call each other in
circles: after inlining, what was a call of a call may be a single call, and the only thing that
gets smaller is what is left of the bound.  The call of the callee is not in the statement, since
after inlining there is no callee; where it is needed it is one level further down and is run
directly, on the body that is spliced.

Three renumberings meet in a spliced body: parameters become locals of the caller, the functions
behind the callee move down by one, and in a wrapped body the label of the function becomes that
of the block.

**Memory.**  A machine has a memory if the flag of some function says so.  The caller keeps its
flag and receives that of the callee, so an operation that has a memory before has one after,
provided that the function it comes from says that it uses it (`memory_caller`, `memory_callee`).
This is the place where that condition is used.
-/
import WasmTrim.Proofs.Semantics.Inlining

namespace WasmTrim.Inline

/-! ## 1. The new body

The body of a caller after the inlining is the old one with every operation replaced, and parses to
the old code with a code in place of each. -/

/-- The code that an operation of a caller becomes: the code for a call of the callee, or the same
operation with its callee renumbered. The regions around it do not matter. -/
def expanded (index : Nat) (g : Nat → Nat) (code : Code) (_ : Nesting) (o : Op) : Code :=
  if o = .call index then code else .op (o.mapCall g) .done

theorem mapCall_of_not_isPlain (g : Nat → Nat) {o : Op} (h : ¬ o.isPlain) : o.mapCall g = o := by
  cases o with
  | call _ | returnCall _ => exact absurd rfl h
  | _ => rfl

/-- The body of a caller after inlining, as a replacement of operations. -/
theorem substitute_expanded (index : Nat) {g : Nat → Nat} {code : Code} {b : Body}
    (hcode : code.ops = Body.ops (b.map (Instr.mapCall g))) : ∀ (n : Nesting) (body : Body),
    Congruence.substitute (expanded index g code) n body.ops
      = Body.ops ((replaceCalls index b body).map (Instr.mapCall g))
  | _, [] => rfl
  | n, i :: body => by
    have ih := substitute_expanded index hcode (n.observe i.op) body
    rw [Body.ops_cons, Congruence.substitute, ih]
    simp only [replaceCalls, List.flatMap_cons, List.map_append, Body.ops_append]
    refine congrArg (· ++ _) ?_
    by_cases hi : i.op = .call index
    · have hp : i.op.isPlain := by
        rw [hi]
        rfl
      simp only [expanded, if_pos hi, if_pos hp, hcode]
    · simp only [expanded, if_neg hi, List.map_cons, List.map_nil, Body.ops_cons, Body.ops_nil,
        Instr.op_mapCall]
      split
      · rfl
      · rename_i hp
        rw [mapCall_of_not_isPlain g hp]

/-- The operations of the code in place of a call. -/
theorem ops_callCodeOf {arguments : List Nat} {result : ResultType} {b : Body} {d : Code}
    {g : Nat → Nat}
    (hd : d.ops = Body.ops (((if b.exitsEarly [] then b.branchReturns [] else b).map
      (Instr.mapLocal (renameLocal arguments))).map (Instr.mapCall g))) :
    (callCodeOf arguments (b.exitsEarly []) result d).ops
      = Body.ops ((callCode (if b.exitsEarly [] then b.wrapped result else b) arguments).map
          (Instr.mapCall g)) := by
  have hstores : Body.ops ((storeArguments arguments).map (Instr.mapCall g))
      = arguments.reverse.map Op.localSet := by
    simp [storeArguments, Body.ops, Op.plain, Instr.mapCall, Op.mapCall]
  unfold callCodeOf callCode
  rw [Code.ops_append, Code.ops_ofOps, List.map_append, Body.ops_append, hstores]
  refine congrArg _ ?_
  cases he : b.exitsEarly [] with
  | false =>
    rw [he] at hd
    exact hd
  | true =>
    rw [he] at hd
    simp only [if_true] at hd ⊢
    simp only [Code.ops, Arms.ops, hd, Body.wrapped, List.append_nil, List.cons_append,
      List.map_cons, List.map_append, List.map_nil, Body.ops_cons, Body.ops_append, Body.ops_nil,
      Instr.op_mapCall, Instr.op_mapLocal, Op.op_plain, Op.mapLocal, Op.mapCall]

/-! ## 2. One inlining

Everything about one step is a consequence of `Inlining`: that the bodies parse, that the new names
are new, and what the step has made of every function. -/

/-- **One inlining** in a program whose bodies can be parsed, where the names of the arguments are
new. -/
structure Inlining (p p' : Program) (callee : Function) (k : Nat) : Prop where
  wellScoped : p.Scoped
  position : p.functions[k]? = some callee
  eligible : callee.Eligible p.tailCallTargets
  inlined : Inlined p p' callee k
  parses : ∀ f ∈ p.functions, (Code.parse f.body.ops).isSome
  fresh : ∀ f ∈ p.functions, ∀ j, f.locals.find? (argumentName callee.name j) = none
  memory : ∀ f ∈ p.functions, f.DeclaresMemory

/-- The callee without a last `return` that does nothing, which stands between the callee and its
prepared body in the argument. -/
def trimmedCallee (p : Program) (callee : Function) : Function :=
  { callee with body := callee.withoutFinalReturn p.signatureAt? }

/-- The program in which only the callee is trimmed of a `return` at its end, and everything else is
as it was. It stands between the programs before and after inlining. -/
def trimmed (p : Program) (callee : Function) (k : Nat) : Program :=
  { p with functions := p.functions.set k (trimmedCallee p callee) }

/-- The new index of a callable, once the callee has been removed (`remove_function`): one less
above the callee, and the same below. -/
def renumber (callee : Function) : Nat → Nat := (Compaction.removing [callee.index]).apply

namespace Inlining

variable {p p' : Program} {callee : Function} {k : Nat} (h : Inlining p p' callee k)

include h

theorem callee_mem : callee ∈ p.functions := List.mem_of_getElem? h.position

theorem callee_index : callee.index = p.imports.length + k :=
  h.wellScoped.indices k callee h.position

theorem getElem?_trimmed (i : Nat) : (trimmed p callee k).functions[i]?
    = if i = k then some (trimmedCallee p callee) else p.functions[i]? := by
  have hlt := (List.getElem?_eq_some_iff.mp h.position).1
  by_cases hi : i = k
  · subst hi
    rw [if_pos rfl, trimmed, List.getElem?_set_self hlt]
  · rw [if_neg hi, trimmed, List.getElem?_set_ne (Ne.symm hi)]

theorem signatures_trimmed : (trimmed p callee k).signatures = p.signatures := by
  refine congrArg (_ ++ ·) (List.ext_getElem? fun i => ?_)
  rw [List.getElem?_map, List.getElem?_map, h.getElem?_trimmed]
  split
  · rename_i hi
    rw [hi, h.position]
    rfl
  · rfl

theorem usesMemory_trimmed : (trimmed p callee k).usesMemory = p.usesMemory := by
  have hmap : (trimmed p callee k).functions.map Function.usesMemory
      = p.functions.map Function.usesMemory := by
    refine List.ext_getElem? fun i => ?_
    rw [List.getElem?_map, List.getElem?_map, h.getElem?_trimmed]
    split
    · rename_i hi
      rw [hi, h.position]
      rfl
    · rfl
  have hany := congrArg (List.any · id) hmap
  rwa [List.any_map, List.any_map] at hany

/-- Trimming the callee is a refinement of the program: dropping the `return` changes no call, of
the callee or of others. -/
theorem covers_trimmed {σ : Type} (u : FloatUnit) (host : Host σ) (fuel index : Nat)
    (s : Signature) (args : List Value) (w : World σ) (hs : p.signatures[index]? = some s)
    (ha : args.length = s.params.length) :
    Covers (p.invoke u host fuel index args w)
      ((trimmed p callee k).invoke u host fuel index args w) := by
  refine Program.invoke_refines (by rfl) (by rfl) (fun hm => h.usesMemory_trimmed ▸ hm)
    (by simp [trimmed]) (fun i f f' hf hf' => ?_) u host fuel index s args w hs ha
  rw [h.getElem?_trimmed] at hf'
  split at hf'
  · rename_i hi
    subst hi
    obtain rfl := Option.some.inj (hf.symm.trans h.position)
    obtain rfl := Option.some.inj hf'
    exact Function.refines_withoutFinalReturn h.wellScoped.signatureAt? _
  · obtain rfl := Option.some.inj (hf.symm.trans hf')
    exact .refl _ _

/-- Imports keep their indices, because the callee is a function and stands behind them. -/
theorem renumber_import {index : Nat} (hi : index < p.imports.length) :
    renumber callee index = index := by
  rw [renumber, Compaction.apply_removing_one, if_neg]
  have := h.callee_index
  omega

/-- Functions move to their new positions, those behind the callee by one. -/
theorem renumber_function (i : Nat) :
    renumber callee (p.imports.length + i) = p.imports.length + Inlined.position k i := by
  rw [renumber, Compaction.apply_removing_one, h.callee_index, Inlined.position]
  split <;> split <;> omega

/-- Callables keep their signatures under their new indices, except for the callee, which is gone.
-/
theorem signatures_renumber {t : Nat} {s : Signature} (ht : t ≠ callee.index)
    (hs : p.signatures[t]? = some s) : p'.signatures[renumber callee t]? = some s := by
  by_cases hi : t < p.imports.length
  · rw [h.renumber_import hi]
    unfold Program.signatures at hs ⊢
    rw [List.getElem?_append_left (by simpa using hi)] at hs
    rwa [List.getElem?_append_left (by simpa [h.inlined.imports] using hi), h.inlined.imports]
  · obtain ⟨i, rfl⟩ : ∃ i, t = p.imports.length + i := ⟨t - p.imports.length, by omega⟩
    have hik : i ≠ k := fun e => ht (by rw [h.callee_index, e])
    unfold Program.signatures at hs ⊢
    rw [List.getElem?_append_right (by simp), List.length_map, Nat.add_sub_cancel_left,
      List.getElem?_map] at hs
    obtain ⟨f, hf, rfl⟩ := Option.map_eq_some_iff.mp hs
    obtain ⟨f', t, hin, hf'⟩ := h.inlined.getElem? hf hik
    rw [h.renumber_function, List.getElem?_append_right (by simp [h.inlined.imports]),
      List.length_map, h.inlined.imports, Nat.add_sub_cancel_left, List.getElem?_map, hf']
    have hc := (h.wellScoped.functions f (List.mem_of_getElem? hf)).declares.contiguous
    rcases inlineInto_cases hc hin with ⟨-, rfl⟩ | ⟨-, locals, arguments, -, rfl⟩ <;> rfl

/-- What a caller becomes: where its calls are, the arguments lie behind its locals. -/
theorem exists_expansion {i : Nat} {f : Function} (hf : p.functions[i]? = some f) (hi : i ≠ k) :
    ∃ f' extra arguments, p'.functions[Inlined.position k i]? = some f' ∧
      f'.params = f.params ∧ f'.result = f.result ∧
      f'.body = (replaceCalls callee.index
        (callCode (callee.preparedBody p.signatureAt?) arguments) f.body).map
          (Instr.mapCall (renumber callee)) ∧
      (∃ more : List ValueType, f'.localTypes = f.localTypes ++ more ∧ more.length = extra) ∧
      (.call callee.index ∈ f.body.ops → Slots arguments f.locals.size extra ∧
        arguments.length = callee.params.length) := by
  obtain ⟨f', t, hin, hf'⟩ := h.inlined.getElem? hf hi
  have hm := List.mem_of_getElem? hf
  have hd := (h.wellScoped.functions f hm).declares
  rcases inlineInto_cases hd.contiguous hin with ⟨hn, rfl⟩ | ⟨-, locals, arguments, hdecl, rfl⟩
  · refine ⟨_, 0, [], hf', rfl, rfl, ?_, ⟨[], (List.append_nil _).symm, rfl⟩, fun hc => ?_⟩
    · rw [replaceCalls_of_notMem hn]
      rfl
    · obtain ⟨j, hj, e⟩ := Body.mem_ops.mp hc
      exact absurd e (hn j hj)
  · have hspec := declareArguments_spec hd.contiguous hdecl
    obtain ⟨htypes, hargs⟩ := declareArguments_fresh hd.contiguous (h.fresh f hm) hdecl
    refine ⟨_, callee.params.length, arguments, hf', rfl, rfl, rfl,
      ⟨callee.params.reverse, ?_, by simp⟩, fun _ => ⟨?_, hspec.length⟩⟩
    · -- the new locals are the last ones
      have hd' : Function.DeclaresParams { f with
          body := replaceCalls callee.index
            (callCode (callee.preparedBody p.signatureAt?) arguments) f.body
          locals := locals
          usesMemory := f.usesMemory || callee.usesMemory } :=
        ⟨hspec.contiguous, hd.params.trans hspec.longer⟩
      have e := hd'.localTypes
      simp only [htypes] at e
      refine Eq.trans e ?_
      rw [hd.localTypes]
      refine List.drop_append_of_le_length ?_
      rw [LocalTable.length_types]
      exact hd.paramCount_le
    · rw [hargs]
      refine ⟨?_, fun a ha => ?_, fun a ha => ?_⟩
      · refine List.pairwise_map.mpr ?_
        refine (List.pairwise_reverse.mpr (List.pairwise_lt_range.imp fun hlt => ?_))
        omega
      · simp only [List.mem_map, List.mem_reverse, List.mem_range] at ha
        obtain ⟨j, -, rfl⟩ := ha
        omega
      · simp only [List.mem_map, List.mem_reverse, List.mem_range] at ha
        obtain ⟨j, hj, rfl⟩ := ha
        omega

/-- **Inlining hands the memory on**: what a caller has declared stays declared, and so is what it
takes over from the callee. -/
theorem usesMemory_inlined {i : Nat} {f : Function} (hf : p.functions[i]? = some f) (hi : i ≠ k)
    (hu : f.usesMemory ∨ (.call callee.index ∈ f.body.ops ∧ callee.usesMemory)) :
    p'.usesMemory := by
  obtain ⟨f', t, hin, hf'⟩ := h.inlined.getElem? hf hi
  refine List.any_eq_true.mpr ⟨_, List.mem_of_getElem? hf', ?_⟩
  have hc := (h.wellScoped.functions f (List.mem_of_getElem? hf)).declares.contiguous
  rcases inlineInto_cases hc hin with ⟨hn, rfl⟩ | ⟨-, locals, arguments, -, rfl⟩
  · rcases hu with hu | ⟨hcall, -⟩
    · exact hu
    · obtain ⟨j, hj, e⟩ := Body.mem_ops.mp hcall
      exact absurd e (hn j hj)
  · exact Bool.or_eq_true_iff.mpr (hu.imp_right And.right)

/-- A caller that touches memory still has one after inlining. -/
theorem memory_caller {i : Nat} {f : Function} (hf : p.functions[i]? = some f) (hi : i ≠ k) :
    ∀ o ∈ f.body.ops, o.touchesMemory → p'.usesMemory := by
  intro o ho hm
  obtain ⟨j, hj, rfl⟩ := Body.mem_ops.mp ho
  exact h.usesMemory_inlined hf hi (.inl (h.memory f (List.mem_of_getElem? hf) j hj hm))

/-- A callee that touches memory finds one where it has been put in place of a call. -/
theorem memory_callee {i : Nat} {f : Function} (hf : p.functions[i]? = some f) (hi : i ≠ k)
    (hcall : .call callee.index ∈ f.body.ops) :
    ∀ o ∈ (trimmedCallee p callee).body.ops, o.touchesMemory → p'.usesMemory := by
  intro o ho hm
  obtain ⟨j, hj, rfl⟩ := Body.mem_ops.mp ho
  exact h.usesMemory_inlined hf hi
    (.inr ⟨hcall, h.memory callee h.callee_mem j (Function.mem_withoutFinalReturn hj) hm⟩)

omit h in
variable (p p' callee k) in
/-- Calls of everything but the callee end alike within the given bounds. -/
def Agree {σ : Type} (u : FloatUnit) (host : Host σ) (leftBounded rightBounded : Prop)
    (n m : Nat) : Prop :=
  ∀ (t : Nat) (s : Signature) (args : List Value) (w : World σ), t ≠ callee.index →
    p.signatures[t]? = some s → args.length = s.params.length →
      ((trimmed p callee k).invoke u host n t args w).1 = .stuck ∨
      (leftBounded ∧ ((trimmed p callee k).invoke u host n t args w).1 = .timeout) ∨
      (rightBounded ∧ (p'.invoke u host m (renumber callee t) args w).1 = .timeout) ∨
      (trimmed p callee k).invoke u host n t args w = p'.invoke u host m (renumber callee t) args w

section

variable {σ : Type} {u : FloatUnit} {host : Host σ} {leftBounded rightBounded : Prop} {n m : Nat}

/-- The callee has no locals besides its parameters, or it would not have been eligible. -/
theorem localTypes_callee : callee.localTypes = [] := by
  rw [(h.wellScoped.functions callee h.callee_mem).declares.localTypes]
  exact List.drop_eq_nil_of_le (Nat.le_of_eq (by rw [LocalTable.length_types, h.eligible.size]))

theorem mem_trimmedCallee {o : Op} (ho : o ∈ (trimmedCallee p callee).body.ops) :
    o.isException = false ∧ o.tailCallTarget? = none ∧ o ≠ .call callee.index := by
  obtain ⟨i, hi, rfl⟩ := Body.mem_ops.mp ho
  have hi' := Function.mem_withoutFinalReturn hi
  exact ⟨h.eligible.noException i hi', h.eligible.noTailCall i hi', h.eligible.notSelf i hi'⟩

theorem signatures_callee :
    (trimmed p callee k).signatures[callee.index]? = some callee.signature := by
  rw [h.signatures_trimmed, h.callee_index, Program.signatures,
    List.getElem?_append_right (by simp), List.length_map, Nat.add_sub_cancel_left,
    List.getElem?_map, h.position]
  rfl

/-- Only plain calls refer to the callee. It is not the target of a tail call, or it would not have
been eligible. -/
theorem callTarget?_ne {f : Function} (hm : f ∈ p.functions) {o : Op} (ho : o ∈ f.body.ops)
    (hcall : o ≠ .call callee.index) : o.callTarget? ≠ some callee.index := by
  intro ht
  obtain ⟨i, hi, rfl⟩ := Body.mem_ops.mp ho
  have hret : i.op = .returnCall callee.index := by
    revert ht hcall
    cases i.op <;> simp [Op.callTarget?]
  refine h.eligible.notTarget (List.mem_flatMap.mpr ⟨f, hm, List.mem_filterMap.mpr ⟨i, hi, ?_⟩⟩)
  rw [hret]
  rfl

/-- A call of the callee runs its body, if there is time left. -/
theorem invoke_callee {c : Code} (hc : Code.parse (trimmedCallee p callee).body.ops = some c)
    (hpace : Paced leftBounded rightBounded (n + 1) (m + 1)) (args : List Value) (w : World σ) :
    (leftBounded ∧ ((trimmed p callee k).invoke u host n callee.index args w).1 = .timeout) ∨
      (trimmed p callee k).invoke u host n callee.index args w
        = ((c.eval { (trimmed p callee k).machine u host (n - 1) with
              results := callee.result.arity } [] [] ⟨args, w⟩).1.answer callee.result.arity,
            (c.eval { (trimmed p callee k).machine u host (n - 1) with
              results := callee.result.arity } [] [] ⟨args, w⟩).2.world) := by
  cases n with
  | zero =>
    refine .inl ⟨?_, rfl⟩
    rcases hpace with ⟨hb, -⟩ | ⟨-, hle⟩
    · exact hb
    · omega
  | succ n =>
    refine .inr ?_
    have hat : (trimmed p callee k).functions[k]? = some (trimmedCallee p callee) := by
      rw [h.getElem?_trimmed, if_pos rfl]
    have hent : (trimmedCallee p callee).entryState args w = ⟨args, w⟩ := by
      have : (trimmedCallee p callee).localTypes = [] := h.localTypes_callee
      simp [Function.entryState, this]
    rw [h.callee_index]
    refine (Program.invoke_function u host hat n args w).trans ?_
    simp only [Function.run, hc, hent]
    rfl

/-- A call of something else is answered by the same call under its new index. -/
theorem calls_renumber {S : Setting σ} (hl : S.left.signatures = p.signatures)
    (hr : S.right.signatures = p'.signatures) {fuel : Nat}
    (hcl : S.left.call = (trimmed p callee k).invoke u host fuel)
    (hcr : S.right.call = p'.invoke u host m)
    (hagree : Agree p p' callee k u host S.leftBounded S.rightBounded fuel m) {t : Nat}
    (ht : t ≠ callee.index) : S.Calls t (renumber callee t) := by
  intro s hs
  rw [hl] at hs
  refine ⟨hr ▸ h.signatures_renumber ht hs, fun args w ha => ?_⟩
  rw [hcl, hcr]
  exact hagree t s args w ht hs ha

/-- The machine of a call of the callee: that of the trimmed program, with the results that the
callee has, one call deeper. -/
abbrev calleeMachine (p : Program) (callee : Function) (k : Nat) (u : FloatUnit) (host : Host σ)
    (n : Nat) : Machine σ :=
  { (trimmed p callee k).machine u host (n - 1) with results := callee.result.arity }

/-- The operations that are spliced for a call: the trimmed body, with its `return`s turned into
branches if it has any, its parameters renamed, and its calls renumbered. -/
abbrev splicedOps (p : Program) (callee : Function) (arguments : List Nat) : List Op :=
  Body.ops (((if (trimmedCallee p callee).body.exitsEarly [] then
    (trimmedCallee p callee).body.branchReturns [] else (trimmedCallee p callee).body).map
      (Instr.mapLocal (renameLocal arguments))).map (Instr.mapCall (renumber callee)))

/-- The code that is spliced for a call simulates the body of the callee. -/
theorem exists_splicedCode {c : Code} (hc : Code.parse (trimmedCallee p callee).body.ops = some c)
    (hpace : Paced leftBounded rightBounded (n + 1) (m + 1))
    (hnested : Agree p p' callee k u host leftBounded rightBounded (n - 1) m)
    {arguments : List Nat} (results : Nat) (labels : List Label) (rest : List Value)
    {locals : List Value → List Value → Prop}
    (hreads : ∀ i, Setting.ReadsAs locals i (renameLocal arguments i))
    (hwrites : ∀ i, Setting.WritesAs locals i (renameLocal arguments i)) {memory : Bool}
    (hmemory : ∀ o ∈ (trimmedCallee p callee).body.ops, o.touchesMemory → memory) :
    ∃ d, Code.parse (splicedOps p callee arguments) = some d ∧
      (calleeSetting (calleeMachine p callee k u host n)
        { p'.machine u host m with results := results, hasMemory := memory } labels
        ((trimmedCallee p callee).body.exitsEarly []) callee.result rest locals leftBounded
        rightBounded).Sim [] c d := by
  refine exists_spliced hc (calleeSetting_lawful rfl h.inlined.tags.symm (fun hlt => ?_)
    (fun hlt => ?_) rfl) rfl
    (fun o ho => ⟨(h.mem_trimmedCallee ho).1, (h.mem_trimmedCallee ho).2.1⟩) rfl
    (fun t ht => h.calls_renumber h.signatures_trimmed rfl rfl rfl hnested
      (fun e => (h.mem_trimmedCallee ht).2.2 (by rw [e]))) hreads hwrites
    (fun o ho hm _ => hmemory o ho hm)
  · have hlt : n - 1 < m := hlt
    rcases hpace with ⟨hb, -⟩ | ⟨-, hle⟩
    · exact hb
    · omega
  · have hlt : m < n - 1 := hlt
    rcases hpace with ⟨-, hle⟩ | ⟨hb, -⟩
    · omega
    · exact hb

/-- The same code is spliced wherever the call stands, and whatever lies in the locals.  It
simulates the callee if there is a memory for it. -/
theorem exists_splicedCode_forall {c : Code}
    (hc : Code.parse (trimmedCallee p callee).body.ops = some c)
    (hpace : Paced leftBounded rightBounded (n + 1) (m + 1))
    (hnested : Agree p p' callee k u host leftBounded rightBounded (n - 1) m)
    (arguments : List Nat) (results : Nat) :
    ∃ d, Code.parse (splicedOps p callee arguments) = some d ∧
      ((∀ o ∈ (trimmedCallee p callee).body.ops, o.touchesMemory → p'.usesMemory) →
      ∀ size extra, Slots arguments size extra → ∀ labels rest caller,
        (calleeSetting (calleeMachine p callee k u host n)
          { p'.machine u host m with results := results } labels
          ((trimmedCallee p callee).body.exitsEarly []) callee.result rest
          (Bound arguments size extra caller) leftBounded rightBounded).Sim [] c d) := by
  -- the code itself does not depend on the locals, nor on the memory
  obtain ⟨d, hd, -⟩ := @exists_splicedCode _ _ _ _ h _ _ _ _ _ _ _ _ hc hpace hnested arguments
    results [] [] (fun _ _ => False) (fun _ _ _ hf => hf.elim) (fun _ _ _ hf => hf.elim) true
    (fun _ _ _ => rfl)
  refine ⟨d, hd, fun hmemory size extra hs labels rest caller => ?_⟩
  obtain ⟨d', hd', hsim⟩ := h.exists_splicedCode hc hpace hnested results labels rest
    (fun i => @Bound.readsAs arguments size extra caller i) (Bound.writesAs hs) hmemory
  obtain rfl := Option.some.inj (hd.symm.trans hd')
  exact hsim

/-- What inlining makes of a body simulates it. The new body is parsed to a code, and this code
answers the old one when both run with their own calls. -/
theorem exists_expandedCode {f f' : Function} {extra : Nat} {arguments : List Nat} {cf : Code}
    (hm : f ∈ p.functions) (hcf : Code.parse f.body.ops = some cf)
    (hbody : f'.body = (replaceCalls callee.index
        (callCode (callee.preparedBody p.signatureAt?) arguments) f.body).map
          (Instr.mapCall (renumber callee)))
    (hslots : .call callee.index ∈ f.body.ops → Slots arguments f.locals.size extra ∧
        arguments.length = callee.params.length)
    (hown : ∀ o ∈ f.body.ops, o.touchesMemory → p'.usesMemory)
    (hcallee : .call callee.index ∈ f.body.ops →
      ∀ o ∈ (trimmedCallee p callee).body.ops, o.touchesMemory → p'.usesMemory)
    (hpace : Paced leftBounded rightBounded (n + 1) (m + 1))
    (hcalls : Agree p p' callee k u host leftBounded rightBounded n m)
    (hnested : Agree p p' callee k u host leftBounded rightBounded (n - 1) m) :
    ∃ cf', Code.parse f'.body.ops = some cf' ∧
      (Setting.bounded { (trimmed p callee k).machine u host n with results := f.result.arity }
        { p'.machine u host m with results := f.result.arity } (Extended f.locals.size extra)
        leftBounded rightBounded).Sim [] cf cf' := by
  obtain ⟨cg, hcg⟩ : ∃ cg, Code.parse (trimmedCallee p callee).body.ops = some cg :=
    Option.isSome_iff_exists.mp
      ((Function.refines_withoutFinalReturn h.wellScoped.signatureAt? callee).parses
        (h.parses callee h.callee_mem))
  obtain ⟨d, hd, hsim⟩ := h.exists_splicedCode_forall hcg hpace hnested arguments f.result.arity
  have hcode := @ops_callCodeOf arguments callee.result (trimmedCallee p callee).body d
    (renumber callee) (Code.ops_of_parse hd).1
  have hops := substitute_expanded callee.index hcode [] f.body
  have hprep : callee.preparedBody p.signatureAt?
      = if (trimmedCallee p callee).body.exitsEarly [] then
          (trimmedCallee p callee).body.wrapped callee.result else (trimmedCallee p callee).body :=
    rfl
  rw [hbody, hprep, ← hops]
  have H : (Setting.bounded
      { (trimmed p callee k).machine u host n with results := f.result.arity }
      { p'.machine u host m with results := f.result.arity } (Extended f.locals.size extra)
      leftBounded rightBounded).Lawful :=
    Setting.bounded_lawful rfl h.inlined.tags.symm hpace.pred.leftBounded_of_lt
      hpace.pred.rightBounded_of_lt rfl
  refine H.congruence.parse_substitute (fun _ _ _ _ _ => trivial) (fun o _ hp _ => ?_)
    (fun before o after e hp c c' hcc => ?_) hcf
  · unfold expanded
    split
    · exact callCodeOf_wellFormed (Code.ops_of_parse hd).2
    · refine ⟨?_, trivial⟩
      cases o <;> exact hp
  · have ho : o ∈ f.body.ops := e ▸ List.mem_append_right _ List.mem_cons_self
    unfold expanded
    split
    · rename_i hcall
      subst hcall
      obtain ⟨hs, hlen⟩ := hslots ho
      exact @sim_callCode _ (calleeMachine p callee k u host n) _ _ _ _ _ _ _ _ callee.index
        callee.signature cg d h.signatures_callee hs hlen
        (fun args w _ => h.invoke_callee hcg hpace args w) (hsim (hcallee ho) _ _ hs) _ _ _ hcc
    · rename_i hcall
      refine Setting.OpSim.cons ?_ hcc
      have hadmits : (Setting.bounded
          { (trimmed p callee k).machine u host n with results := f.result.arity }
          { p'.machine u host m with results := f.result.arity } (Extended f.locals.size extra)
          leftBounded rightBounded).Admits (Nesting.observeAll [] before).length (fun i => i)
            (renumber callee) o := by
        refine ⟨fun i _ => Extended.readsAs i, fun i _ => Extended.writesAs i, fun t ht => ?_,
          fun label _ => Setting.bounded_allows _ label, fun _ => trivial,
          fun ht _ => hown o ho ht⟩
        refine h.calls_renumber h.signatures_trimmed rfl rfl rfl hcalls ?_
        rintro rfl
        exact h.callTarget?_ne hm ho hcall ht
      have hop := H.opSim hadmits
      rwa [Op.mapLocal_id] at hop

/-- **One step of the induction**: functions answer alike if their calls do, with one call less
allowed. A call of the callee by a caller is run inside of the caller, so that the calls of the
callee count as those of the caller there. -/
theorem agree_step (hpace : Paced leftBounded rightBounded (n + 1) (m + 1))
    (hcalls : Agree p p' callee k u host leftBounded rightBounded n m)
    (hnested : Agree p p' callee k u host leftBounded rightBounded (n - 1) m) :
    Agree p p' callee k u host leftBounded rightBounded (n + 1) (m + 1) := by
  intro t s args w ht hs ha
  by_cases hi : t < p.imports.length
  · -- the host answers alike
    have hx := List.getElem?_eq_getElem hi
    have hx' : p'.imports[t]? = some p.imports[t] := by rw [h.inlined.imports, hx]
    refine .inr (.inr (.inr ?_))
    rw [h.renumber_import hi, Program.invoke_import u host hx' m args w]
    refine (Program.invoke_import u host (p := trimmed p callee k) hx n args w).trans ?_
    simp only [Program.callImport, h.inlined.tags]
    rfl
  · obtain ⟨i, rfl⟩ : ∃ i, t = p.imports.length + i := ⟨t - p.imports.length, by omega⟩
    have hik : i ≠ k := fun e => ht (by rw [h.callee_index, e])
    have hsf : (p.functions[i]?).map Function.signature = some s := by
      rw [Program.signatures, List.getElem?_append_right (by simp), List.length_map,
        Nat.add_sub_cancel_left, List.getElem?_map] at hs
      exact hs
    obtain ⟨f, hf, rfl⟩ := Option.map_eq_some_iff.mp hsf
    have hm := List.mem_of_getElem? hf
    have hdecl := (h.wellScoped.functions f hm).declares
    obtain ⟨f', extra, arguments, hf', hparams, hresult, hbody, ⟨more, hmore, hextra⟩, hslots⟩ :=
      h.exists_expansion hf hik
    have hft : (trimmed p callee k).functions[i]? = some f := by
      rw [h.getElem?_trimmed, if_neg hik, hf]
    obtain ⟨cf, hcf⟩ := Option.isSome_iff_exists.mp (h.parses f hm)
    obtain ⟨cf', hcf', hsim⟩ := h.exists_expandedCode hm hcf hbody hslots
      (h.memory_caller hf hik) (h.memory_callee hf hik) hpace hcalls hnested
    have hrun : (trimmed p callee k).invoke u host (n + 1) (p.imports.length + i) args w
        = f.run ((trimmed p callee k).machine u host n) args w :=
      Program.invoke_function u host hft n args w
    have hrun' := Program.invoke_function u host hf' m args w
    rw [h.inlined.imports] at hrun'
    rw [h.renumber_function, hrun', hrun]
    simp only [Function.run, hcf, hcf', hresult]
    have hentry : Extended f.locals.size extra (f.entryState args w).locals
        (f'.entryState args w).locals := by
      refine ⟨?_, more.map Value.zero, ?_, by rw [List.length_map, hextra]⟩
      · simp only [Function.entryState, List.length_append, List.length_map, hdecl.localTypes,
          List.length_drop, LocalTable.length_types]
        have := hdecl.paramCount_le
        have : args.length = f.paramCount := ha
        omega
      · simp only [Function.entryState, hmore, List.map_append, List.append_assoc]
    exact Function.answers_of_outcomes
      (hsim [] rfl [] (f.entryState args w) (f'.entryState args w) ⟨hentry, rfl⟩)

/-- **Calls of everything but the callee end alike**, with bounds that keep pace. Which of the two
programs needs the larger bound depends on the direction, and both directions are this one
statement. -/
theorem agree : ∀ {n m : Nat}, Paced leftBounded rightBounded n m →
    Agree p p' callee k u host leftBounded rightBounded n m
  | 0, 0, _ => fun _ _ _ _ _ _ _ => .inr (.inr (.inr rfl))
  | 0, m + 1, hpace => fun _ _ _ _ _ _ _ => .inr (.inl ⟨hpace.leftBounded_of_lt (by omega), rfl⟩)
  | n + 1, 0, hpace =>
    fun _ _ _ _ _ _ _ => .inr (.inr (.inl ⟨hpace.rightBounded_of_lt (by omega), rfl⟩))
  | n + 1, m + 1, hpace => h.agree_step hpace (agree hpace.pred) (agree hpace.pred_nested)
termination_by n => n

end

end Inlining

end WasmTrim.Inline
