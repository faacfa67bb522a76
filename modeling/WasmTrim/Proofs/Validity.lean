/-
# Optimized programs are valid

A program that compiles without optimization is well typed, apart from alignments that announce a
memory (`Program.Checked.of_emit`).  Every change that the optimizer makes keeps it so
(`Program.Checked.of_run`), and there is room for the locals of arguments, because the limits are
far below the number of indices.  Hence the optimized program can be assembled, its bodies are well
typed, and if it keeps the limits it compiles (`compile_succeeds`).

The alignments have to be left out: the bytes behind such an alignment are not read as they were
written, so that removing an operation behind it can change what is read
(`compile_misaligned_invalid`).

The way from bytes to bytes goes through types.  That a binary is accepted says of each body that
its bytes are well typed; with small alignments they are read as the operations that were written,
so the operations are well typed, and that is what the passes keep.  At the other end the new
operations are written, and read as they were written, since no pass brings in an alignment.

What remains of the validator are its limits.  Imports, names, tags and globals do not change, the
functions are some of those before, and so are the signatures; the only limit that can be exceeded
is that on the number of locals, which inlining raises, and with it the size of a body whose bytes
are counted with 32 bits.  Both are a condition of the theorem, on the program that comes out.
-/
import Mathlib.Data.List.Perm.Subperm
import WasmTrim.Proofs.Headroom
import WasmTrim.Proofs.Semantics.Behaviour
import WasmTrim.Proofs.Typing.Bytes
import WasmTrim.Proofs.Typing.Inlining

namespace WasmTrim

open Validation

/-! ## 1. Checked programs

Everything that has to hold of a program for its optimization to be valid again, in one structure,
so that one induction over a run carries it. -/

/-- **A program that every change keeps valid**: it is ready for inlining, without markers, well
typed, and its globals start as constants of their types. -/
structure Program.Checked (p : Program) : Prop where
  ready : p.Ready
  markerFree : ∀ f ∈ p.functions, f.body.MarkerFree
  typed : p.Typed
  globals : ∀ g ∈ p.globals, g.isValid

namespace Program.Checked

variable {p q : Program}

/-- One inlining step keeps the program checked: ready for the next step, without markers, and well
typed. -/
theorem inlineCallee (h : p.Checked) {callee : Function} {t : Trace} (hm : callee ∈ p.functions)
    (ho : callee.obstacles p.tailCallTargets = [])
    (hin : Inline.inlineCallee p callee = .ok (q, t)) : q.Checked := by
  obtain ⟨k, hk⟩ := List.getElem?_of_mem hm
  have hscoped := h.ready.toScoped
  have hi := Inline.inlineCallee_spec hscoped.indices hk hin
  have H : Inline.Inlining p q callee k :=
    ⟨hscoped, hk, Function.eligible_of_obstacles ho, hi, h.ready.parses,
      fun f hf j => h.ready.distinct.fresh f hf callee hm j, h.ready.memory⟩
  exact {
    ready := (Inline.ready_inlineCallee hm ho hin h.ready).1
    markerFree := hi.markerFree hscoped hk h.markerFree
    typed := H.typed h.typed
    globals := hi.globals ▸ h.globals }

/-- The passes on all functions keep the program checked, function by function. -/
theorem optimizeFunctions (h : p.Checked) (c : Config) :
    (Optimize.optimizeFunctions c p).1.Checked := by
  have hscoped := h.ready.toScoped
  refine ⟨⟨⟨Optimize.optimizeFunctions_scoped hscoped,
    Optimize.optimizeFunctions_memory h.ready.toConsistent⟩,
    Optimize.distinct_optimizeFunctions hscoped h.ready.distinct,
    Optimize.parses_optimizeFunctions h.ready h.markerFree⟩, fun g hg => ?_,
    Optimize.typed_optimizeFunctions hscoped h.typed h.markerFree, h.globals⟩
  obtain ⟨i, hi⟩ := List.getElem?_of_mem hg
  rw [Optimize.getElem?_optimizeFunctions] at hi
  obtain ⟨f, hf, rfl⟩ := Option.map_eq_some_iff.mp hi
  exact Optimize.markerFree_optimizeFunction (h.markerFree f (List.mem_of_getElem? hf))

/-- **A run keeps a program checked**: each inlining does, and each sweep of the passes over the
functions. -/
theorem of_run (h : p.Checked) {c : Config} {t : Trace} (hrun : Optimize.run c p = .ok (q, t)) :
    q.Checked :=
  Optimize.run_induction (P := Program.Checked)
    (fun _ _ _ _ hm ho hin hp => hp.inlineCallee hm ho hin) (fun _ hp => hp.optimizeFunctions c)
    hrun h

/-- **A checked program is valid** within the limits. Typing was shown for operations, and the
limits make it hold of the bytes that these are written as. -/
theorem isValid (h : p.Checked) (hlimits : p.withinLimits)
    (hsize : ∀ f ∈ p.functions, f.code.length < 2 ^ 32) : p.isValid := by
  simp only [Program.isValid, Bool.and_eq_true, List.all_eq_true]
  exact ⟨⟨hlimits, h.globals⟩, fun f hf => (h.typed f hf).isValid hf hlimits (hsize f hf)⟩

end Program.Checked

/-! ## 2. Compiling without optimization

Where the conditions come from: a program that compiles as it is has been assembled and validated,
so its functions stand at their indices and are well typed (`validate`). -/

theorem Program.emit_eq_ok_iff {p : Program} {bytes : Bytes} :
    p.emit = .ok bytes ↔ p.assemble = .ok bytes ∧ p.isValid := by
  unfold Program.emit
  cases p.assemble with
  | error e => simp
  | ok b =>
    simp only [Except.ok.injEq]
    split
    · rename_i hv
      simp [hv]
    · rename_i hv
      simp [hv]

/-- What is compiled is the program that the optimizer gives. -/
theorem exists_compile_of_run {c : Config} {p q : Program} {t : Trace}
    (h : Optimize.run c p = .ok (q, t)) : ∃ r, compile c p = .ok r ∧ r.outcome = q.emit := by
  simp only [compile, h, bind, Except.bind, pure, Except.pure]
  exact ⟨_, rfl, rfl⟩

/-- Without optimization that is the program itself, assembled and validated as it stands. -/
theorem emit_of_compile_off {c : Config} (hc : c.level = .off) {p : Program} {r : Compilation}
    (h : compile c p = .ok r) : p.emit = r.outcome := by
  have hrun : Optimize.run c p = .ok (p, []) := by rw [Optimize.run, if_pos hc]
  obtain ⟨r', hr', ho⟩ := exists_compile_of_run hrun
  obtain rfl := Except.ok.inj (h.symm.trans hr')
  exact ho.symm

/-- The parameters are the first locals, if the table has a local of the right type at each of
their positions. -/
theorem Function.declaresParams_iff {f : Function} (hc : f.locals.isContiguous) :
    f.DeclaresParams ↔
      ∀ k t, f.params[k]? = some t → ∃ l ∈ f.locals.entries, l.index = k ∧ l.type = t := by
  constructor
  · intro h k t ht
    obtain ⟨hk, rfl⟩ := List.getElem?_eq_some_iff.mp ht
    exact (LocalTable.getElem?_types hc).mp (List.prefix_iff_getElem?.mp h.params k hk)
  · refine fun h => ⟨hc, List.prefix_iff_getElem?.mpr fun k hk => ?_⟩
    exact (LocalTable.getElem?_types hc).mpr (h k _ (List.getElem?_eq_getElem hk))

/-- Within the limits there are few parameters in all, fewer than inlining would need to run out of
indices. -/
theorem Program.paramTotal_le {p : Program} (h : p.withinLimits) :
    p.paramTotal ≤ Limit.params * Limit.entries := by
  simp only [withinLimits, Bool.and_eq_true, List.all_eq_true, decide_eq_true_eq] at h
  obtain ⟨⟨⟨⟨⟨⟨⟨hparams, -⟩, -⟩, -⟩, hcallables⟩, -⟩, -⟩, -⟩ := h
  have hcount : ∀ f ∈ p.functions, f.paramCount ≤ Limit.params := by
    intro f hf
    refine hparams f.signature (List.mem_append_left _ (List.mem_append_right _ ?_))
    exact List.mem_map_of_mem hf
  have hsum : ∀ fs : List Function, (∀ f ∈ fs, f.paramCount ≤ Limit.params) →
      (fs.map Function.paramCount).foldr (· + ·) 0 ≤ Limit.params * fs.length := by
    intro fs
    induction fs with
    | nil => exact fun _ => Nat.zero_le _
    | cons f fs ih =>
      intro hfs
      have hf := hfs f List.mem_cons_self
      have := ih fun g hg => hfs g (List.mem_cons_of_mem _ hg)
      rw [List.map_cons, List.foldr_cons, List.length_cons, Nat.mul_succ]
      omega
  refine Nat.le_trans (hsum p.functions hcount) (Nat.mul_le_mul_left _ ?_)
  omega

/-- **Within the limits no function runs out of local indices.** A validator allows so few
functions, parameters and locals that even all of them in one table would leave indices free. -/
theorem Program.hasRoom_of_withinLimits {p : Program} (h : p.withinLimits)
    (hd : ∀ f ∈ p.functions, f.DeclaresParams) : p.HasRoom := by
  have htotal := p.paramTotal_le h
  simp only [withinLimits, Bool.and_eq_true, List.all_eq_true, decide_eq_true_eq] at h
  obtain ⟨⟨⟨⟨⟨⟨⟨-, -⟩, hlocals⟩, -⟩, -⟩, -⟩, -⟩, -⟩ := h
  intro f hf
  have hsize : f.locals.size ≤ Limit.locals := by
    have := hlocals f hf
    simp only [Function.withinLimits, decide_eq_true_eq] at this
    rwa [← List.length_append, (hd f hf).append_localTypes, LocalTable.length_types] at this
  simp only [Limit.params, Limit.entries, Limit.locals] at htotal hsize
  simp only [indexLimit, UInt32.size]
  omega

/-- **A program that compiles without optimization is checked.** The validator has seen the bytes of
each function, and without an alignment that is read as something else these are checked as the
operations are. -/
theorem Program.Checked.of_emit {p : Program} {bytes : Bytes} (h : p.emit = .ok bytes)
    (hmarker : ∀ f ∈ p.functions, f.body.MarkerFree) (hdistinct : p.Distinct)
    (hparams : ∀ f ∈ p.functions, ∀ k t, f.params[k]? = some t →
      ∃ l ∈ f.locals.entries, l.index = k ∧ l.type = t)
    (hmemory : ∀ f ∈ p.functions, f.DeclaresMemory)
    (halign : ∀ f ∈ p.functions, ∀ i ∈ f.body, i.op.announcesMemory = false) :
    p.Checked ∧ p.Assemblable ∧ p.withinLimits := by
  obtain ⟨hassemble, hvalid⟩ := Program.emit_eq_ok_iff.mp h
  have hassemblable := Program.exists_assemble_iff.mp ⟨bytes, hassemble⟩
  simp only [Program.isValid, Bool.and_eq_true, List.all_eq_true] at hvalid
  obtain ⟨⟨hlimits, hglobals⟩, hbodies⟩ := hvalid
  have hdeclares : ∀ f ∈ p.functions, f.DeclaresParams := fun f hf =>
    (Function.declaresParams_iff (hassemblable.locals f hf)).mpr (hparams f hf)
  have htyped : p.Typed := by
    intro f hf
    refine ((Function.isValid_iff fun o ho => ?_).mp (hbodies f hf)).1
    obtain ⟨i, hi, rfl⟩ := Body.mem_ops.mp ho
    exact halign f hf i hi
  have hwf : p.WellFormed := ⟨hassemblable.indices, hdeclares, hdistinct, htyped⟩
  exact ⟨⟨hwf.ready hmemory, hmarker, htyped, hglobals⟩, hassemblable, hlimits⟩

/-! ## 3. Limits

Validators limit the numbers of entries and the sizes of things.  The optimizer adds no entry to any
section but may lengthen a body and its locals, so those two are asked for in the statement. -/

/-- The functions that are left have the signatures that they had. -/
theorem Retains.map_signature {fs gs : List Function} (h : Retains fs gs) :
    (gs.map Function.signature).Sublist (fs.map Function.signature) := by
  induction h with
  | nil => exact .slnil
  | keep name params result rest ih =>
    simp only [List.map_cons, Function.signature, params, result]
    exact ih.cons_cons _
  | remove entry rest ih => exact ih.cons _

/-- The entry point keeps its signature, if there is one, and there is one exactly if there was. -/
theorem Retains.map_find?_entry {fs gs : List Function} (h : Retains fs gs) :
    (gs.find? fun g => g.name = entryName).map Function.signature
      = (fs.find? fun f => f.name = entryName).map Function.signature := by
  induction h with
  | nil => rfl
  | @keep f g fs gs name params result rest ih =>
    by_cases he : f.name = entryName
    · simp [he, name, Function.signature, params, result]
    · simp [he, name, ih]
  | @remove f fs gs entry rest ih =>
    have he : f.name ≠ entryName := by simpa [Function.isEntry] using entry
    simp [he, ih]

/-- A run brings in no memory: a function has the flag in the end only if some function had it at
the start. -/
theorem Optimize.usesMemory_of_run {c : Config} {p q : Program} {t : Trace} (hp : p.Scoped)
    (h : run c p = .ok (q, t)) (hq : q.usesMemory) : p.usesMemory := by
  refine (run_induction (c := c) (P := fun q => q.Scoped ∧ (q.usesMemory → p.usesMemory)) ?_ ?_ h
    ⟨hp, id⟩).2 hq
  · rintro q callee q' t hm ho hin ⟨hscoped, hmemory⟩
    obtain ⟨k, hk⟩ := List.getElem?_of_mem hm
    have hi := Inline.inlineCallee_spec hscoped.indices hk hin
    refine ⟨hi.wellScoped hscoped hk (Function.eligible_of_obstacles ho), fun hu => hmemory ?_⟩
    obtain ⟨g, hg, hu⟩ := List.any_eq_true.mp hu
    obtain ⟨j, hj⟩ := List.getElem?_of_mem hg
    obtain ⟨i, f, f', t, -, -, hf, hinto, rfl⟩ := hi.exists_source hj
    have hmem := List.mem_of_getElem? hf
    have hcases := Inline.inlineInto_cases
      (hscoped.functions f hmem).declares.contiguous hinto
    rcases hcases with ⟨-, rfl⟩ | ⟨-, locals, arguments, -, rfl⟩
    · exact List.any_eq_true.mpr ⟨f', hmem, hu⟩
    · rcases Bool.or_eq_true_iff.mp hu with hu | hu
      · exact List.any_eq_true.mpr ⟨f, hmem, hu⟩
      · exact List.any_eq_true.mpr ⟨callee, hm, hu⟩
  · rintro q ⟨hscoped, hmemory⟩
    refine ⟨optimizeFunctions_scoped hscoped, fun hu => hmemory ?_⟩
    rwa [usesMemory_optimizeFunctions] at hu

/-- The type table holds each signature once, so it cannot be longer than the number of uses. -/
theorem nodup_eraseDups (signatures : List Signature) : signatures.eraseDups.Nodup := by
  induction hn : signatures.length using Nat.strongRecOn generalizing signatures with
  | ind n ih =>
    cases signatures with
    | nil => exact List.nodup_nil
    | cons s rest =>
      rw [List.eraseDups_cons, List.nodup_cons, List.mem_eraseDups, List.mem_filter]
      refine ⟨by simp, ih _ ?_ _ rfl⟩
      have := List.length_filter_le (fun t => !t == s) rest
      rw [List.length_cons] at hn
      omega

/-- **The only limit that an optimized program can exceed** is that on the locals of a function. -/
theorem Program.Preserved.withinLimits {p q : Program} (h : p.Preserved q) (hp : p.withinLimits)
    (hmemory : q.usesMemory → p.usesMemory) (hq : ∀ f ∈ q.functions, f.withinLimits) :
    q.withinLimits := by
  have hsub := h.functions.map_signature
  have huses : q.signatureUses ⊆ p.signatureUses := by
    unfold signatureUses
    rw [h.imports, h.tags]
    exact ((List.Sublist.refl _).append hsub |>.append (.refl _)).subset
  have htable : q.typeTable.length ≤ p.typeTable.length := by
    refine ((nodup_eraseDups q.signatureUses).subperm fun s hs => ?_).length_le
    exact mem_typeTable.mpr (huses (mem_typeTable.mp hs))
  have hfunctions : q.functions.length ≤ p.functions.length := by
    simpa using hsub.length_le
  have hinterface : q.interfaceSize ≤ p.interfaceSize := by
    have hentry : (q.functionNamed? entryName).map (fun f => f.signature.size)
        = (p.functionNamed? entryName).map fun f => f.signature.size := by
      have := congrArg (Option.map Signature.size) h.functions.map_find?_entry
      rwa [Option.map_map, Option.map_map] at this
    have hone : (if q.usesMemory then 1 else 0) ≤ if p.usesMemory then 1 else 0 := by
      by_cases hu : q.usesMemory
      · rw [if_pos hu, if_pos (hmemory hu)]
      · rw [if_neg hu]
        exact Nat.zero_le _
    unfold interfaceSize
    rw [h.imports, hentry]
    exact Nat.add_le_add_left hone _
  simp only [Program.withinLimits, Bool.and_eq_true, List.all_eq_true, decide_eq_true_eq] at hp ⊢
  obtain ⟨⟨⟨⟨⟨⟨⟨hparams, himports⟩, -⟩, htypes⟩, hcallables⟩, hglobals⟩, htags⟩, hsize⟩ := hp
  rw [h.imports, h.globals, h.tags]
  exact ⟨⟨⟨⟨⟨⟨⟨fun s hs => hparams s (huses hs), himports⟩, hq⟩, by omega⟩, by omega⟩, hglobals⟩,
    htags⟩, by omega⟩

/-! ## 4. The result

Put together from what a run keeps and from the bytes of the functions that it leaves. -/

/-- **A program that compiles without optimization compiles under all settings.**  The optimizer
gives a program, which can be assembled and is well typed.  It compiles to these bytes, unless a
function has become too large: it may have 50000 locals, and the bytes of its body are counted with
32 bits. -/
theorem compile_succeeds (p : Program) (hmarker : ∀ f ∈ p.functions, f.body.MarkerFree)
    (hdistinct : p.Distinct)
    (hparams : ∀ f ∈ p.functions, ∀ k t, f.params[k]? = some t →
      ∃ l ∈ f.locals.entries, l.index = k ∧ l.type = t)
    (hmemory : ∀ f ∈ p.functions, f.DeclaresMemory)
    (halign : ∀ f ∈ p.functions, ∀ i ∈ f.body, i.op.announcesMemory = false)
    (c₀ : Config) (hoff : c₀.level = .off) (r₀ : Compilation) (bytes₀ : Bytes)
    (hcompile : compile c₀ p = .ok r₀) (hsuccess : r₀.outcome = .ok bytes₀) (c : Config) :
    ∃ q t bytes r, Optimize.run c p = .ok (q, t) ∧ q.assemble = .ok bytes ∧ q.Typed ∧
      (∀ g ∈ q.globals, g.isValid) ∧ compile c p = .ok r ∧
      ((∀ f ∈ q.functions, f.withinLimits ∧ f.code.length < 2 ^ 32) → r.outcome = .ok bytes) := by
  have hemit : p.emit = .ok bytes₀ := (emit_of_compile_off hoff hcompile).trans hsuccess
  obtain ⟨hchecked, hassemblable, hlimits⟩ := Program.Checked.of_emit hemit hmarker hdistinct
    hparams hmemory halign
  have hscoped := hchecked.ready.toScoped
  have hroom := p.hasRoom_of_withinLimits hlimits fun f hf => (hscoped.functions f hf).declares
  obtain ⟨q, _, hq⟩ := exists_optimize c hscoped hroom
  obtain ⟨t, hrun⟩ := exists_run_of_optimize hq
  have hq' := hchecked.of_run hrun
  obtain ⟨bytes, hbytes⟩ := Program.exists_assemble_iff.mpr (hassemblable.of_run hrun)
  obtain ⟨r, hr, hout⟩ := exists_compile_of_run hrun
  refine ⟨q, t, bytes, r, hrun, hbytes, hq'.typed, hq'.globals, hr, fun hsize => ?_⟩
  have hpreserved := (consistent_of_run ⟨hscoped, hmemory⟩ hrun).2
  have hwithin := hpreserved.withinLimits hlimits (Optimize.usesMemory_of_run hscoped hrun)
    fun f hf => (hsize f hf).1
  rw [hout]
  exact Program.emit_eq_ok_iff.mpr ⟨hbytes, hq'.isValid hwithin fun f hf => (hsize f hf).2⟩

theorem compile_succeeds_sample : ∃ q t bytes r,
    Optimize.run { level := .fold, tailCalls := true } sample = .ok (q, t) ∧
      q.functions.length = 1 ∧ q.Typed ∧
      compile { level := .fold, tailCalls := true } sample = .ok r ∧ r.outcome = .ok bytes := by
  have hmarker : ∀ f ∈ sample.functions, ∀ i ∈ f.body, i.marker = none := by decide
  have halign : ∀ f ∈ sample.functions, ∀ i ∈ f.body, i.op.announcesMemory = false := by decide
  have hemit : sample.emit = .ok sample.binary := by decide +kernel
  have hparams : ∀ f ∈ sample.functions, ∀ k t, f.params[k]? = some t →
      ∃ l ∈ f.locals.entries, l.index = k ∧ l.type = t := fun f hf =>
    (Function.declaresParams_iff (sample_declares f hf).contiguous).mp (sample_declares f hf)
  obtain ⟨r₀, hr₀, hout⟩ := exists_compile_of_run
    (show Optimize.run { level := .off } sample = .ok (sample, []) from rfl)
  obtain ⟨q, t, bytes, r, hrun, -, htyped, -, hr, hsuccess⟩ := compile_succeeds sample hmarker
    sample_wellFormed.distinct hparams sample_consistent.memory halign { level := .off } rfl r₀
    sample.binary hr₀ (hout.trans hemit) { level := .fold, tailCalls := true }
  have hsize : (Optimize.run { level := .fold, tailCalls := true } sample).toOption.map
      (fun r => (r.1.functions.length, r.1.functions.all fun f =>
        f.withinLimits && decide (f.code.length < 2 ^ 32))) = some (1, true) := by decide +kernel
  rw [hrun] at hsize
  obtain ⟨hlength, hall⟩ := Prod.mk.inj (Option.some.inj hsize)
  refine ⟨q, t, bytes, r, hrun, hlength, htyped, hr, hsuccess fun f hf => ?_⟩
  simpa using List.all_eq_true.mp hall f hf

/-! ## 5. Alignments that announce a memory

In the program the alignment is 66: the value two, in an access that may be aligned to at most that,
and the bit that says that the number of a memory follows. -/

/-- A program with an access whose alignment announces a memory.  Two operations behind it are read
as its offset and as an instruction that stops; they do nothing, and the optimizer removes them. -/
def misaligned : Program where
  imports := []
  functions := [
    { Function.declare 0 entryName [] none with
      body := [.const (.i32 0), .load .i32 ⟨0, 66⟩, .const (.i32 0), .drop, .drop].map Op.plain
      usesMemory := true }]
  globals := []
  tags := []
  exceptions := []
  types := .empty

/-- **Such a program may compile without optimization and not with it.** It meets every condition
but the one on alignments: the bytes of its access are read as naming a memory, and go on with the
operations behind it until a rule takes these away. -/
theorem compile_misaligned_invalid : (∀ f ∈ misaligned.functions, f.body.MarkerFree) ∧
    misaligned.Distinct ∧
    (∀ f ∈ misaligned.functions, ∀ k t, f.params[k]? = some t →
      ∃ l ∈ f.locals.entries, l.index = k ∧ l.type = t) ∧
    (∀ f ∈ misaligned.functions, f.DeclaresMemory) ∧
    (∃ r₀ bytes₀, compile { level := .off } misaligned = .ok r₀ ∧ r₀.outcome = .ok bytes₀) ∧
    ∃ q t r, Optimize.run { level := .basic } misaligned = .ok (q, t) ∧
      (∀ f ∈ q.functions, f.withinLimits ∧ f.code.length < 2 ^ 32) ∧
      compile { level := .basic } misaligned = .ok r ∧ r.outcome = .error .invalid := by
  have hmarker : ∀ f ∈ misaligned.functions, ∀ i ∈ f.body, i.marker = none := by decide
  have hmemory : ∀ f ∈ misaligned.functions, ∀ i ∈ f.body, i.op.touchesMemory → f.usesMemory := by
    decide
  have hempty : ∀ f ∈ misaligned.functions, f.params = [] ∧ f.locals.entries = [] := by
    decide +kernel
  have hemit : misaligned.emit = .ok misaligned.binary := by decide +kernel
  have hbasic : (Optimize.run { level := .basic } misaligned).toOption.map (fun r =>
      (r.1.functions.all fun f => f.withinLimits && decide (f.code.length < 2 ^ 32),
        decide (r.1.emit = .error .invalid))) = some (true, true) := by decide +kernel
  refine ⟨hmarker, ⟨by decide, fun f hf g _ j => ?_⟩, fun f hf k t ht => ?_, hmemory, ?_, ?_⟩
  · refine LocalTable.find?_eq_none.mpr fun l hl => ?_
    rw [(hempty f hf).2] at hl
    cases hl
  · rw [(hempty f hf).1] at ht
    cases ht
  · obtain ⟨r₀, hr₀, hout⟩ := exists_compile_of_run
      (show Optimize.run { level := .off } misaligned = .ok (misaligned, []) from rfl)
    exact ⟨r₀, _, hr₀, hout.trans hemit⟩
  · obtain ⟨⟨q, t⟩, hrun, e⟩ := exists_ok_of_map hbasic
    obtain ⟨hall, hinvalid⟩ := Prod.mk.inj e
    obtain ⟨r, hr, hout⟩ := exists_compile_of_run hrun
    refine ⟨q, t, r, hrun, fun f hf => ?_, hr, hout.trans (of_decide_eq_true hinvalid)⟩
    simpa using List.all_eq_true.mp hall f hf

end WasmTrim
