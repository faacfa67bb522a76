/-
# One pass inlines everything

Inlining one function changes the others: they take in code, get new locals and new numbers.
None of this removes an obstacle (`Inline.Inlined.meets`), so a function that cannot be inlined at
some point cannot be inlined later in the pass either.  The candidates are those without obstacles
at the start, and each of them is inlined or meets an obstacle when its turn comes.  When all of
them had their turn, nothing is left (`Inline.candidates_of_inlineFunctions`).

This needs names that tell the functions apart, since the pass finds a candidate by its name, and
tables of locals that have room for the parameters, since a table that is too small may grow to the
right size.

The list of candidates is drawn up once, at the start of the pass (`inline_functions`), while the
obstacles are looked at again when a candidate has its turn, because earlier inlining may have grown
its body.  That the list need not be drawn up again is what is shown here.  Its two halves are that
obstacles stay, one case for each of the obstacles of `Inline.Obstacle`, and that an inlined program
is again one of which the first half speaks (`Inline.Inlined.arranged`).
-/
import WasmTrim.Proofs.Inline.Prepared
import WasmTrim.Proofs.Inline.Splice

namespace WasmTrim

/-- **A program is arranged**: every function stands at its index and has a name of its own, and
its locals are numbered from zero on and include the parameters. -/
structure Program.Arranged (p : Program) : Prop where
  indices : ∀ (i : Nat) (f : Function), p.functions[i]? = some f → f.index = p.functionBase + i
  names : (p.functions.map Function.name).Nodup
  locals : ∀ f ∈ p.functions, f.locals.isContiguous ∧ f.paramCount ≤ f.locals.size

/-! ## 1. Prepared bodies do not return

The number of `return`s is one of the things that decide whether a function is inlined.  A prepared
body adds none: its last `return` is left out, or all of them have become branches
(`prepare_body`). -/

namespace Op

@[simp] theorem mapCall_eq_ret_iff {f : Nat → Nat} {op : Op} : op.mapCall f = .ret ↔ op = .ret := by
  cases op <;> simp [mapCall]

@[simp] theorem isException_mapCall (f : Nat → Nat) (op : Op) :
    (op.mapCall f).isException = op.isException := by cases op <;> rfl

@[simp] theorem tailCallTarget?_mapCall (f : Nat → Nat) (op : Op) :
    (op.mapCall f).tailCallTarget? = op.tailCallTarget?.map f := by cases op <;> rfl

@[simp] theorem mapLocal_eq_ret_iff {f : Nat → Nat} {op : Op} :
    op.mapLocal f = .ret ↔ op = .ret := by
  cases op <;> simp [mapLocal]

end Op

namespace Body

theorem branchReturns_ne_ret : ∀ {n : Nesting} {body : Body} {i : Instr},
    i ∈ branchReturns n body → i.op ≠ .ret
  | n, [], i, h => by cases h
  | n, j :: body, i, h => by
    rw [branchReturns, List.mem_cons] at h
    rcases h with rfl | h
    · split
      · exact fun e => by cases e
      · assumption
    · exact branchReturns_ne_ret h

theorem ne_ret_of_exitsEarly : ∀ {n : Nesting} {body : Body}, body.exitsEarly n = false →
    ∀ i ∈ body, i.op ≠ .ret
  | n, [], _, i, hi => by cases hi
  | n, j :: body, h, i, hi => by
    simp only [exitsEarly, Bool.or_eq_false_iff] at h
    rcases List.mem_cons.mp hi with rfl | hi
    · intro e
      rw [e] at h
      cases h.1
    · exact ne_ret_of_exitsEarly h.2 i hi

end Body

/-- **What stands for a call does not return.** A body that could leave its function early is
wrapped, and its `return`s are branches then; any other has none left, the one at its end having
been left out. -/
theorem Function.preparedBody_ne_ret {signatureOf : Nat → Option Signature} {f : Function}
    {i : Instr} (h : i ∈ f.preparedBody signatureOf) : i.op ≠ .ret := by
  simp only [preparedBody] at h
  split at h
  · simp only [Body.wrapped, List.cons_append, List.mem_cons, List.mem_append, List.not_mem_nil,
      or_false] at h
    rcases h with rfl | h | rfl
    · exact fun e => by cases e
    · exact Body.branchReturns_ne_ret h
    · exact fun e => by cases e
  · rename_i hx
    exact Body.ne_ret_of_exitsEarly (by simpa using hx) i h

/-- Renumbering the calls of a function keeps its `return`s, so it cannot make the function fit for
inlining. -/
theorem Function.returnCount_compactCalls (f : Function) (c : Compaction) :
    (f.compactCalls c).returnCount = f.returnCount := by
  simp only [returnCount, compactCalls, List.countP_map]
  refine List.countP_congr fun i _ => ?_
  simp

namespace Inline

theorem countP_replaceCalls {index : Nat} {code : Body} (hcode : ∀ i ∈ code, i.op ≠ .ret) :
    ∀ body : Body, (replaceCalls index code body).countP (fun i => i.op = .ret)
      = body.countP fun i => i.op = .ret
  | [] => rfl
  | i :: body => by
    have ih := @countP_replaceCalls index code hcode body
    have hzero : code.countP (fun i => i.op = .ret) = 0 :=
      List.countP_eq_zero.mpr fun j hj => by simpa using hcode j hj
    simp only [replaceCalls, List.flatMap_cons, List.countP_append, List.countP_cons] at ih ⊢
    rw [ih]
    split
    · rename_i e
      simp [hzero, e]
    · simp [Nat.add_comm]

/-! ## 2. Obstacles stay

The obstacles are read off the name, the locals, the `return`s, the calls and the exceptions of a
function (`ineligibility`).  Each of them is shown to survive: the name is not touched, the locals
do not get fewer, and what stands in the body stays there unless it is a call of the callee.  A call
of the function by itself stays one, since both numbers are changed in the same way. -/

section

variable {p p' : Program} {callee : Function} {k : Nat} {f f' : Function} {t : Trace}

/-- Inlining into a function changes its body, its locals and its use of memory. -/
theorem exists_of_inlineInto {prepared : Body} (h : inlineInto callee prepared f = .ok (f', t)) :
    ∃ body locals usesMemory, f' = { f with body, locals, usesMemory } := by
  simp only [inlineInto, bind, Except.bind] at h
  split at h
  · cases h
  · obtain ⟨rfl, -⟩ := Prod.mk.inj (Except.ok.inj h)
    exact ⟨_, _, _, rfl⟩

/-- A table that takes in arguments does not get smaller. -/
theorem locals_of_inlineInto {prepared : Body} (hf : f.locals.isContiguous)
    (h : inlineInto callee prepared f = .ok (f', t)) :
    f'.locals.isContiguous ∧ f.locals.size ≤ f'.locals.size := by
  rcases inlineInto_cases hf h with ⟨-, rfl⟩ | ⟨-, locals, arguments, hd, rfl⟩
  · exact ⟨hf, Nat.le_refl _⟩
  · have hspec := declareArguments_spec hf hd
    exact ⟨hspec.contiguous, hspec.size_le⟩

/-- Whatever does not call the callee stays in the body. -/
theorem mem_of_inlineInto {prepared : Body} (hf : f.locals.isContiguous)
    (h : inlineInto callee prepared f = .ok (f', t)) {i : Instr} (hi : i ∈ f.body)
    (hne : i.op ≠ .call callee.index) : i ∈ f'.body := by
  rcases inlineInto_cases hf h with ⟨-, rfl⟩ | ⟨-, locals, arguments, -, rfl⟩
  · exact hi
  · exact mem_replaceCalls.mpr (.inl ⟨hi, hne⟩)

theorem returnCount_of_inlineInto {signatureOf : Nat → Option Signature}
    (hf : f.locals.isContiguous)
    (h : inlineInto callee (callee.preparedBody signatureOf) f = .ok (f', t)) :
    f'.returnCount = f.returnCount := by
  rcases inlineInto_cases hf h with ⟨-, rfl⟩ | ⟨-, locals, arguments, -, rfl⟩
  · rfl
  · refine countP_replaceCalls (fun i hi => ?_) f.body
    simp only [callCode, storeArguments, List.mem_append, List.mem_map] at hi
    rcases hi with ⟨a, -, rfl⟩ | ⟨j, hj, rfl⟩
    · exact fun e => by cases e
    · simpa using Function.preparedBody_ne_ret hj

/-- **An obstacle is still met after another function was inlined.** The function may have taken in
the code of the callee and has a new number, but none of the reasons against inlining it can have
gone away. -/
theorem Inlined.meets (h : Inlined p p' callee k) (hp : p.Arranged)
    (hk : p.functions[k]? = some callee) (he : callee.Eligible p.tailCallTargets) {i : Nat}
    (hf : p.functions[i]? = some f) (hi : i ≠ k)
    (hin : inlineInto callee (callee.preparedBody p.signatureAt?) f = .ok (f', t)) {o : Obstacle}
    (ho : f.meets p.tailCallTargets o) :
    (f'.compactCalls (.removing [callee.index])).meets p'.tailCallTargets o := by
  have hcont := (hp.locals f (List.mem_of_getElem? hf)).1
  have hother : f.index ≠ callee.index := by
    rw [hp.indices i f hf, hp.indices k callee hk]
    omega
  -- what does not call the callee is still there, renumbered
  have hkept : ∀ {j : Instr}, j ∈ f.body → j.op ≠ .call callee.index →
      j.mapCall (Compaction.removing [callee.index]).apply
        ∈ (f'.compactCalls (.removing [callee.index])).body :=
    fun hj hne => List.mem_map.mpr ⟨_, mem_of_inlineInto hcont hin hj hne, rfl⟩
  obtain ⟨body, locals, usesMemory, e⟩ := exists_of_inlineInto hin
  cases o with
  | entryPoint =>
    rw [e]
    exact ho
  | declaresLocals =>
    have hsize := (locals_of_inlineInto hcont hin).2
    have hle := (hp.locals f (List.mem_of_getElem? hf)).2
    have hparams : f'.paramCount = f.paramCount := by rw [e]; rfl
    simp only [Function.meets, ne_eq, decide_eq_true_eq] at ho ⊢
    simp only [Function.compactCalls, Function.paramCount] at hparams hle ho ⊢
    omega
  | severalReturns =>
    have hcount := returnCount_of_inlineInto hcont hin
    have hresult : f'.result = f.result := by rw [e]
    simp only [Function.meets, Function.returnCount_compactCalls, hcount] at ho ⊢
    simpa only [Function.compactCalls, hresult] using ho
  | callsItself =>
    simp only [Function.meets, Function.callsSelf, List.any_eq_true, decide_eq_true_eq] at ho ⊢
    obtain ⟨j, hj, ej⟩ := ho
    refine ⟨_, hkept hj (by rw [ej]; simpa using hother), ?_⟩
    have hindex : f'.index = f.index := by rw [e]
    simp only [Instr.op_mapCall, ej, Op.mapCall, Function.compactCalls, hindex]
  | mayThrow =>
    simp only [Function.meets, Bool.or_eq_true, List.any_eq_true] at ho ⊢
    rcases ho with ho | ⟨j, hj, ej⟩
    · exact .inl (by rw [e]; exact ho)
    · exact .inr ⟨_, hkept hj (by rintro ec; simp [ec, Op.isException] at ej), by simpa using ej⟩
  | makesTailCall =>
    simp only [Function.meets, List.any_eq_true] at ho ⊢
    obtain ⟨j, hj, ej⟩ := ho
    exact ⟨_, hkept hj (by rintro ec; simp [ec, Op.tailCallTarget?] at ej), by simpa using ej⟩
  | isTailCalled =>
    have hindex : f'.index = f.index := by rw [e]
    simp only [Function.meets, List.contains_eq_mem, decide_eq_true_eq, Program.tailCallTargets,
      List.mem_flatMap, List.mem_filterMap, Function.compactCalls, hindex] at ho ⊢
    obtain ⟨g, hg, j, hj, ej⟩ := ho
    obtain ⟨n, hn⟩ := List.getElem?_of_mem hg
    -- the callee makes no tail calls, so the function that does is still there
    have hnk : n ≠ k := by
      rintro rfl
      obtain rfl := Option.some.inj (hk.symm.trans hn)
      rw [he.noTailCall j hj] at ej
      cases ej
    obtain ⟨g', t', hg', hat⟩ := h.getElem? hn hnk
    have hgc := (hp.locals g hg).1
    have hj' := mem_of_inlineInto hgc hg' hj (by rintro ec; simp [ec, Op.tailCallTarget?] at ej)
    exact ⟨_, List.mem_of_getElem? hat, _, List.mem_map.mpr ⟨j, hj', rfl⟩, by simp [ej]⟩

/-! ## 3. Arranged programs stay arranged

Taking a function out leaves a gap in the numbers, and the renumbering closes it
(`remove_function`). -/

/-- The names that are left are those before without the callee's. -/
theorem Inlined.names (h : Inlined p p' callee k) :
    p'.functions.map Function.name = (p.functions.map Function.name).eraseIdx k := by
  obtain ⟨fs, hl, hfs, hrel⟩ := h.functions
  have hnames : fs.map Function.name = p.functions.map Function.name := by
    refine List.ext_getElem? fun i => ?_
    rw [List.getElem?_map, List.getElem?_map]
    cases hf : p.functions[i]? with
    | none =>
      have := List.getElem?_eq_none_iff.mp hf
      rw [List.getElem?_eq_none (by omega)]
    | some f =>
      obtain ⟨f', hf', hcase⟩ := hrel i f hf
      rw [hf']
      rcases hcase with ⟨-, rfl⟩ | ⟨-, t, ht⟩
      · rfl
      · obtain ⟨body, locals, usesMemory, rfl⟩ := exists_of_inlineInto ht
        rfl
  rw [← hnames, hfs, List.map_map]
  refine List.ext_getElem? fun i => ?_
  simp only [List.getElem?_map, List.getElem?_eraseIdx]
  split <;> rfl

/-- Every function still stands at its index, both having moved down by one behind the callee. -/
theorem Inlined.indices (h : Inlined p p' callee k)
    (hp : ∀ (i : Nat) (f : Function), p.functions[i]? = some f → f.index = p.functionBase + i)
    (hk : p.functions[k]? = some callee) (i' : Nat) (g : Function)
    (hg : p'.functions[i']? = some g) : g.index = p'.functionBase + i' := by
  obtain ⟨i, f, f', t, hi, rfl, hf, hin, rfl⟩ := h.exists_source hg
  have hcallee := hp k callee hk
  have hfi := hp i f hf
  simp only [Function.compactCalls, index_of_inlineInto hin, Compaction.apply_removing_one, hfi,
    hcallee, Program.functionBase, h.imports, position, Nat.add_lt_add_iff_left]
  split <;> omega

/-- **Inlining keeps programs arranged.** Names are only removed, never changed or added, so they
stay apart, and the functions behind the callee move up by one. -/
theorem Inlined.arranged (h : Inlined p p' callee k) (hp : p.Arranged)
    (hk : p.functions[k]? = some callee) : p'.Arranged where
  indices := h.indices hp.indices hk
  names := by
    rw [h.names]
    exact hp.names.sublist (List.eraseIdx_sublist _ _)
  locals := by
    intro g hg
    obtain ⟨i', hi'⟩ := List.getElem?_of_mem hg
    obtain ⟨i, f, f', t, -, -, hf, hin, rfl⟩ := h.exists_source hi'
    obtain ⟨hc, hle⟩ := hp.locals f (List.mem_of_getElem? hf)
    obtain ⟨hc', hle'⟩ := locals_of_inlineInto hc hin
    obtain ⟨body, locals, usesMemory, rfl⟩ := exists_of_inlineInto hin
    exact ⟨hc', Nat.le_trans hle hle'⟩

end

/-! ## 4. The pass

By induction on the names that are still to be looked at.  The invariant is that every function
without obstacles is named among them: inlining does not break it, since it clears no obstacle, and
passing over a name does not, since the function of that name has one. -/

/-- A function can be inlined when it meets no obstacle. -/
theorem isInlinable_iff {f : Function} {tailCalled : List Nat} :
    f.isInlinable tailCalled ↔ ∀ o, f.meets tailCalled o = false := by
  simp only [Function.isInlinable, Function.obstacles, List.isEmpty_iff, List.filter_eq_nil_iff,
    Bool.not_eq_true]
  exact ⟨fun h o => h o (Obstacle.mem_all o), fun h o _ => h o⟩

/-- What can be inlined after another function was inlined could be before. -/
theorem Inlined.isInlinable_source {p p' : Program} {callee : Function} {k : Nat}
    (h : Inlined p p' callee k) (hp : p.Arranged) (hk : p.functions[k]? = some callee)
    (he : callee.Eligible p.tailCallTargets) {g : Function} (hg : g ∈ p'.functions)
    (hi : g.isInlinable p'.tailCallTargets) :
    ∃ f ∈ p.functions, f.isInlinable p.tailCallTargets ∧ f.name = g.name
      ∧ f.name ≠ callee.name := by
  obtain ⟨i', hi'⟩ := List.getElem?_of_mem hg
  obtain ⟨i, f, f', t, hik, -, hf, hin, rfl⟩ := h.exists_source hi'
  refine ⟨f, List.mem_of_getElem? hf, isInlinable_iff.mpr fun o => ?_, ?_, fun e => hik ?_⟩
  · cases ho : f.meets p.tailCallTargets o with
    | false => rfl
    | true =>
      have hstays := h.meets hp hk he hf hik hin ho
      rw [isInlinable_iff.mp hi o] at hstays
      cases hstays
  · obtain ⟨body, locals, usesMemory, rfl⟩ := exists_of_inlineInto hin
    rfl
  · have hlt : i < (p.functions.map Function.name).length := by
      simpa using (List.getElem?_eq_some_iff.mp hf).1
    refine (List.getElem?_inj hlt hp.names).mp ?_
    rw [List.getElem?_map, List.getElem?_map, hf, hk, Option.map_some, Option.map_some, e]

/-- **Inlining by name uses up the names**: if all functions that can be inlined are named, none is
left in the end. -/
theorem inlineEach_exhausts : ∀ (names : List String) (p q : Program) (changed : Bool) (t : Trace),
    p.Arranged → (∀ f ∈ p.functions, f.isInlinable p.tailCallTargets → f.name ∈ names) →
    inlineEach names p = .ok (q, changed, t) →
      q.Arranged ∧ ∀ f ∈ q.functions, f.isInlinable q.tailCallTargets = false
  | [], p, q, changed, t, hp, hn, h => by
    obtain ⟨rfl, -⟩ := Prod.mk.inj (Except.ok.inj h)
    refine ⟨hp, fun f hf => ?_⟩
    cases hi : f.isInlinable p.tailCallTargets with
    | false => rfl
    | true => exact absurd (hn f hf hi) List.not_mem_nil
  | name :: names, p, q, changed, t, hp, hn, h => by
    unfold inlineEach at h
    split at h
    · -- no function has the name
      rename_i hnone
      refine inlineEach_exhausts names p q changed t hp (fun f hf hi => ?_) h
      have hne : f.name ≠ name := by simpa using List.find?_eq_none.mp hnone f hf
      exact (List.mem_cons.mp (hn f hf hi)).resolve_left hne
    · rename_i callee hcallee
      have hm : callee ∈ p.functions := List.mem_of_find?_eq_some hcallee
      have hname : callee.name = name := by simpa using List.find?_some hcallee
      obtain ⟨k, hk⟩ := List.getElem?_of_mem hm
      split at h
      · rename_i ho
        cases hi : inlineCallee p callee with
        | error e => simp [hi, bind, Except.bind] at h
        | ok r =>
          obtain ⟨p', t'⟩ := r
          simp only [hi, bind, Except.bind] at h
          split at h
          · cases h
          · rename_i v hv
            obtain ⟨q', changed', t''⟩ := v
            obtain ⟨rfl, -⟩ := Prod.mk.inj (Except.ok.inj h)
            have hin := inlineCallee_spec hp.indices hk hi
            refine inlineEach_exhausts names p' q' changed' t'' (hin.arranged hp hk)
              (fun g hg hgi => ?_) hv
            obtain ⟨f, hf, hfi, hfg, hne⟩ := hin.isInlinable_source hp hk
              (Function.eligible_of_obstacles ho) hg hgi
            rw [← hfg]
            exact (List.mem_cons.mp (hn f hf hfi)).resolve_left (hname ▸ hne)
      · rename_i ho
        simp only [bind, Except.bind] at h
        split at h
        · cases h
        · rename_i v hv
          obtain ⟨q', changed', t''⟩ := v
          obtain ⟨rfl, -⟩ := Prod.mk.inj (Except.ok.inj h)
          refine inlineEach_exhausts names p q' changed' t'' hp (fun f hf hi => ?_) hv
          refine (List.mem_cons.mp (hn f hf hi)).resolve_left fun e => ho ?_
          -- the function of this name is the one that meets an obstacle
          obtain ⟨j, hj⟩ := List.getElem?_of_mem hf
          have hlt : j < (p.functions.map Function.name).length := by
            simpa using (List.getElem?_eq_some_iff.mp hj).1
          have hjk : j = k := by
            refine (List.getElem?_inj hlt hp.names).mp ?_
            rw [List.getElem?_map, List.getElem?_map, hj, hk, Option.map_some, Option.map_some, e,
              hname]
          subst hjk
          obtain rfl := Option.some.inj (hj.symm.trans hk)
          simpa [Function.isInlinable] using hi

theorem mem_candidates {p : Program} {f : Function} (hf : f ∈ p.functions)
    (hi : f.isInlinable p.tailCallTargets) : f.name ∈ candidates p :=
  List.mem_map.mpr ⟨f, List.mem_filter.mpr ⟨List.mem_reverse.mpr hf, hi⟩, rfl⟩

/-- **One pass leaves nothing to inline.** A second pass right behind it would find no candidate,
although the first one has looked at each candidate only once. -/
theorem candidates_of_inlineFunctions {p q : Program} {changed : Bool} {t : Trace}
    (hp : p.Arranged) (h : inlineFunctions p = .ok (q, changed, t)) :
    q.Arranged ∧ candidates q = [] := by
  simp only [inlineFunctions, bind, Except.bind] at h
  split at h
  · cases h
  · rename_i v hv
    obtain ⟨q', changed', t'⟩ := v
    obtain ⟨rfl, -⟩ := Prod.mk.inj (Except.ok.inj h)
    obtain ⟨hq, hnone⟩ := inlineEach_exhausts _ p q' changed' t' hp
      (fun f hf hi => mem_candidates hf hi) hv
    refine ⟨hq, ?_⟩
    have hfilter : (q'.functions.reverse.filter fun f => f.isInlinable q'.tailCallTargets) = [] :=
      List.filter_eq_nil_iff.mpr fun f hf => by simp [hnone f (List.mem_reverse.mp hf)]
    rw [candidates, hfilter, List.map_nil]

/-- Without candidates nothing happens, except that the obstacles of every function are reported. -/
theorem inlineFunctions_of_candidates {p : Program} (h : candidates p = []) :
    inlineFunctions p = .ok (p, false, survey p) := by
  simp [inlineFunctions, h, inlineEach, bind, Except.bind, pure, Except.pure]

/-- A pass that reports no change has made none: the flag says more than whether a call was
replaced, as it is set by a removal. -/
theorem eq_of_inlineEach_unchanged : ∀ {names : List String} {p q : Program} {t : Trace},
    inlineEach names p = .ok (q, false, t) → q = p
  | [], p, q, t, h => (Prod.mk.inj (Except.ok.inj h)).1.symm
  | name :: names, p, q, t, h => by
    unfold inlineEach at h
    split at h
    · exact eq_of_inlineEach_unchanged h
    · split at h
      · simp only [bind, Except.bind] at h
        split at h
        · cases h
        · split at h
          · cases h
          · cases h
      · simp only [bind, Except.bind] at h
        split at h
        · cases h
        · rename_i v hv
          obtain ⟨q', changed', t'⟩ := v
          obtain ⟨rfl, e⟩ := Prod.mk.inj (Except.ok.inj h)
          obtain ⟨rfl, -⟩ := Prod.mk.inj e
          exact eq_of_inlineEach_unchanged hv

theorem eq_of_inlineFunctions_unchanged {p q : Program} {t : Trace}
    (h : inlineFunctions p = .ok (q, false, t)) : q = p := by
  simp only [inlineFunctions, bind, Except.bind] at h
  split at h
  · cases h
  · rename_i v hv
    obtain ⟨q', changed', t'⟩ := v
    obtain ⟨rfl, e⟩ := Prod.mk.inj (Except.ok.inj h)
    obtain ⟨rfl, -⟩ := Prod.mk.inj e
    exact eq_of_inlineEach_unchanged hv

end Inline

end WasmTrim
