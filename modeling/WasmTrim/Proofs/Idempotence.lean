/-
# A second run changes nothing

A run that reaches none of its bounds ends at a point where no pass finds anything to do.  Each
pass tells whether it has changed anything, and tells the truth (`Optimize.round_unchanged`,
`Inline.eq_of_inlineFunctions_unchanged`), so the last round on a function leaves a function that
every further round leaves alone, and the last inlining leaves a program without candidates.

Three things have to agree for the second run to see what the first has left: what the passes know
about the program around a function is not changed by working on the functions
(`Optimize.context_optimizeFunctions`), the last inlining changed nothing, so what the functions
had become before it is what they are after it, and a single inlining pass uses up all candidates,
since a run that stops after inlining makes only one.

Programs are assumed to be *arranged*: functions stand at their indices, have different names, and
have tables without gaps that are large enough for their parameters. Without that a pass may
change something and still be at its end, for one because a name is looked up and another function
found.

That no repetition is cut short is read off the log, where it would be a warning.  Such warnings
are shown whatever the settings, so the hypothesis is about what a user sees.
-/
import WasmTrim.Proofs.Consistency
import WasmTrim.Proofs.Inline.Exhaustion

namespace WasmTrim

/-! ## 1. Passes that report no change

The flag of each pass is compared with what the pass does.  Only one direction is needed here: no
report, no change. -/

namespace Peephole

/-- A scan that applies no rule leaves the body as it is. -/
theorem scanFrom_of_firings {rules : List Rule} {s : Scope} (seen rest : Body)
    (h : (scanFrom rules s seen rest).firings = []) :
    (scanFrom rules s seen rest).body = seen.reverse ++ rest := by
  fun_induction scanFrom rules s seen rest with
  | case1 seen => simp
  | case2 seen i rest r c hr _ out ih => cases h
  | case3 seen i rest hr ih => rw [ih h]; simp

theorem simplify_unchanged {ctx : Context} {f : Function} (h : (simplify ctx f).2.1 = false) :
    (simplify ctx f).1 = f := by
  simp only [simplify, Outcome.changed, Bool.not_eq_false', List.isEmpty_iff] at h ⊢
  rw [scan, scanFrom_of_firings [] f.body h]
  rfl

end Peephole

namespace Folding

theorem foldFrom_of_folds : ∀ {rest seen : Body}, (foldFrom seen rest).folds = [] →
    (foldFrom seen rest).body = seen.reverse ++ rest
  | [], seen, _ => by simp [foldFrom]
  | i :: rest, seen, h => by
    simp only [foldFrom] at h ⊢
    split at h
    · cases h
    · rename_i hf
      rw [foldFrom_of_folds h]
      simp

theorem foldConstants_unchanged {f : Function} (h : (foldConstants f).2.1 = false) :
    (foldConstants f).1 = f := by
  simp only [foldConstants, Bool.not_eq_false', List.isEmpty_iff] at h ⊢
  rw [foldBody, foldFrom_of_folds h]
  rfl

end Folding

namespace DeadLocals

theorem flatMap_dropStore_of_writes {dead : Nat → Bool} : ∀ {body : Body},
    body.any (writes dead) = false → body.flatMap (dropStore dead) = body
  | [], _ => rfl
  | i :: body, h => by
    rw [List.any_cons, Bool.or_eq_false_iff] at h
    have hi : dropStore dead i = [i] := by
      have hw := h.1
      unfold dropStore
      split
      · rename_i l e
        simp only [writes, e, Op.storedLocal?, Option.any_some] at hw
        rw [if_neg (by simp [hw])]
      · rename_i l e
        simp only [writes, e, Op.storedLocal?, Option.any_some] at hw
        rw [if_neg (by simp [hw])]
      · rfl
    rw [List.flatMap_cons, hi, flatMap_dropStore_of_writes h.2]
    rfl

theorem eliminate_unchanged {f : Function} (h : (eliminate f).2.1 = false) :
    (eliminate f).1 = f := by
  simp only [eliminate] at h ⊢
  split at h
  · rename_i hd
    rw [if_pos hd]
    simp only [dropStores, flatMap_dropStore_of_writes h]
  · cases h

end DeadLocals

/-! ## 2. One function

The last of the rounds of `optimize_function` has changed nothing, unless they were cut short.  So
one more round changes nothing either, and with it the rounds of another run end. -/

namespace Optimize

variable {level : Level} {ctx : Peephole.Context}

/-- **A round that reports no change has made none.** The flag is put together from those of the
passes, and each of them is exact in this direction. -/
theorem round_unchanged {f : Function} (h : (round level ctx f).2.1 = false) :
    (round level ctx f).1 = f := by
  simp only [round, Bool.or_eq_false_iff] at h ⊢
  obtain ⟨⟨hsimplify, hfold⟩, htrim⟩ := h
  have h₁ := Peephole.simplify_unchanged hsimplify
  rw [h₁] at hfold htrim ⊢
  have h₂ : (if level.atLeast .fold then Folding.foldConstants f else (f, false, [])).1 = f := by
    split at hfold
    · rename_i hl
      rw [if_pos hl]
      exact Folding.foldConstants_unchanged hfold
    · rename_i hl
      rw [if_neg hl]
  rw [h₂] at htrim ⊢
  split at htrim
  · rename_i hl
    rw [if_pos hl]
    exact DeadLocals.eliminate_unchanged htrim
  · rename_i hl
    rw [if_neg hl]

/-- A function on which a round finds nothing to do. -/
def Stable (level : Level) (ctx : Peephole.Context) (f : Function) : Prop :=
  (round level ctx f).2.1 = false

/-- **Rounds that end before their bound end with a stable function.** -/
theorem stable_of_converge : ∀ (left : Nat) (f : Function),
    (∀ name n, .notConverged name n ∉ (converge level ctx left f).2) →
      Stable level ctx (converge level ctx left f).1
  | 0, f, h => absurd List.mem_cons_self (h f.name maxRounds)
  | left + 1, f, h => by
    simp only [converge] at h ⊢
    cases hr : (round level ctx f).2.1 with
    | true =>
      simp only [hr, if_true, List.mem_append, not_or] at h ⊢
      exact stable_of_converge left _ fun name n => (h name n).2
    | false =>
      simp only [Bool.false_eq_true, if_false, round_unchanged hr]
      exact hr

/-- **A stable function stays as it is**: the first round reports no change, and the rounds end
there. -/
theorem optimizeFunction_of_stable {f : Function} (h : Stable level ctx f) :
    (optimizeFunction level ctx f).1 = f := by
  have hchanged : (round level ctx f).2.1 = false := h
  have hfirst : ∀ left, (converge level ctx (left + 1) f).1 = f := by
    intro left
    simp only [converge, hchanged, Bool.false_eq_true, if_false]
    exact round_unchanged hchanged
  exact hfirst 63

/-- What no pass on a function ever changes: its index, its name, its parameters and its result. For
this nothing has to be assumed about the function. -/
theorem optimizeFunction_identity (level : Level) (ctx : Peephole.Context) (f : Function) :
    (optimizeFunction level ctx f).1.index = f.index ∧
      (optimizeFunction level ctx f).1.name = f.name ∧
      (optimizeFunction level ctx f).1.params = f.params ∧
      (optimizeFunction level ctx f).1.result = f.result := by
  refine optimizeFunction_induction
    (P := fun g => g.index = f.index ∧ g.name = f.name ∧ g.params = f.params ∧ g.result = f.result)
    ?_ ?_ f ⟨rfl, rfl, rfl, rfl⟩
  · exact fun g b _ hg => hg
  · exact fun g hg => hg

/-- Removing unused locals leaves room for the parameters, which are never removed; the indices stay
without gaps. -/
theorem locals_optimizeFunction {f : Function} (hc : f.locals.isContiguous)
    (hle : f.paramCount ≤ f.locals.size) :
    (optimizeFunction level ctx f).1.locals.isContiguous ∧
      (optimizeFunction level ctx f).1.paramCount
        ≤ (optimizeFunction level ctx f).1.locals.size := by
  refine optimizeFunction_induction
    (P := fun g => g.locals.isContiguous ∧ g.paramCount ≤ g.locals.size) ?_ ?_ f ⟨hc, hle⟩
  · exact fun g b _ hg => hg
  · rintro g ⟨hc, hle⟩
    obtain ⟨hc', hsize⟩ :=
      LocalTable.compact_contiguous hc (Compaction.removing (DeadLocals.unused g))
    refine ⟨hc', ?_⟩
    have hcount : (DeadLocals.removeLocals g (DeadLocals.unused g)).paramCount = g.paramCount := rfl
    have hlocals : (DeadLocals.removeLocals g (DeadLocals.unused g)).locals.size
        = g.locals.size - (Compaction.removing (DeadLocals.unused g)).below g.locals.size := hsize
    rw [hcount, hlocals]
    -- the last parameter keeps its index, which is below the new size
    rcases Nat.eq_zero_or_pos g.paramCount with hz | hpos
    · omega
    · have hn : g.paramCount - 1 ∉ (Compaction.removing (DeadLocals.unused g)).removed := by
        intro hm
        have := (DeadLocals.mem_unused.mp (Compaction.mem_removing.mp hm)).2.1
        omega
      have hlt := Compaction.apply_lt_of_lt _ hn (n := g.locals.size) (by omega)
      rw [DeadLocals.apply_of_lt_paramCount (by omega)] at hlt
      omega

/-! ## 3. All functions

The passes are given facts about the whole program.  These are the same after the passes as before,
and without that a function that was stable need not be stable in the next run. -/

variable {c : Config}

/-- Working on the functions changes none of the signatures, so the context of the passes is the
same in the next round. -/
theorem callables_optimizeFunctions (c : Config) (p : Program) :
    (optimizeFunctions c p).1.callables = p.callables := by
  simp only [Program.callables, optimizeFunctions, List.map_map]
  congr 1
  refine List.map_congr_left fun f _ => ?_
  obtain ⟨hi, -, hparams, hresult⟩ := optimizeFunction_identity c.level (context c p) f
  simp only [Function.comp, Function.signature, hi, hparams, hresult]

/-- **The passes know the same about the program before and after.** All they are told is which
runtime types are constructed and how many results each callable has, and the passes on functions
change neither. -/
theorem context_optimizeFunctions (c : Config) (p : Program) :
    context c (optimizeFunctions c p).1 = context c p := by
  simp only [context, Program.signatureAt?, callables_optimizeFunctions]
  rfl

/-- A program on whose functions no round finds anything to do. -/
def Steady (c : Config) (p : Program) : Prop :=
  ∀ f ∈ p.functions, Stable c.level (context c p) f

/-- **Functions that all converge are steady.** Rounds that were not cut short end with one that
reports no change, and what is known about the program is still the same. -/
theorem steady_of_optimizeFunctions {p : Program}
    (h : ∀ name n, .notConverged name n ∉ (optimizeFunctions c p).2) :
    Steady c (optimizeFunctions c p).1 := by
  intro g hg
  rw [context_optimizeFunctions]
  simp only [optimizeFunctions, List.map_map, List.mem_map] at hg
  obtain ⟨f, hf, rfl⟩ := hg
  refine stable_of_converge maxRounds f fun name n hm => h name n ?_
  simp only [optimizeFunctions, List.mem_flatMap, List.mem_map]
  exact ⟨_, ⟨f, hf, rfl⟩, hm⟩

/-- **A steady program stays as it is** under the passes on its functions, since each of these is
stable for what the passes know. -/
theorem optimizeFunctions_of_steady {p : Program} (h : Steady c p) :
    (optimizeFunctions c p).1 = p := by
  have hmap : p.functions.map (fun f => (optimizeFunction c.level (context c p) f).1)
      = p.functions := by
    conv => rhs; rw [← List.map_id p.functions]
    exact List.map_congr_left fun f hf => optimizeFunction_of_stable (h f hf)
  have he : (optimizeFunctions c p).1 = { p with
      functions := p.functions.map fun f => (optimizeFunction c.level (context c p) f).1 } := by
    simp only [optimizeFunctions, List.map_map]
    rfl
  rw [he, hmap]

/-- Working on the functions keeps a program arranged, with every function at its index and every
local in its place. -/
theorem arranged_optimizeFunctions {p : Program} (hp : p.Arranged) :
    (optimizeFunctions c p).1.Arranged where
  indices := by
    intro i g hg
    rw [getElem?_optimizeFunctions] at hg
    obtain ⟨f, hf, rfl⟩ := Option.map_eq_some_iff.mp hg
    rw [(optimizeFunction_identity _ _ _).1]
    exact hp.indices i f hf
  names := by
    have hnames : (optimizeFunctions c p).1.functions.map Function.name
        = p.functions.map Function.name := by
      simp only [optimizeFunctions, List.map_map]
      exact List.map_congr_left fun f _ => (optimizeFunction_identity _ _ _).2.1
    rw [hnames]
    exact hp.names
  locals := by
    intro g hg
    obtain ⟨i, hi⟩ := List.getElem?_of_mem hg
    rw [getElem?_optimizeFunctions] at hi
    obtain ⟨f, hf, rfl⟩ := Option.map_eq_some_iff.mp hi
    obtain ⟨hc, hle⟩ := hp.locals f (List.mem_of_getElem? hf)
    exact locals_optimizeFunction hc hle

/-! ## 4. Whole runs

A run that has settled ends with an inlining that found nothing to do, and before it the functions
had converged (`optimize`).  Both are seen from the warnings that were not given. -/

/-- The log says that some repetition was cut short: a function that did not converge, or inlining
that did not settle. If it does not, a second run finds nothing to do. -/
def CutShort (t : Trace) : Prop :=
  (∃ name n, .notConverged name n ∈ t) ∨ ∃ n, .notSettled n ∈ t

theorem cutShort_append {t u : Trace} : CutShort (t ++ u) ↔ CutShort t ∨ CutShort u := by
  simp only [CutShort, List.mem_append]
  constructor
  · rintro (⟨name, n, h | h⟩ | ⟨n, h | h⟩)
    · exact .inl (.inl ⟨name, n, h⟩)
    · exact .inr (.inl ⟨name, n, h⟩)
    · exact .inl (.inr ⟨n, h⟩)
    · exact .inr (.inr ⟨n, h⟩)
  · rintro ((⟨name, n, h⟩ | ⟨n, h⟩) | ⟨name, n, h⟩ | ⟨n, h⟩)
    · exact .inl ⟨name, n, .inl h⟩
    · exact .inr ⟨n, .inl h⟩
    · exact .inl ⟨name, n, .inr h⟩
    · exact .inr ⟨n, .inr h⟩

/-- These are warnings, so they are shown in every run. -/
theorem cutShort_shown {verbose : Bool} {t : Trace} : CutShort (t.shown verbose) ↔ CutShort t := by
  simp [CutShort, Trace.shown, Event.isWarning]

theorem steady_of_not_cutShort {p : Program} (h : ¬ CutShort (optimizeFunctions c p).2) :
    Steady c (optimizeFunctions c p).1 :=
  steady_of_optimizeFunctions fun name n hm => h (.inl ⟨name, n, hm⟩)

/-- **Alternating ends with a program in which nothing is left to do**, if it starts with a steady
one and is not cut short. -/
theorem steady_of_settle : ∀ (left : Nat) (p q : Program) (t : Trace), p.Arranged → Steady c p →
    settle c left p = .ok (q, t) → ¬ CutShort t → Steady c q ∧ Inline.candidates q = []
  | 0, p, q, t, _, _, h, hcut => by
    obtain ⟨rfl, rfl⟩ := Prod.mk.inj (Except.ok.inj h)
    exact absurd (.inr ⟨_, List.mem_cons_self⟩) hcut
  | left + 1, p, q, t, hp, hs, h, hcut => by
    simp only [settle, bind, Except.bind] at h
    split at h
    · cases h
    · rename_i v hv
      obtain ⟨p₁, changed, t₁⟩ := v
      obtain ⟨hp₁, hnone⟩ := Inline.candidates_of_inlineFunctions hp hv
      cases changed with
      | true =>
        simp only [if_true] at h
        split at h
        · cases h
        · rename_i v' hv'
          obtain ⟨p₂, t₂⟩ := v'
          obtain ⟨rfl, rfl⟩ := Prod.mk.inj (Except.ok.inj h)
          rw [cutShort_append, cutShort_append, not_or, not_or] at hcut
          exact steady_of_settle left _ _ _ (arranged_optimizeFunctions hp₁)
            (steady_of_not_cutShort hcut.1.2) hv' hcut.2
      | false =>
        obtain ⟨rfl, -⟩ := Prod.mk.inj (Except.ok.inj h)
        obtain rfl := Inline.eq_of_inlineFunctions_unchanged hv
        exact ⟨hs, hnone⟩

/-- **Where a run that is not cut short ends**: if it inlines, nothing is left to inline, and if it
does not stop after that, nothing is left to do on any function. -/
structure Finished (c : Config) (q : Program) : Prop where
  candidates : inlines c → Inline.candidates q = []
  steady : c.inlineOnly = false → Steady c q

theorem arranged_of_inlineFirst {p q : Program} {t : Trace} (hp : p.Arranged)
    (h : inlineFirst c p = .ok (q, t)) :
    q.Arranged ∧ (inlines c → Inline.candidates q = []) := by
  simp only [inlineFirst, bind, Except.bind] at h
  split at h
  · split at h
    · cases h
    · rename_i v hv
      obtain ⟨p₁, changed, t₁⟩ := v
      obtain ⟨rfl, -⟩ := Prod.mk.inj (Except.ok.inj h)
      obtain ⟨hq, hnone⟩ := Inline.candidates_of_inlineFunctions hp hv
      exact ⟨hq, fun _ => hnone⟩
  · rename_i hi
    obtain ⟨rfl, -⟩ := Prod.mk.inj (Except.ok.inj h)
    exact ⟨hp, fun hi' => absurd hi' hi⟩

theorem finished_of_run {p q : Program} {t : Trace} (hp : p.Arranged) (hlevel : c.level ≠ .off)
    (h : run c p = .ok (q, t)) (hcut : ¬ CutShort t) : Finished c q := by
  simp only [run, if_neg hlevel, bind, Except.bind, pure, Except.pure] at h
  split at h
  · cases h
  · rename_i v hv
    obtain ⟨p₁, t₁⟩ := v
    obtain ⟨hp₁, hfirst⟩ := arranged_of_inlineFirst hp hv
    split at h
    · rename_i honly
      obtain ⟨rfl, -⟩ := Prod.mk.inj (Except.ok.inj h)
      exact ⟨hfirst, fun hn => (by rw [honly] at hn; cases hn)⟩
    · split at h
      · rename_i hno
        obtain ⟨rfl, rfl⟩ := Prod.mk.inj (Except.ok.inj h)
        rw [cutShort_append, not_or] at hcut
        exact ⟨fun hi => (by rw [hi] at hno; cases hno), fun _ => steady_of_not_cutShort hcut.2⟩
      · split at h
        · cases h
        · rename_i v' hv'
          obtain ⟨p₂, t₂⟩ := v'
          obtain ⟨rfl, rfl⟩ := Prod.mk.inj (Except.ok.inj h)
          rw [cutShort_append, cutShort_append, not_or, not_or] at hcut
          obtain ⟨hs, hnone⟩ := steady_of_settle maxInlineRounds _ _ _
            (arranged_optimizeFunctions hp₁) (steady_of_not_cutShort hcut.1.2) hv' hcut.2
          exact ⟨fun _ => hnone, fun _ => hs⟩

/-- **A finished program stays as it is** when it is run through the optimizer again with the same
settings. The second run reports what it looked at, and so its trace need not be empty. -/
theorem run_of_finished {q : Program} (h : Finished c q) : ∃ t, run c q = .ok (q, t) := by
  have hfirst : ∃ t, inlineFirst c q = .ok (q, t) := by
    unfold inlineFirst
    split
    · rename_i hi
      rw [Inline.inlineFunctions_of_candidates (h.candidates hi)]
      exact ⟨_, rfl⟩
    · exact ⟨_, rfl⟩
  obtain ⟨t₁, h₁⟩ := hfirst
  simp only [run, h₁, bind, Except.bind, pure, Except.pure]
  split
  · exact ⟨_, rfl⟩
  · split
    · exact ⟨_, rfl⟩
    · rename_i honly
      have hs := optimizeFunctions_of_steady (h.steady (by simpa using honly))
      split
      · exact ⟨_, by rw [hs]⟩
      · rename_i hi
        have hnone := h.candidates (by simpa using hi)
        have hsettle : settle c maxInlineRounds (optimizeFunctions c q).1
            = .ok (q, Inline.survey q ++ [.settled 0]) := by
          rw [hs]
          simp [settle, maxInlineRounds, Inline.inlineFunctions_of_candidates hnone, bind,
            Except.bind, pure, Except.pure]
        rw [hsettle]
        exact ⟨_, rfl⟩

end Optimize

/-- **Optimizing twice is optimizing once.**  If a run on an arranged program says nowhere that it
was cut short, then the same run on its result returns exactly that result. -/
theorem optimize_idempotent (c : Config) (p q : Program) (t : Trace) (hp : p.Arranged)
    (h : optimize c p = .ok (q, t)) (hconverged : ∀ name n, .notConverged name n ∉ t)
    (hsettled : ∀ n, .notSettled n ∉ t) : ∃ t', optimize c q = .ok (q, t') := by
  have hcut : ¬ Optimize.CutShort t := by
    rintro (⟨name, n, hm⟩ | ⟨n, hm⟩)
    · exact hconverged name n hm
    · exact hsettled n hm
  by_cases hlevel : c.level = .off
  · exact ⟨_, by simp only [optimize, Optimize.run, hlevel, if_true]; rfl⟩
  · simp only [optimize, bind, Except.bind] at h
    split at h
    · cases h
    · rename_i v hv
      obtain ⟨q', t₁⟩ := v
      obtain ⟨rfl, rfl⟩ := Prod.mk.inj (Except.ok.inj h)
      rw [Optimize.cutShort_shown] at hcut
      obtain ⟨t', ht'⟩ := Optimize.run_of_finished (Optimize.finished_of_run hp hlevel hv hcut)
      exact ⟨t'.shown c.verbose, by simp only [optimize, ht', bind, Except.bind]; rfl⟩

theorem sample_arranged : sample.Arranged where
  indices := sample_indices
  names := by decide
  locals := fun f hf => ⟨(sample_declares f hf).contiguous, (sample_declares f hf).paramCount_le⟩

/-- The run on the example inlines and simplifies, and is not cut short. -/
theorem optimize_idempotent_sample : sample.Arranged ∧ ∃ q t t',
    optimize { level := .fold } sample = .ok (q, t) ∧ q.functions.length = 1 ∧
      optimize { level := .fold } q = .ok (q, t') := by
  have hlog : (optimize { level := .fold } sample).toOption.map
      (fun r => (r.1.functions.length, r.2)) = some (1, []) := by decide +kernel
  obtain ⟨⟨q, t⟩, h, e⟩ := exists_ok_of_map hlog
  obtain ⟨hlength, rfl⟩ := Prod.mk.inj e
  obtain ⟨t', ht'⟩ := optimize_idempotent { level := .fold } sample q [] sample_arranged h
    (fun _ _ hm => by cases hm) (fun _ hm => by cases hm)
  exact ⟨sample_arranged, q, [], t', h, hlength, ht'⟩

end WasmTrim
