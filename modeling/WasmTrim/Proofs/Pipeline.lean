/-
# What a run of the optimizer consists of

A run is a long chain of small changes.  On one function there are two: a step that replaces a
piece of the body, and the removal of locals that are not used.  On the program there are two as
well: all functions are worked on, or one function is inlined everywhere and removed.  The
repetitions, their bounds and the settings only decide how many of these changes are made.

So a property that every change keeps is kept by a whole run (`Optimize.run_induction`), and a run
gives a result when each inlining does (`Optimize.exists_run`).

This is where the shape of `optimize` is taken apart, once.  The theorems on whole runs are stated
for a property of programs, are given what one change does, and never mention a level, a bound or
a switch; when the order of the passes changes, this module changes and they do not.

The induction on a run has two cases, and each comes with what is known when the change is made:
for inlining, that the callee is a function of the program without obstacles and that the step gave
a result; for the passes, nothing, since they are total.  A property may therefore speak of the
program a run started from, and say how far it has come.
-/
import WasmTrim.Optimize
import WasmTrim.Proofs.Rewrite

namespace WasmTrim

/-- What a rewrite of a function may know, in a program where callables have the given numbers of
results. -/
def Function.surround (resultsOf : Nat → Option Nat) (f : Function) : Surround :=
  ⟨resultsOf, f.result.arity⟩

namespace Optimize

/-! ## 1. One function

A round is a scan, folds and a removal of locals, and all that they do to a function are steps on
its body and one renumbering (`optimize_function`). -/

section

variable {P : Function → Prop} {level : Level} {ctx : Peephole.Context}

/-- **What every change of a function keeps, a round keeps.** There are two kinds of changes: one
piece of the body is replaced by another, and unused locals are taken out of the table. -/
theorem round_induction
    (hbody : ∀ f b, f.body.Step (f.surround ctx.resultsOf) b → P f → P { f with body := b })
    (hlocals : ∀ f, P f → P (DeadLocals.removeLocals f (DeadLocals.unused f)))
    (f : Function) (h : P f) : P (round level ctx f).1 := by
  have hstep : ∀ (f : Function) (b b' : Body), b.Step (f.surround ctx.resultsOf) b' →
      P { f with body := b } → P { f with body := b' } :=
    fun f b b' hs hb => hbody { f with body := b } b' hs hb
  have hsimplify : ∀ f, P f → P (Peephole.simplify ctx f).1 := by
    intro f h
    exact Peephole.scanFrom_induction (P := fun b => P { f with body := b })
      (s := ctx.scope f) (hstep f) [] f.body h
  have hfold : ∀ f, P f → P (Folding.foldConstants f).1 := by
    intro f h
    exact Folding.foldFrom_induction (P := fun b => P { f with body := b })
      (hstep f) f.body [] h
  have heliminate : ∀ f, P f → P (DeadLocals.eliminate f).1 := by
    intro f h
    have hdrop : P (DeadLocals.dropStores f) := by
      refine DeadLocals.dropStores_induction (P := fun b => P { f with body := b })
        (hstep f) f.body [] (fun l hl => ?_) h
      exact Body.notMem_of_reads (DeadLocals.isUnread_iff.mp hl).2
    simp only [DeadLocals.eliminate]
    split
    · exact hdrop
    · exact hlocals _ hdrop
  have h₁ := hsimplify f h
  have h₂ : P (if level.atLeast .fold then Folding.foldConstants (Peephole.simplify ctx f).1
      else ((Peephole.simplify ctx f).1, false, [])).1 := by
    split
    · exact hfold _ h₁
    · exact h₁
  simp only [round]
  split
  · exact heliminate _ h₂
  · exact h₂

/-- **What every change of a function keeps, all passes on it keep.** This is the form in which most
properties are carried through the passes; it does not mention rounds or their number. -/
theorem optimizeFunction_induction
    (hbody : ∀ f b, f.body.Step (f.surround ctx.resultsOf) b → P f → P { f with body := b })
    (hlocals : ∀ f, P f → P (DeadLocals.removeLocals f (DeadLocals.unused f)))
    (f : Function) (h : P f) : P (optimizeFunction level ctx f).1 := by
  have hconverge : ∀ (left : Nat) (f : Function), P f → P (converge level ctx left f).1 := by
    intro left
    induction left with
    | zero => exact fun f h => h
    | succ left ih =>
      intro f h
      have hr : P (round level ctx f).1 := round_induction hbody hlocals f h
      simp only [converge]
      split
      · exact ih _ hr
      · exact hr
  exact hconverge maxRounds f h

end

/-! ## 2. The program

An inlining pass handles one callee after the other (`inline_functions`), and a run alternates it
with the passes on functions (`optimize`). -/

section

variable {P : Program → Prop}

/-- **What every inlining keeps, the inlining of several functions keeps.** An inlining may use that
its callee is in the program and meets no obstacle there, as the pass looks at both right before it.
-/
theorem inlineEach_induction
    (hinline : ∀ p callee p' t, callee ∈ p.functions → callee.obstacles p.tailCallTargets = [] →
      Inline.inlineCallee p callee = .ok (p', t) → P p → P p') :
    ∀ (names : List String) (p q : Program) (changed : Bool) (t : Trace),
      Inline.inlineEach names p = .ok (q, changed, t) → P p → P q
  | [], p, q, changed, t, h, hp => by
    obtain ⟨rfl, -⟩ := Prod.mk.inj (Except.ok.inj h)
    exact hp
  | name :: names, p, q, changed, t, h, hp => by
    unfold Inline.inlineEach at h
    split at h
    · exact inlineEach_induction hinline names p q changed t h hp
    · rename_i callee hcallee
      split at h
      · rename_i ho
        cases hi : Inline.inlineCallee p callee with
        | error e => simp [hi, bind, Except.bind] at h
        | ok r =>
          obtain ⟨p', t'⟩ := r
          simp only [hi, bind, Except.bind] at h
          split at h
          · cases h
          · rename_i v hv
            obtain ⟨q', changed', t''⟩ := v
            obtain ⟨rfl, -⟩ := Prod.mk.inj (Except.ok.inj h)
            exact inlineEach_induction hinline names p' q' changed' t'' hv
              (hinline p callee p' t' (List.mem_of_find?_eq_some hcallee) ho hi hp)
      · simp only [bind, Except.bind] at h
        split at h
        · cases h
        · rename_i v hv
          obtain ⟨q', changed', t''⟩ := v
          obtain ⟨rfl, -⟩ := Prod.mk.inj (Except.ok.inj h)
          exact inlineEach_induction hinline names p q' changed' t'' hv hp

theorem inlineFunctions_induction
    (hinline : ∀ p callee p' t, callee ∈ p.functions → callee.obstacles p.tailCallTargets = [] →
      Inline.inlineCallee p callee = .ok (p', t) → P p → P p')
    {p q : Program} {changed : Bool} {t : Trace}
    (h : Inline.inlineFunctions p = .ok (q, changed, t)) (hp : P p) : P q := by
  simp only [Inline.inlineFunctions, bind, Except.bind] at h
  split at h
  · cases h
  · rename_i v hv
    obtain ⟨q', changed', t'⟩ := v
    obtain ⟨rfl, -⟩ := Prod.mk.inj (Except.ok.inj h)
    exact inlineEach_induction hinline _ p q' changed' t' hv hp

variable {c : Config}

/-- **What every change of a program keeps, a run keeps.** A run is made of inlinings and of the
passes on all functions, in an order that depends on the settings; a property that survives both
survives any such order. -/
theorem run_induction
    (hinline : ∀ p callee p' t, callee ∈ p.functions → callee.obstacles p.tailCallTargets = [] →
      Inline.inlineCallee p callee = .ok (p', t) → P p → P p')
    (hfunctions : ∀ p, P p → P (optimizeFunctions c p).1)
    {p q : Program} {t : Trace} (h : run c p = .ok (q, t)) (hp : P p) : P q := by
  have hsettle : ∀ (left : Nat) (p q : Program) (t : Trace), settle c left p = .ok (q, t) →
      P p → P q := by
    intro left
    induction left with
    | zero =>
      intro p q t h hp
      obtain ⟨rfl, -⟩ := Prod.mk.inj (Except.ok.inj h)
      exact hp
    | succ left ih =>
      intro p q t h hp
      simp only [settle, bind, Except.bind] at h
      split at h
      · cases h
      · rename_i v hv
        obtain ⟨p₁, changed, t₁⟩ := v
        have hp₁ := inlineFunctions_induction hinline hv hp
        simp only [pure, Except.pure] at h
        split at h
        · split at h
          · cases h
          · rename_i v' hv'
            obtain ⟨p₂, t₂⟩ := v'
            obtain ⟨rfl, -⟩ := Prod.mk.inj (Except.ok.inj h)
            exact ih _ _ _ hv' (hfunctions _ hp₁)
        · obtain ⟨rfl, -⟩ := Prod.mk.inj (Except.ok.inj h)
          exact hp₁
  have hfirst : ∀ (q : Program) (t : Trace), inlineFirst c p = .ok (q, t) → P q := by
    intro q t h
    simp only [inlineFirst, bind, Except.bind] at h
    split at h
    · split at h
      · cases h
      · rename_i v hv
        obtain ⟨p₁, changed, t₁⟩ := v
        obtain ⟨rfl, -⟩ := Prod.mk.inj (Except.ok.inj h)
        exact inlineFunctions_induction hinline hv hp
    · obtain ⟨rfl, -⟩ := Prod.mk.inj (Except.ok.inj h)
      exact hp
  simp only [run, bind, Except.bind, pure, Except.pure] at h
  split at h
  · obtain ⟨rfl, -⟩ := Prod.mk.inj (Except.ok.inj h)
    exact hp
  · split at h
    · cases h
    · rename_i v hv
      obtain ⟨p₁, t₁⟩ := v
      have hp₁ := hfirst p₁ t₁ hv
      split at h
      · obtain ⟨rfl, -⟩ := Prod.mk.inj (Except.ok.inj h)
        exact hp₁
      · split at h
        · obtain ⟨rfl, -⟩ := Prod.mk.inj (Except.ok.inj h)
          exact hfunctions _ hp₁
        · split at h
          · cases h
          · rename_i v' hv'
            obtain ⟨p₂, t₂⟩ := v'
            obtain ⟨rfl, -⟩ := Prod.mk.inj (Except.ok.inj h)
            exact hsettle _ _ _ _ hv' (hfunctions _ hp₁)

/-! ## 3. Runs that give a result

The same in the other direction: if every inlining can be made, so can the pass and the run.  The
property may be used to show that the next inlining can be made. -/

theorem exists_inlineEach
    (hinline : ∀ p callee, callee ∈ p.functions → callee.obstacles p.tailCallTargets = [] → P p →
      ∃ p' t, Inline.inlineCallee p callee = .ok (p', t) ∧ P p') :
    ∀ (names : List String) (p : Program), P p →
      ∃ q changed t, Inline.inlineEach names p = .ok (q, changed, t) ∧ P q
  | [], p, hp => ⟨p, false, [], rfl, hp⟩
  | name :: names, p, hp => by
    unfold Inline.inlineEach
    split
    · exact exists_inlineEach hinline names p hp
    · rename_i callee hcallee
      split
      · rename_i ho
        obtain ⟨p', t, hi, hp'⟩ := hinline p callee (List.mem_of_find?_eq_some hcallee) ho hp
        obtain ⟨q, changed, t', hq, hPq⟩ := exists_inlineEach hinline names p' hp'
        exact ⟨q, true, t ++ t', by simp [hi, hq, bind, Except.bind, pure, Except.pure], hPq⟩
      · obtain ⟨q, changed, t', hq, hPq⟩ := exists_inlineEach hinline names p hp
        exact ⟨q, changed, .noLongerInlining callee.name (callee.obstacles p.tailCallTargets) :: t',
          by simp only [hq, bind, Except.bind, pure, Except.pure], hPq⟩

theorem exists_inlineFunctions
    (hinline : ∀ p callee, callee ∈ p.functions → callee.obstacles p.tailCallTargets = [] → P p →
      ∃ p' t, Inline.inlineCallee p callee = .ok (p', t) ∧ P p') {p : Program} (hp : P p) :
    ∃ q changed t, Inline.inlineFunctions p = .ok (q, changed, t) ∧ P q := by
  obtain ⟨q, changed, t, h, hq⟩ := exists_inlineEach hinline (Inline.candidates p) p hp
  exact ⟨q, changed, Inline.survey p ++ t, by simp only [Inline.inlineFunctions, h, bind,
    Except.bind, pure, Except.pure], hq⟩

/-- **A run gives a result** when every inlining of a program with some property does, and leaves
a program with that property. -/
theorem exists_run
    (hinline : ∀ p callee, callee ∈ p.functions → callee.obstacles p.tailCallTargets = [] → P p →
      ∃ p' t, Inline.inlineCallee p callee = .ok (p', t) ∧ P p')
    (hfunctions : ∀ p, P p → P (optimizeFunctions c p).1) {p : Program} (hp : P p) :
    ∃ q t, run c p = .ok (q, t) := by
  have hsettle : ∀ (left : Nat) (p : Program), P p → ∃ q t, settle c left p = .ok (q, t) := by
    intro left
    induction left with
    | zero => exact fun p _ => ⟨p, _, rfl⟩
    | succ left ih =>
      intro p hp
      obtain ⟨p₁, changed, t₁, h₁, hp₁⟩ := exists_inlineFunctions hinline hp
      obtain ⟨q, t, hq⟩ := ih (optimizeFunctions c p₁).1 (hfunctions _ hp₁)
      simp only [settle, h₁, bind, Except.bind, pure, Except.pure]
      cases changed with
      | false => exact ⟨p₁, _, rfl⟩
      | true =>
        simp only [if_true, hq]
        exact ⟨q, _, rfl⟩
  have hfirst : ∃ q t, inlineFirst c p = .ok (q, t) ∧ P q := by
    simp only [inlineFirst]
    split
    · obtain ⟨q, changed, t, h, hq⟩ := exists_inlineFunctions hinline hp
      exact ⟨q, t, by simp only [h, bind, Except.bind, pure, Except.pure], hq⟩
    · exact ⟨p, [], rfl, hp⟩
  obtain ⟨p₁, t₁, h₁, hp₁⟩ := hfirst
  obtain ⟨q, t, hq⟩ := hsettle maxInlineRounds _ (hfunctions p₁ hp₁)
  simp only [run, h₁, bind, Except.bind, pure, Except.pure]
  split
  · exact ⟨p, _, rfl⟩
  · split
    · exact ⟨p₁, _, rfl⟩
    · split
      · exact ⟨_, _, rfl⟩
      · simp only [hq]
        exact ⟨q, _, rfl⟩

end

end Optimize

end WasmTrim
