/-
# Outcomes of one function

What a function does is seen in how it ends, in the globals, the memory and the host it leaves
behind, and in the calls it has made.  Two functions have the same outcomes when none of this
tells them apart, whatever the functions that they call do (`Function.SameOutcomes`).

This is the form in which a pass over a single function is judged.  It does not mention a program:
what is called is an arbitrary machine that keeps to the signatures, so the statement holds in
every program at once, and before as well as after the other functions have changed.

The calls are recorded by a machine that keeps a list of them beside the state of the host
(`Machine.traced`).  A refinement of a well-typed function has the same outcomes as that
function, since a well-typed function is never stuck (`Function.Typed.sameOutcomes_of_covers`).
-/
import WasmTrim.Proofs.Semantics.Refinement
import WasmTrim.Proofs.Typing.Soundness

namespace WasmTrim

/-! ## 1. The calls of a run

The record rides along in the state of the host, which no code can see. -/

/-- A call: what is called, and with which arguments. It is recorded when it is made, whether or not
it comes back. -/
structure Invocation where
  target : Nat
  args : List Value
deriving DecidableEq

/-- The state of the host without the calls that are recorded beside it. -/
def World.untraced {σ : Type} (w : World (σ × List Invocation)) : World σ :=
  { w with host := w.host.1 }

/-- The machine that records every call of the running function, the first one first.  What is
called does not see the record. -/
def Machine.traced {σ : Type} (M : Machine σ) : Machine (σ × List Invocation) where
  floats := M.floats
  hasMemory := M.hasMemory
  signatures := M.signatures
  tags := M.tags
  results := M.results
  fuel := M.fuel
  call t args w :=
    let (answer, w') := M.call t args w.untraced
    (answer, { w' with host := (w'.host, w.host.2 ++ [⟨t, args⟩]) })

/-- The calls that a function makes in a run, in order. They are found by letting the machine write
them into the state of the host. -/
def Function.callsMade {σ : Type} (f : Function) (M : Machine σ) (args : List Value)
    (w : World σ) : List Invocation :=
  (f.run M.traced args { w with host := (w.host, []) }).2.host.2

/-- Recording the calls changes nothing that a function relies on. -/
theorem Typing.Offers.traced {σ : Type} {s : Validation.Surroundings} {M : Machine σ}
    (H : Offers s M) : Offers s M.traced where
  memory := H.memory
  signatures := H.signatures
  tags := H.tags
  call := by
    intro t sig args w hs ha hw
    exact H.call (w := w.untraced) hs ha hw

/-! ## 2. The same outcomes

Equality of outcomes is asked for every bound.  A refinement gives it, as soon as the function
before is known not to be stuck. -/

/-- **Two functions have the same outcomes** in the given surroundings: they have the same
signature, and on arguments and globals of the right types, on every machine whose calls end as
their signatures say, both give the same answer, leave the same world and make the same calls.
The answer is one that the signature allows: a run is not stuck. -/
structure Function.SameOutcomes (s : Validation.Surroundings) (f f' : Function) : Prop where
  params : f'.params = f.params
  result : f'.result = f.result
  run : ∀ {σ : Type} (M : Machine σ), Typing.Offers s M → ∀ (args : List Value) (w : World σ),
    args.map Value.type = f.params → w.globals.map Value.type = s.globals.map Global.type →
      f'.run M args w = f.run M args w ∧ f'.callsMade M args w = f.callsMade M args w ∧
        Typing.AnswerFits s.tags f.result (f.run M args w).1

namespace Function

variable {s : Validation.Surroundings} {f f' : Function}

/-- A run of a well-typed function is not stuck, so what covers it does the same. -/
theorem Typed.eq_of_covers (hf : f.Typed s) {σ : Type} {M : Machine σ} (H : Typing.Offers s M)
    {args : List Value} {w : World σ} (ha : args.map Value.type = f.params)
    (hw : w.globals.map Value.type = s.globals.map Global.type) {a : Answer × World σ}
    (h : Covers (f.run M args w) a) :
    a = f.run M args w ∧ Typing.AnswerFits s.tags f.result (f.run M args w).1 := by
  have hfits := (Typing.run_fits hf H ha hw).1
  rcases h with hstuck | he
  · rw [hstuck] at hfits
    exact hfits.elim
  · exact ⟨he, hfits⟩

/-- **What covers a well-typed function has the same outcomes.** Covering allows anything where the
first function gets stuck, and a well-typed function does not get stuck. -/
theorem Typed.sameOutcomes_of_covers (hf : f.Typed s) (hparams : f'.params = f.params)
    (hresult : f'.result = f.result)
    (h : ∀ {σ : Type} (M : Machine σ), Typing.Offers s M → ∀ (args : List Value) (w : World σ),
      args.map Value.type = f.params → w.globals.map Value.type = s.globals.map Global.type →
        Covers (f.run M args w) (f'.run M args w)) : f.SameOutcomes s f' where
  params := hparams
  result := hresult
  run := by
    intro σ M H args w ha hw
    obtain ⟨he, hfits⟩ := hf.eq_of_covers H ha hw (h M H args w ha hw)
    have htraced := hf.eq_of_covers (w := { w with host := (w.host, []) }) H.traced ha hw
      (h M.traced H.traced args _ ha hw)
    exact ⟨he, congrArg (fun a => a.2.host.2) htraced.1, hfits⟩

/-- **A refinement of a well-typed function has the same outcomes.** The passes are shown to refine
without any talk of types; this is where a typed function turns refinement into equality. -/
theorem Refines.sameOutcomes (h : f.Refines s.signatures f') (hf : f.Typed s) :
    f.SameOutcomes s f' :=
  hf.sameOutcomes_of_covers h.params h.result fun M H args w ha _ =>
    h.covers M H.signatures args w (by rw [← ha, List.length_map])

end Function

end WasmTrim
