/-
# The passes on one function keep it well typed

The rewrites of a body keep it well typed (`Function.Typed.step`).  Removing locals renumbers the
others, and a renumbered operation is checked as before if the numbers mean the same
(`Typing.Renamed`).  Both together say that the passes on the functions of a program keep it well
typed (`Optimize.typed_optimizeFunctions`).

A function is checked in surroundings, which are what it may refer to in its program.  The passes on
one function change neither these nor its signature, so that the functions can be treated one by one
although each of them is in the surroundings of the others (`optimize_functions`).

That the use of a local as a store is gone is seen in the body only; its type still stands in the
table of locals until the table is renumbered, and then the body has to be renumbered with it
(`eliminate`).
-/
import WasmTrim.Proofs.Semantics.Passes
import WasmTrim.Proofs.Typing.Replacement

namespace WasmTrim

open Validation

/-! ## 1. Renumbered operations

An operation refers to a local, a callee, a global, a tag, a label or the memory, and only the first
two are ever renumbered. -/

namespace Typing

/-- What an operation refers to is the same in two surroundings, where the numbers of its local
and its callee may differ. -/
structure Renamed (env env' : Env) (f g : Nat → Nat) (o : Op) : Prop where
  locals : ∀ l, o.localIndex? = some l → env'.locals[f l]? = env.locals[l]?
  calls : ∀ t, o.callTarget? = some t → env'.signatures[g t]? = env.signatures[t]?
  memory : o.touchesMemory → env'.hasMemory = env.hasMemory
  globals : env'.globals = env.globals
  tags : env'.tags = env.tags
  returns : o.returns → env'.result = env.result

namespace Renamed

variable {env env' : Env} {f g : Nat → Nat} {o : Op}

theorem arrow? (h : Renamed env env' f g o) :
    Typing.arrow? env' ((o.mapLocal f).mapCall g) = Typing.arrow? env o := by
  cases o with
  | localGet l | localSet l | localTee l =>
    simp only [Op.mapLocal, Op.mapCall, Typing.arrow?, h.locals l rfl]
  | call t => simp only [Op.mapLocal, Op.mapCall, Typing.arrow?, h.calls t rfl]
  | globalGet i | globalSet i => simp only [Op.mapLocal, Op.mapCall, Typing.arrow?, h.globals]
  | load _ _ | store _ _ | memorySize | memoryGrow =>
    simp only [Op.mapLocal, Op.mapCall, Typing.arrow?, h.memory rfl]
  | _ => rfl

theorem stops? (h : Renamed env env' f g o) (s : Validation.State) :
    Typing.stops? env' s ((o.mapLocal f).mapCall g) = Typing.stops? env s o := by
  cases o with
  | ret => simp only [Op.mapLocal, Op.mapCall, Typing.stops?, Env.results, h.returns rfl]
  | returnCall t =>
    simp only [Op.mapLocal, Op.mapCall, Typing.stops?, h.calls t rfl, h.returns rfl]
  | throwTag tag => simp only [Op.mapLocal, Op.mapCall, Typing.stops?, h.tags]
  | _ => rfl

/-- **A renumbered operation is checked as before.** The checker looks up types and signatures by
number and never at the number itself. -/
theorem checkOp (h : Renamed env env' f g o) (s : Validation.State) :
    Typing.checkOp env' s ((o.mapLocal f).mapCall g) = Typing.checkOp env s o := by
  rcases s with _ | ⟨x, outer⟩
  · rw [checkOp_nil, checkOp_nil]
  by_cases ha : hasArrow o
  · have ha' : hasArrow ((o.mapLocal f).mapCall g) := by
      cases o <;> exact ha
    rw [checkOp_of_hasArrow ha, checkOp_of_hasArrow ha', h.arrow?]
  by_cases hs : hasStop o
  · have hs' : hasStop ((o.mapLocal f).mapCall g) := by
      cases o <;> exact hs
    rw [checkOp_of_hasStop hs, checkOp_of_hasStop hs', h.stops?]
  cases o <;> simp only [hasArrow, hasStop, not_true_eq_false] at ha hs
  case enter kind result =>
    simp only [Op.mapLocal, Op.mapCall, Typing.checkOp, Op.rule?, Option.bind_some, step,
      Validation.control, regionType?_blockType]
  case catchTag tag =>
    simp only [Op.mapLocal, Op.mapCall, Typing.checkOp, Op.rule?, Option.bind_some, step,
      Validation.control, h.tags]
  all_goals rfl

end Renamed

/-- **Renumbered code is checked as before**, step by step and with the same frames in between. -/
theorem checkAll_renamed {env env' : Env} {f g : Nat → Nat} : ∀ {ops : List Op}
    (s : Validation.State), (∀ o ∈ ops, Renamed env env' f g o) →
      checkAll env' s (ops.map fun o => (o.mapLocal f).mapCall g) = checkAll env s ops
  | [], _, _ => rfl
  | o :: ops, s, h => by
    rw [List.map_cons, checkAll_cons, checkAll_cons, (h o List.mem_cons_self).checkOp]
    refine congrArg _ (funext fun s => ?_)
    exact checkAll_renamed s fun o ho => h o (List.mem_cons_of_mem _ ho)

end Typing

/-- **A function stays well typed** when its operations are renumbered along with what they refer
to. The locals may be other ones and the program another one, as long as every number in use means
what it meant. -/
theorem Function.Typed.renamed {s s' : Surroundings} {f f' : Function} (h : f.Typed s)
    {r g : Nat → Nat} (hresult : f'.result = f.result)
    (hbody : f'.body.ops = f.body.ops.map fun o => (o.mapLocal r).mapCall g)
    (ho : ∀ o ∈ f.body.ops, Typing.Renamed (f.env s) (f'.env s') r g o)
    (hglobals : s'.globals = s.globals) (htags : s'.tags = s.tags) : f'.Typed s' := by
  have hclose : Typing.Renamed (f.env s) (f'.env s') r g .close :=
    ⟨fun _ h => (by cases h), fun _ h => (by cases h), fun h => (by cases h), hglobals, htags,
      fun h => (by cases h)⟩
  have hall : ∀ o ∈ f.body.ops ++ [.close], Typing.Renamed (f.env s) (f'.env s') r g o := by
    intro o hm
    rcases List.mem_append.mp hm with hm | hm
    · exact ho o hm
    · obtain rfl := List.mem_singleton.mp hm
      exact hclose
  have hstart : start (f'.env s') = start (f.env s) := by
    simp only [start, Env.results, Function.env, hresult]
  have e : f'.body.ops ++ [Op.close]
      = (f.body.ops ++ [Op.close]).map fun o => (o.mapLocal r).mapCall g := by
    rw [List.map_append, hbody]
    rfl
  unfold Function.Typed at h ⊢
  rw [hstart, e, Typing.checkAll_renamed _ hall, h]

/-! ## 2. One function

The passes are sequences of small steps, each of which replaces one piece of the body, and in the
end one renumbering. -/

namespace Typing

theorem LooserState.exists_singleton {x : Frame} {s : Validation.State}
    (h : LooserState [x] s) : ∃ y, Looser x y ∧ s = [y] := by
  cases h with
  | cons hx hs =>
    cases hs
    exact ⟨_, hx, rfl⟩

/-- A function whose last frame can be closed is well typed. -/
theorem typed_of_last {s : Surroundings} {f : Function} {last : Frame}
    (h : checkAll (f.env s) (start (f.env s)) f.body.ops = some [last]) (hc : last.isClosable) :
    f.Typed s := by
  unfold Function.Typed
  rw [checkAll_append, h, Option.bind_some, checkAll_singleton]
  exact checkOp_of_step (.close hc)

end Typing

/-- **A step of a pass keeps a function well typed.** The rewrite leaves code that may stand for
what was there, and the frames in front of it are those of the regions that are open. -/
theorem Function.Typed.step {s : Surroundings} {f : Function} (h : f.Typed s)
    (hm : f.body.MarkerFree) {resultsOf : Nat → Option Nat}
    (hresults : ∀ t, resultsOf t = (s.signatures[t]?).map fun x => x.result.arity) {b : Body}
    (hb : f.body.Step (f.surround resultsOf) b) : Function.Typed s { f with body := b } := by
  obtain ⟨c, hc⟩ := Option.isSome_iff_exists.mp h.parses
  obtain ⟨before, after, w, w', hops, hops', hrw⟩ := hb.rewrites hm c hc
  obtain ⟨last, hlast, hclosable, -⟩ := Typing.exists_last h
  rw [hops] at hlast
  have hrelaxes : ∀ x outer,
      Typing.checkAll (f.env s) (start (f.env s)) before = some (x :: outer) →
      Typing.Relaxes (f.env s) (x :: outer) w w' := by
    intro x outer hu
    exact Typing.relaxes_of_rewrite hrw rfl hresults
      ((Typing.follows_start _).checkAll hu (List.cons_ne_nil _ _))
  obtain ⟨t, ht, hl⟩ := Typing.Relaxes.window hrelaxes hlast (List.cons_ne_nil _ _)
  obtain ⟨last', hl', rfl⟩ := Typing.LooserState.exists_singleton hl
  have hlast' : Typing.checkAll (f.env s) (start (f.env s)) b.ops = some [last'] := by
    rw [hops', ht]
  exact Typing.typed_of_last hlast' (hl'.isClosable hclosable)

/-- **Removing unused locals keeps a function well typed.** The locals that the body names are still
there, with their types, under the numbers that the body now uses. -/
theorem DeadLocals.typed_removeLocals {s : Surroundings} {f : Function} {callables : Nat}
    (h : f.Typed s) (hf : f.Scoped callables) : (removeLocals f (unused f)).Typed s := by
  have hlocals : (f.env s).locals = f.locals.types := hf.declares.append_localTypes
  have hlocals' : ((removeLocals f (unused f)).env s).locals
      = (f.locals.compact (.removing (unused f))).types :=
    (declaresParams_removeLocals hf.declares).append_localTypes
  refine h.renamed (r := (Compaction.removing (unused f)).apply) (g := fun i => i) rfl ?_ ?_ rfl rfl
  · simp [removeLocals, Function.compactLocals, Body.ops, Instr.mapLocal]
  · intro o ho
    refine ⟨fun l hl => ?_, fun _ _ => rfl, fun _ => rfl, rfl, rfl, fun _ => rfl⟩
    obtain ⟨i, hi, rfl⟩ := Body.mem_ops.mp ho
    have hn : l ∉ (Compaction.removing (unused f)).removed :=
      fun hm => notMem_unused hi hl (Compaction.mem_removing.mp hm)
    rw [hlocals, hlocals']
    exact LocalTable.types_compact hf.declares.contiguous _ hn (hf.locals i hi l hl)

/-! ## 3. All functions

Rounds are repeated up to a bound (`optimize_function`), and a property that each of them keeps does
not depend on how many there are. -/

namespace Optimize

variable {c : Config} {p : Program}

/-- **All passes on a function keep it well typed**, in the surroundings that it has in its program,
which the passes do not change. -/
theorem typed_optimizeFunction (hp : p.Scoped) {f : Function} {callables : Nat}
    (h : f.Typed p.surroundings) (hf : f.Scoped callables) (hm : f.body.MarkerFree) :
    (optimizeFunction c.level (context c p) f).1.Typed p.surroundings := by
  refine (optimizeFunction_induction (P := fun g => g.Typed p.surroundings ∧ g.Scoped callables ∧
    g.body.MarkerFree) ?_ ?_ f ⟨h, hf, hm⟩).1
  · rintro g b hb ⟨hg, hs, hfree⟩
    refine ⟨hg.step hfree (fun t => ?_) hb, hs.step hb, hb.markerFree hfree⟩
    simp only [context, hp.signatureAt?]
    rfl
  · rintro g ⟨hg, hs, hfree⟩
    refine ⟨DeadLocals.typed_removeLocals hg hs, DeadLocals.scoped_removeLocals hs, fun i hi => ?_⟩
    obtain ⟨j, hj, rfl⟩ := List.mem_map.mp hi
    exact hfree j hj

/-- The passes leave alone what the functions may refer to. -/
theorem signatures_optimizeFunctions (hp : p.Scoped) :
    (optimizeFunctions c p).1.signatures = p.signatures := by
  refine congrArg (_ ++ ·) (List.ext_getElem? fun i => ?_)
  rw [List.getElem?_map, List.getElem?_map, getElem?_optimizeFunctions]
  cases hf : p.functions[i]? with
  | none => rfl
  | some f =>
    have hk := kept_optimizeFunction (hp.functions f (List.mem_of_getElem? hf)) c.level
      (context c p)
    simp only [Option.map_some, Function.signature, hk.params, hk.result]

/-- **The passes on the functions keep a program well typed**, since they keep each function well
typed where it stands and change no signature. -/
theorem typed_optimizeFunctions (hp : p.Scoped) (h : p.Typed)
    (hm : ∀ f ∈ p.functions, f.body.MarkerFree) : (optimizeFunctions c p).1.Typed := by
  intro g hg
  obtain ⟨i, hi⟩ := List.getElem?_of_mem hg
  rw [getElem?_optimizeFunctions] at hi
  obtain ⟨f, hf, rfl⟩ := Option.map_eq_some_iff.mp hi
  have hmem := List.mem_of_getElem? hf
  have htyped := typed_optimizeFunction (c := c) hp (h f hmem) (hp.functions f hmem) (hm f hmem)
  refine htyped.renamed (r := fun i => i) (g := fun i => i) rfl ?_ (fun o _ => ?_) rfl rfl
  · simp
  · refine ⟨fun _ _ => rfl, fun t _ => ?_, fun _ => usesMemory_optimizeFunctions _ _, rfl, rfl,
      fun _ => rfl⟩
    exact congrArg (fun l : List Signature => l[t]?) (signatures_optimizeFunctions hp)

end Optimize

end WasmTrim
