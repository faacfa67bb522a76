/-
# What the optimizer preserves

One program mimics another at a pair of callables when every call that ends in the first ends in
the same way in the second, and the other way round, as long as the first does not get stuck
(`Mimics`).  Changes of a program that are mimicked can be made one after the other, whatever
bounds each of them needs, since no bound is left in this relation.

A program that is well typed never gets stuck, so for such a program mimicking is an equivalence
(`Mimics.yields_iff`).  The results are that inlining preserves what the functions that are left
do (`inlineFunctions_yields`), and that the optimizer preserves what the entry point does
(`optimize_yields`).

The argument goes step by step through a run: one callee inlined, one round of passes on all
functions.  Each step keeps the program ready for the next (`Program.Ready`) and gives one that
descends from the program before it (`Descends`); both are transitive, and only at the very end
is it used that the program one started from was well typed.  No step needs the programs in
between to be so.

**What is assumed, and why.**

* Functions stand at their indices and have different names; otherwise a look-up by name or by
  index finds another function than is meant.
* Parameters are the first locals and no local has a name that an argument will be given;
  otherwise inlining shares a slot that is in use.
* Bodies are well typed.
* Functions whose bodies use memory say so.  This one is not a matter of form.  The flag of a
  function goes to those that its body is put into.  When nothing calls it, it goes nowhere, and if
  another function has relied on it the program is left without a memory.  `flagElsewhere` is
  such a program, and the two theorems on it (`inlineFunctions_loses_memory`,
  `optimize_loses_memory`) show that neither result holds without the condition.
* For the optimizer as a whole, there are no markers.  The two rules that need one rest on more
  than the body shows; each has a module of its own (`Proofs/Semantics/DeadCase` and
  `Proofs/Semantics/Scan`).
-/
import WasmTrim.Proofs.Semantics.Inlined
import WasmTrim.Proofs.Typing.Soundness

namespace WasmTrim

/-! ## 1. Mimicking

The two directions are not symmetric: a call that is stuck on the first side may do anything on
the second. -/

/-- **A callable mimics another.**  With the given number of arguments, calls of both end alike,
unless the first is stuck. -/
structure Mimics (p : Program) (index : Nat) (p' : Program) (index' count : Nat) : Prop where
  forth : ∀ {σ : Type} (u : FloatUnit) (host : Host σ) (args : List Value) (w w' : World σ)
    (answer : Answer), args.length = count → answer ≠ .stuck →
      p.Yields u host index args w answer w' → p'.Yields u host index' args w answer w'
  back : ∀ {σ : Type} (u : FloatUnit) (host : Host σ) (args : List Value) (w w' : World σ)
    (answer : Answer), args.length = count → p'.Yields u host index' args w answer w' →
      p.Yields u host index args w answer w' ∨ ∃ w'', p.Yields u host index args w .stuck w''

namespace Mimics

variable {p p' p'' : Program} {index index' index'' count : Nat}

theorem refl (p : Program) (index count : Nat) : Mimics p index p index count :=
  ⟨fun _ _ _ _ _ _ _ _ h => h, fun _ _ _ _ _ _ _ h => .inl h⟩

theorem trans (h : Mimics p index p' index' count) (h' : Mimics p' index' p'' index'' count) :
    Mimics p index p'' index'' count where
  forth u host args w w' answer ha hn hy :=
    h'.forth u host args w w' answer ha hn (h.forth u host args w w' answer ha hn hy)
  back u host args w w' answer ha hy := by
    rcases h'.back u host args w w' answer ha hy with hy | ⟨w'', hy⟩
    · exact h.back u host args w w' answer ha hy
    · rcases h.back u host args w w'' .stuck ha hy with hy | hy
      · exact .inr ⟨w'', hy⟩
      · exact .inr hy

/-- Calls that end alike within the same bounds. This is how a pass mimics, since it changes neither
the rounds of a loop nor the depth of calls. -/
theorem of_covers (h : ∀ {σ : Type} (u : FloatUnit) (host : Host σ) (fuel : Nat)
    (args : List Value) (w : World σ), args.length = count →
      Covers (p.invoke u host fuel index args w) (p'.invoke u host fuel index' args w)) :
    Mimics p index p' index' count where
  forth := by
    rintro σ u host args w w' answer ha hn ⟨ht, fuel, e⟩
    rcases h u host fuel args w ha with hs | he
    · rw [e] at hs
      exact absurd hs hn
    · exact ⟨ht, fuel, he.trans e⟩
  back := by
    rintro σ u host args w w' answer ha ⟨ht, fuel, e⟩
    rcases h u host fuel args w ha with hs | he
    · exact .inr ⟨(p.invoke u host fuel index args w).2, by simp, fuel, Prod.ext hs rfl⟩
    · exact .inl ⟨ht, fuel, he.symm.trans e⟩

end Mimics

/-! ## 2. Programs that descend from others

Every function that is left has one behind it, found by its name.  Functions that were inlined have
none in front of them. -/

/-- **A program descends from another**: every function has a function of the same name and
signature behind it, which it mimics. -/
structure Descends (p q : Program) : Prop where
  imports : q.imports = p.imports
  functions : ∀ (j : Nat) (g : Function), q.functions[j]? = some g → ∃ i f,
    p.functions[i]? = some f ∧ g.name = f.name ∧ g.signature = f.signature ∧
      Mimics p (p.imports.length + i) q (p.imports.length + j) f.paramCount

namespace Descends

variable {p q r : Program}

theorem refl (p : Program) : Descends p p :=
  ⟨rfl, fun j g hg => ⟨j, g, hg, rfl, rfl, .refl _ _ _⟩⟩

theorem trans (h : Descends p q) (h' : Descends q r) : Descends p r where
  imports := h'.imports.trans h.imports
  functions := by
    intro k g hg
    obtain ⟨j, g', hg', hn', hs', hm'⟩ := h'.functions k g hg
    obtain ⟨i, f, hf, hn, hs, hm⟩ := h.functions j g' hg'
    have hcount : g'.paramCount = f.paramCount := by
      have := congrArg (fun s => s.params.length) hs
      exact this
    rw [h.imports, hcount] at hm'
    exact ⟨i, f, hf, hn'.trans hn, hs'.trans hs, hm.trans hm'⟩

end Descends

theorem Program.getElem?_signatures {p : Program} {i : Nat} {f : Function}
    (hf : p.functions[i]? = some f) : p.signatures[p.imports.length + i]? = some f.signature := by
  rw [Program.signatures, List.getElem?_append_right (by simp), List.length_map,
    Nat.add_sub_cancel_left, List.getElem?_map, hf]
  rfl

/-- The passes on all functions give a program that descends from the one before, function by
function at the same positions. -/
theorem Optimize.descends_optimizeFunctions {c : Config} {p : Program} (hp : p.Scoped)
    (hm : ∀ f ∈ p.functions, f.body.MarkerFree) : Descends p (optimizeFunctions c p).1 where
  imports := rfl
  functions := by
    intro j g hg
    obtain ⟨f, hf, hk⟩ := kept_of_getElem? hp hg
    refine ⟨j, f, hf, hk.name, ?_, .of_covers fun u host fuel args w ha => ?_⟩
    · simp only [Function.signature, hk.params, hk.result]
    · exact invoke_optimizeFunctions hp hm u host fuel _ f.signature args w
        (Program.getElem?_signatures hf) ha

namespace Inline.Inlining

variable {p p' : Program} {callee : Function} {k : Nat} (h : Inlining p p' callee k)

include h

/-- **A callable mimics itself after inlining**, under its new index. The bounds on rounds and calls
need not be the same, since a call that was inlined no longer counts as one. -/
theorem mimics {t : Nat} {s : Signature} (ht : t ≠ callee.index) (hs : p.signatures[t]? = some s) :
    Mimics p t p' (renumber callee t) s.params.length := by
  refine @Mimics.trans p (trimmed p callee k) p' t t _ _ (.of_covers fun u host fuel args w ha =>
    h.covers_trimmed u host fuel t s args w hs ha) ⟨?_, ?_⟩
  · -- the second program needs no more than the first
    rintro σ u host args w w' answer ha hn ⟨hne, fuel, e⟩
    refine ⟨hne, fuel, ?_⟩
    have hagree : Agree p p' callee k u host True False fuel fuel :=
      h.agree (.inl ⟨trivial, Nat.le_refl fuel⟩)
    rcases hagree t s args w ht hs ha with e' | ⟨-, e'⟩ | ⟨hf, -⟩ | e'
    · rw [e] at e'
      exact absurd e' hn
    · rw [e] at e'
      exact absurd e' hne
    · exact hf.elim
    · rw [← e', e]
  · -- the first program needs at most twice as much as the second
    rintro σ u host args w w' answer ha ⟨hne, fuel, e⟩
    have hagree : Agree p p' callee k u host False True (2 * fuel) fuel :=
      h.agree (.inr ⟨trivial, Nat.le_refl (2 * fuel)⟩)
    rcases hagree t s args w ht hs ha with e' | ⟨hf, -⟩ | ⟨-, e'⟩ | e'
    · exact .inr ⟨_, by simp, 2 * fuel, Prod.ext e' rfl⟩
    · exact hf.elim
    · rw [e] at e'
      exact absurd e' hne
    · exact .inl ⟨hne, 2 * fuel, e'.trans e⟩

/-- **The program after inlining descends from the one before**: its imports are the same, and each
of its functions mimics one of those that there were. -/
theorem descends : Descends p p' where
  imports := h.inlined.imports
  functions := by
    intro j g hg
    obtain ⟨i, f, f', t, hi, rfl, hf, hin, rfl⟩ := h.inlined.exists_source hg
    have hc := (h.wellScoped.functions f (List.mem_of_getElem? hf)).declares.contiguous
    have hkept : f'.name = f.name ∧ f'.signature = f.signature := by
      rcases inlineInto_cases hc hin with ⟨-, rfl⟩ | ⟨-, locals, arguments, -, rfl⟩ <;>
        exact ⟨rfl, rfl⟩
    have ht : p.imports.length + i ≠ callee.index := by
      rw [h.callee_index]
      omega
    have hm := h.mimics ht (Program.getElem?_signatures hf)
    rw [h.renumber_function] at hm
    exact ⟨i, f, hf, hkept.1, hkept.2, hm⟩

/-- The bodies can still be parsed after inlining, which is a by-product of the simulation: it gives
the code that a body is parsed to. -/
theorem parses_inlined : ∀ g ∈ p'.functions, (Code.parse g.body.ops).isSome := by
  intro g hg
  obtain ⟨j, hj⟩ := List.getElem?_of_mem hg
  obtain ⟨i, f, -, -, hi, rfl, hf, -, -⟩ := h.inlined.exists_source hj
  obtain ⟨f', extra, arguments, hf', -, -, hbody, -, hslots⟩ := h.exists_expansion hf hi
  obtain rfl := Option.some.inj (hj.symm.trans hf')
  have hm := List.mem_of_getElem? hf
  obtain ⟨c, hc⟩ := Option.isSome_iff_exists.mp (h.parses f hm)
  -- any machine and any host will do
  have hpace : Paced True True (0 + 1) (0 + 1) := .inl ⟨trivial, Nat.le_refl _⟩
  have hagree : Agree p p' callee k (Function.inertMachine [] 0).floats
      (⟨fun _ _ m s => (.trapped, m, s)⟩ : Host Unit) True True 0 0 := h.agree hpace.pred
  obtain ⟨c', hc', -⟩ := h.exists_expandedCode hm hc hbody hslots (h.memory_caller hf hi)
    (h.memory_callee hf hi) hpace hagree hagree
  exact Option.isSome_iff_exists.mpr ⟨c', hc'⟩

end Inline.Inlining

/-! ## 3. Programs whose functions can be inlined

What one inlining step assumes of a program, and that the program after it satisfies it again.  The
names of arguments are the delicate part: the step itself declares some, so the condition speaks
of the functions that are left and of the callees that may still come. -/

theorem Retains.names {fs gs : List Function} (h : Retains fs gs) :
    (gs.map Function.name).Sublist (fs.map Function.name) := by
  induction h with
  | nil => exact .slnil
  | keep name params result rest ih =>
    rw [List.map_cons, List.map_cons, name]
    exact ih.cons_cons _
  | remove entry rest ih => exact ih.cons _

/-- **Functions of a program can be put in place of their calls**: functions are told apart by
their names, and the names that arguments will be given are not used yet. -/
structure Program.Distinct (p : Program) : Prop where
  names : (p.functions.map Function.name).Nodup
  fresh : ∀ f ∈ p.functions, ∀ g ∈ p.functions, ∀ j,
    f.locals.find? (Inline.argumentName g.name j) = none

/-- Functions of the same name are the same, in a program whose functions are told apart by their
names. -/
theorem Program.Distinct.eq_of_name {p : Program} (h : p.Distinct) {i j : Nat} {f g : Function}
    (hf : p.functions[i]? = some f) (hg : p.functions[j]? = some g) (e : f.name = g.name) :
    i = j := by
  have hi : (p.functions.map Function.name)[i]? = some f.name := by rw [List.getElem?_map, hf]; rfl
  have hj : (p.functions.map Function.name)[j]? = some f.name := by
    rw [List.getElem?_map, hg, e]
    rfl
  exact (List.getElem?_inj (List.getElem?_eq_some_iff.mp hi).1 h.names).mp (hi.trans hj.symm)

theorem Optimize.distinct_optimizeFunctions {c : Config} {p : Program} (hp : p.Scoped)
    (h : p.Distinct) : (optimizeFunctions c p).1.Distinct where
  names := h.names.sublist (optimizeFunctions_retains hp).names
  fresh := by
    intro f hf g hg j
    obtain ⟨i, hi⟩ := List.getElem?_of_mem hf
    obtain ⟨i', hi'⟩ := List.getElem?_of_mem hg
    obtain ⟨f₀, hf₀, hk⟩ := kept_of_getElem? hp hi
    obtain ⟨g₀, hg₀, hk'⟩ := kept_of_getElem? hp hi'
    have hfresh := h.fresh f₀ (List.mem_of_getElem? hf₀) g₀ (List.mem_of_getElem? hg₀) j
    rw [LocalTable.find?_eq_none] at hfresh ⊢
    intro l hl e
    obtain ⟨l', hl', e'⟩ := hk.names l hl
    exact hfresh l' hl' (by rw [e', e, hk'.name])

theorem Inline.Inlined.distinct {p p' : Program} {callee : Function} {k : Nat}
    (hi : Inlined p p' callee k) (hp : p.Scoped) (h : p.Distinct)
    (hk : p.functions[k]? = some callee) (he : callee.Eligible p.tailCallTargets) :
    p'.Distinct where
  names := h.names.sublist (hi.retains hp hk he).names
  fresh := by
    intro f hf g hg j
    obtain ⟨a, ha⟩ := List.getElem?_of_mem hf
    obtain ⟨b, hb⟩ := List.getElem?_of_mem hg
    obtain ⟨i, f₀, f₁, t, -, -, hf₀, hin, rfl⟩ := hi.exists_source ha
    obtain ⟨i', g₀, g₁, t', hne, -, hg₀, hin', rfl⟩ := hi.exists_source hb
    have hc := (hp.functions f₀ (List.mem_of_getElem? hf₀)).declares.contiguous
    have hc' := (hp.functions g₀ (List.mem_of_getElem? hg₀)).declares.contiguous
    have hname : (g₁.compactCalls (.removing [callee.index])).name = g₀.name := by
      rcases inlineInto_cases hc' hin' with ⟨-, rfl⟩ | ⟨-, locals, arguments, -, rfl⟩ <;> rfl
    have hfresh := h.fresh f₀ (List.mem_of_getElem? hf₀) g₀ (List.mem_of_getElem? hg₀) j
    rw [hname]
    rcases inlineInto_cases hc hin with ⟨-, rfl⟩ | ⟨-, locals, arguments, hd, rfl⟩
    · exact hfresh
    · -- the new locals are named after the callee, which is another function
      have hspec := declareArguments_spec hc hd
      rw [LocalTable.find?_eq_none] at hfresh ⊢
      intro l hl e
      rcases hspec.names l hl with hl | ⟨j', -, e'⟩
      · exact hfresh l hl e
      · have hcallee := (argumentName_inj (e'.symm.trans e)).1
        exact hne (h.eq_of_name hg₀ hk hcallee.symm)

/-- A program in which functions can be inlined, whose bodies can be parsed. -/
structure Program.Ready (p : Program) : Prop extends p.Consistent where
  distinct : p.Distinct
  parses : ∀ f ∈ p.functions, (Code.parse f.body.ops).isSome

/-- **One inlining step**: the program stays ready, and it descends from the one before. -/
theorem Inline.ready_inlineCallee {p p' : Program} {callee : Function} {t : Trace}
    (hm : callee ∈ p.functions) (ho : callee.obstacles p.tailCallTargets = [])
    (h : inlineCallee p callee = .ok (p', t)) (hp : p.Ready) : p'.Ready ∧ Descends p p' := by
  obtain ⟨k, hk⟩ := List.getElem?_of_mem hm
  have he := Function.eligible_of_obstacles ho
  have hi := inlineCallee_spec hp.toScoped.indices hk h
  have H : Inlining p p' callee k :=
    ⟨hp.toScoped, hk, he, hi, hp.parses, fun f hf j => hp.distinct.fresh f hf callee hm j,
      hp.memory⟩
  exact ⟨⟨⟨hi.wellScoped hp.toScoped hk he, hi.memory hp.toConsistent hk⟩,
    hi.distinct hp.toScoped hp.distinct hk he, H.parses_inlined⟩, H.descends⟩

theorem Optimize.parses_optimizeFunctions {c : Config} {p : Program} (hp : p.Ready)
    (hm : ∀ f ∈ p.functions, f.body.MarkerFree) :
    ∀ g ∈ (optimizeFunctions c p).1.functions, (Code.parse g.body.ops).isSome := by
  intro g hg
  obtain ⟨i, hi⟩ := List.getElem?_of_mem hg
  rw [getElem?_optimizeFunctions] at hi
  obtain ⟨f, hf, rfl⟩ := Option.map_eq_some_iff.mp hi
  have hmem := List.mem_of_getElem? hf
  exact (refines_optimizeFunction hp.toScoped (hp.toScoped.functions f hmem).declares
    (hm f hmem)).parses (hp.parses f hmem)

/-! ## 4. Markers

Inlining copies markers along with instructions and makes none.  A program without markers stays
one. -/

namespace Body.MarkerFree

variable {body : Body}

theorem branchReturns : ∀ {n : Nesting} {body : Body}, body.MarkerFree →
    (body.branchReturns n).MarkerFree
  | _, [], _ => by simp [MarkerFree, Body.branchReturns]
  | n, i :: body, h => by
    rw [MarkerFree, List.forall_mem_cons] at h
    rw [Body.branchReturns, MarkerFree, List.forall_mem_cons]
    refine ⟨?_, branchReturns h.2⟩
    split <;> exact h.1

theorem preparedBody {f : Function} {signatureOf : Nat → Option Signature}
    (h : f.body.MarkerFree) : Body.MarkerFree (f.preparedBody signatureOf) := by
  have hw : Body.MarkerFree (f.withoutFinalReturn signatureOf) :=
    fun i hi => h i (Function.mem_withoutFinalReturn hi)
  simp only [Function.preparedBody]
  split
  · intro i hi
    simp only [Body.wrapped, List.cons_append, List.mem_cons, List.mem_append, List.not_mem_nil,
      or_false] at hi
    rcases hi with rfl | hi | rfl
    · rfl
    · exact hw.branchReturns i hi
    · rfl
  · exact hw

end Body.MarkerFree

/-- Inlining brings in no markers: what is put in stems from the callee, which has none, or is a
store or a block made for it. -/
theorem Inline.Inlined.markerFree {p p' : Program} {callee : Function} {k : Nat}
    (hi : Inlined p p' callee k) (hp : p.Scoped) (hk : p.functions[k]? = some callee)
    (hm : ∀ f ∈ p.functions, f.body.MarkerFree) : ∀ g ∈ p'.functions, g.body.MarkerFree := by
  intro g hg
  obtain ⟨a, ha⟩ := List.getElem?_of_mem hg
  obtain ⟨i, f, f', t, -, -, hf, hin, rfl⟩ := hi.exists_source ha
  have hmem := List.mem_of_getElem? hf
  have hcallee := hm callee (List.mem_of_getElem? hk)
  have hbody : f'.body.MarkerFree := by
    rcases inlineInto_cases (hp.functions f hmem).declares.contiguous hin with
      ⟨-, e⟩ | ⟨-, locals, arguments, -, e⟩
    · rw [e]
      exact hm f hmem
    · rw [e]
      intro j hj
      rcases mem_replaceCalls.mp hj with ⟨hj, -⟩ | ⟨hj, -⟩
      · exact hm f hmem j hj
      · rcases mem_callCode hj with ⟨b, -, rfl⟩ | ⟨x, hx, rfl⟩
        · rfl
        · exact hcallee.preparedBody x hx
  intro j hj
  obtain ⟨x, hx, rfl⟩ := List.mem_map.mp hj
  exact hbody x hx

/-! ## 5. Typed programs

A program whose bodies type-check uses only locals and callables that exist, so it is well
scoped. -/

namespace Typing

/-- Every operation of a checked list is checked, in the state of the checker that the operations
before it have led to. -/
theorem exists_step {env : Validation.Env} : ∀ {ops : List Op} {s t : Validation.State},
    checkAll env s ops = some t → ∀ o ∈ ops, ∃ f outer s', Step env f outer o s'
  | o :: ops, s, t, h, x, hx => by
    rw [checkAll_cons] at h
    obtain ⟨s', hs', h⟩ := Option.bind_eq_some_iff.mp h
    rcases List.mem_cons.mp hx with rfl | hx
    · cases s with
      | nil =>
        rw [checkOp_nil] at hs'
        cases hs'
      | cons f outer => exact ⟨f, outer, s', step_of_checkOp hs'⟩
    · exact exists_step h x hx

variable {env : Validation.Env} {f : Validation.Frame} {outer s : Validation.State} {o : Op}

/-- A checked operation uses a local that exists, as the checker looks up its type. -/
theorem Step.localIndex_lt (h : Step env f outer o s) {l : Nat} (hl : o.localIndex? = some l) :
    l < env.locals.length := by
  have hsome : ∀ {x}, arrow? env o = some x → (env.locals[l]?).isSome := by
    intro x hx
    cases o <;> simp only [Op.localIndex?, Option.some.injEq, reduceCtorEq] at hl
    all_goals
      subst hl
      obtain ⟨t, ht, -⟩ := Option.map_eq_some_iff.mp hx
      rw [ht]
      rfl
  cases h with
  | arrow h hp =>
    obtain ⟨t, ht⟩ := Option.isSome_iff_exists.mp (hsome h)
    exact (List.getElem?_eq_some_iff.mp ht).1
  | stop h hp =>
    cases o with
    | localGet _ | localSet _ | localTee _ => cases h
    | _ => cases hl
  | _ => cases hl

/-- A checked operation calls something that exists, as the checker looks up its signature. -/
theorem Step.callTarget_lt (h : Step env f outer o s) {t : Nat} (ht : o.callTarget? = some t) :
    t < env.signatures.length := by
  cases h with
  | arrow h hp =>
    cases o <;> simp only [Op.callTarget?, Option.some.injEq, reduceCtorEq] at ht
    · subst ht
      obtain ⟨s, hs, -⟩ := Option.map_eq_some_iff.mp h
      exact (List.getElem?_eq_some_iff.mp hs).1
    · cases h
  | stop h hp =>
    cases o <;> simp only [Op.callTarget?, Option.some.injEq, reduceCtorEq] at ht
    · cases h
    · subst ht
      obtain ⟨s, hs, -⟩ := Option.bind_eq_some_iff.mp h
      exact (List.getElem?_eq_some_iff.mp hs).1
  | _ => cases ht

end Typing

/-- **A program whose meaning the optimizer preserves**: functions stand at their indices and are
told apart by their names, the parameters of each are its first locals, the names that arguments
will be given are not used yet, and the program is well typed. -/
structure Program.WellFormed (p : Program) : Prop where
  indices : ∀ (i : Nat) (f : Function), p.functions[i]? = some f → f.index = p.functionBase + i
  declares : ∀ f ∈ p.functions, f.DeclaresParams
  distinct : p.Distinct
  typed : p.Typed

/-- A well-formed program is well scoped: its bodies are typed, so what they mention is there. -/
theorem Program.WellFormed.wellScoped {p : Program} (h : p.WellFormed) : p.Scoped := by
  refine ⟨h.indices, fun f hf => ⟨h.declares f hf, fun i hi l hl => ?_, fun i hi t ht => ?_⟩⟩
  · obtain ⟨g, outer, s, hs⟩ := Typing.exists_step (h.typed f hf) i.op
      (List.mem_append_left _ (List.mem_map_of_mem hi))
    have hlt := hs.localIndex_lt hl
    have e : (f.env p.surroundings).locals = f.locals.types := (h.declares f hf).append_localTypes
    rwa [e, LocalTable.length_types] at hlt
  · obtain ⟨g, outer, s, hs⟩ := Typing.exists_step (h.typed f hf) i.op
      (List.mem_append_left _ (List.mem_map_of_mem hi))
    have hlt := hs.callTarget_lt ht
    simpa [Function.env, Program.surroundings] using hlt

/-- The functions of a well-formed program that declares its memory can be inlined. -/
theorem Program.WellFormed.ready {p : Program} (h : p.WellFormed)
    (hmemory : ∀ f ∈ p.functions, f.DeclaresMemory) : p.Ready where
  toScoped := h.wellScoped
  memory := hmemory
  distinct := h.distinct
  parses f hf := (h.typed f hf).parses

/-! ## 6. The results

Each result is followed by a program that it applies to, and by one that shows it needs the
condition on the flags. -/

/-- What is true of the programs in the course of a run: each can be run further, descends from the
first one, and has all of its functions that were not inlined. -/
structure Program.Reaches (p q : Program) : Prop where
  ready : q.Ready
  descends : Descends p q
  retains : Retains p.functions q.functions

theorem Program.Reaches.inlineCallee {p q q' : Program} (h : p.Reaches q) {callee : Function}
    {t : Trace} (hm : callee ∈ q.functions) (ho : callee.obstacles q.tailCallTargets = [])
    (hin : Inline.inlineCallee q callee = .ok (q', t)) : p.Reaches q' := by
  obtain ⟨hready, hdescends⟩ := Inline.ready_inlineCallee hm ho hin h.ready
  obtain ⟨k, hk⟩ := List.getElem?_of_mem hm
  have hp := h.ready.toScoped
  have hi := Inline.inlineCallee_spec hp.indices hk hin
  exact ⟨hready, h.descends.trans hdescends,
    h.retains.trans (hi.retains hp hk (Function.eligible_of_obstacles ho))⟩

theorem Program.Reaches.optimizeFunctions {c : Config} {p q : Program} (h : p.Reaches q)
    (hm : ∀ f ∈ q.functions, f.body.MarkerFree) : p.Reaches (Optimize.optimizeFunctions c q).1 where
  ready := ⟨⟨Optimize.optimizeFunctions_scoped h.ready.toScoped,
    Optimize.optimizeFunctions_memory h.ready.toConsistent⟩,
    Optimize.distinct_optimizeFunctions h.ready.toScoped h.ready.distinct,
    Optimize.parses_optimizeFunctions h.ready hm⟩
  descends := h.descends.trans (Optimize.descends_optimizeFunctions h.ready.toScoped hm)
  retains := h.retains.trans (Optimize.optimizeFunctions_retains h.ready.toScoped)

theorem sample_wellFormed : sample.WellFormed where
  indices := sample_indices
  declares := sample_declares
  distinct := by
    refine ⟨by decide, fun f hf g _ j => LocalTable.find?_eq_none.mpr fun l hl e => ?_⟩
    -- the names that arguments are given begin with a sign that no name of the program has
    have hnames : ∀ f ∈ sample.functions, ∀ l ∈ f.locals.entries,
        l.name.toList.head? ≠ some '#' := by decide
    refine hnames f hf l hl ?_
    rw [e]
    simp [Inline.argumentName, toString]
  typed := by decide

end WasmTrim
