/-
# Inlining keeps a program well typed

A `return` at the end of the callee that does nothing may be left out, because the computed height
is that of the frame (`Typing.height_of_checkAll`): exactly the results are there.  What stands
for a call is then checked in three steps.  The stores take the arguments off the stack; a
`return` that leaves the block around the body takes what it took before
(`Typing.checkAll_branchReturns`); and a body without such a block stays inside of itself, so that
it needs none (`Typing.checkAll_unwrap`).  Together they leave what the call leaves
(`Inline.Inlining.checkAll_replacement`).

The code of the callee is typed in the surroundings of the callee and is to be typed in those of the
caller: its parameters are locals of the caller now, its calls have other numbers, and the labels
around it are others.  The locals come from the splice, which gives each argument a local of its
type; the calls from the renumbering of the functions; and the labels do not matter, as nothing in a
prepared body leaves it.

One thing does not come from the callee.  A caller that has taken in an access to memory needs a
memory, and has one only because the use of memory is handed on to it (`inline_functions`).  For
this every function that touches memory has to say so, in the program before
(`Function.DeclaresMemory`).
-/
import WasmTrim.Proofs.Semantics.Inlined
import WasmTrim.Proofs.Typing.Passes
import WasmTrim.Proofs.Typing.Soundness

namespace WasmTrim

open Validation

/-! ## 1. Heights

Height and frame are compared operation by operation here, for any frame that control reaches, and
so for a callee in the middle of anything (`stack_height`). -/

namespace Typing

/-- A frame that control reaches, with the given number of operands, which is what the computed
height is compared with. -/
structure HasHeight (height : Nat) (f : Frame) : Prop where
  reachable : f.unreachable = false
  length : f.operands.length = height

namespace HasHeight

variable {height : Nat} {f f' : Frame}

theorem popAny (h : HasHeight height f) {o : Operand} (hp : f.popAny = some (o, f')) :
    HasHeight (height - 1) f' := by
  obtain ⟨kind, type, os, u⟩ := f
  obtain ⟨rfl, rfl⟩ := h
  cases os with
  | nil => cases hp
  | cons x os =>
    obtain ⟨-, rfl⟩ := Prod.mk.inj (Option.some.inj hp)
    exact ⟨rfl, rfl⟩

theorem pop (h : HasHeight height f) {t : OperandType} (hp : f.pop t = some f') :
    HasHeight (height - 1) f' := by
  obtain ⟨o, ho, -⟩ := pop_eq_some.mp hp
  exact h.popAny ho

theorem popAll (h : HasHeight height f) {ts : List OperandType} (hp : f.popAll ts = some f') :
    HasHeight (height - ts.length) f' := by
  induction ts generalizing f' with
  | nil =>
    obtain rfl := Option.some.inj hp
    exact h
  | cons t ts ih =>
    rw [popAll_cons] at hp
    obtain ⟨f₁, h₁, hp⟩ := Option.bind_eq_some_iff.mp hp
    exact (ih h₁).pop hp

theorem pushAll (h : HasHeight height f) (ts : List OperandType) :
    HasHeight (height + ts.length) (f.pushAll ts) := by
  induction ts generalizing height f with
  | nil => exact h
  | cons t ts ih =>
    have hpush : HasHeight (height + 1) (f.push t) := ⟨h.reachable, congrArg (· + 1) h.length⟩
    have := ih hpush
    rwa [Nat.add_assoc, Nat.add_comm 1, ← List.length_cons (a := t)] at this

end HasHeight

theorem length_regionCondition (kind : RegionKind) :
    (regionCondition kind).length = kind.operandCount := by
  cases kind <;> rfl

variable {env : Env} {f f' : Frame} {outer s : Validation.State}

/-- An operation with a fixed effect changes the height by it. -/
theorem height_of_step {height pops pushes : Nat} {o : Op} (h : HasHeight height f)
    (hs : Step env f outer o s)
    (he : (∃ t x, o = .call t ∧ env.signatures[t]? = some x ∧ pops = x.params.length ∧
        pushes = x.result.arity) ∨ o.stackEffect? = some (pops, pushes)) :
    ∃ f', s = f' :: outer ∧ HasHeight (height - pops + pushes) f' := by
  cases hs with
  | @arrow _ takes leaves f' ha hp =>
    refine ⟨_, rfl, ?_⟩
    have hcounts : takes.length = pops ∧ leaves.length = pushes := by
      rcases he with ⟨t, x, rfl, hx, rfl, rfl⟩ | he
      · simp only [arrow?, hx, Option.map_some, Option.some.injEq, Prod.mk.injEq] at ha
        obtain ⟨rfl, rfl⟩ := ha
        exact ⟨rfl, rfl⟩
      · have hc : ∀ t, o ≠ .call t := by
          rintro t rfl
          cases he
        have := stackEffect?_of_arrow? ha hc
        rw [he] at this
        obtain ⟨rfl, rfl⟩ := Prod.mk.inj (Option.some.inj this)
        exact ⟨rfl, rfl⟩
    have := (h.popAll hp).pushAll (operandTypes leaves)
    rwa [length_operandTypes, length_operandTypes, hcounts.1, hcounts.2] at this
  | stop ha _ =>
    rcases he with ⟨t, x, rfl, -⟩ | he
    · cases ha
    · cases o with
      | unreachable | br | ret | returnCall | throwTag | rethrow => cases he
      | _ => cases ha
  | drop hp =>
    rcases he with ⟨t, x, e, -⟩ | he
    · cases e
    · obtain ⟨rfl, rfl⟩ := Prod.mk.inj (Option.some.inj he)
      exact ⟨_, rfl, h.popAny hp⟩
  | select hc ha hb hj =>
    rcases he with ⟨t, x, e, -⟩ | he
    · cases e
    · obtain ⟨rfl, rfl⟩ := Prod.mk.inj (Option.some.inj he)
      have h₃ := ((h.pop hc).popAny ha).popAny hb
      exact ⟨_, rfl, h₃.reachable, congrArg (· + 1) h₃.length⟩
  | brIf | brTable | enter | elseArm | catchTag | catchAll | close | delegate =>
    rcases he with ⟨t, x, e, -⟩ | he
    · cases e
    · cases he

/-- **The computed height is that of the frame.** The count and the checker go through the code side
by side; where the count jumps over a region, the checker leaves what the block type says. -/
theorem height_of_checkAll {signatureOf : Nat → Option Signature}
    (hsignature : ∀ t, signatureOf t = env.signatures[t]?) : ∀ {c : Code}, c.WellFormed →
    ∀ {f f' : Frame} {height height' : Nat}, HasHeight height f →
      Body.heightFrom signatureOf height (c.ops.map Op.plain) = some height' →
      checkAll env (f :: outer) c.ops = some (f' :: outer) → HasHeight height' f'
  | .done, _, f, f', height, height', h, hh, hs => by
    obtain ⟨rfl, -⟩ := List.cons.inj (Option.some.inj hs)
    rw [Code.ops, List.map_nil, Body.heightFrom] at hh
    exact Option.some.inj hh ▸ h
  | .op o rest, hwf, f, f', height, height', h, hh, hs => by
    rw [Code.WellFormed] at hwf
    rw [Code.ops, List.map_cons] at hh
    obtain ⟨pops, pushes, next, hshift, hrest, hcase⟩ := Body.heightFrom_cons_plain hwf.1 hh
    obtain ⟨-, rfl⟩ := shiftHeight_eq_some hshift
    obtain ⟨t, ht, hs⟩ := checkAll_cons_iff.mp hs
    simp only [hsignature] at hcase
    obtain ⟨f₁, rfl, h₁⟩ := height_of_step h (step_of_checkOp ht) hcase
    exact height_of_checkAll hsignature hwf.2 h₁ hrest hs
  | .region kind result body arms rest, hwf, f, f', height, height', h, hh, hs => by
    obtain ⟨g, -, hg, -, -, -, hs⟩ := checkAll_region hwf hs
    replace hh := Code.heightFrom_region hwf hh
    rw [Code.WellFormed] at hwf
    have hnext := (h.popAll hg).pushAll (operandTypes result.types)
    rw [length_regionCondition, length_operandTypes] at hnext
    exact height_of_checkAll hsignature hwf.2.2.2 hnext hh hs

/-- **A `return` that finds as many operands as there are results** finds the results, and nothing
else. -/
theorem HasHeight.isComplete (env : Env) {x : Frame} (h : HasHeight env.result.arity x)
    (ha : Alike (.enter .block ⟨[], env.results⟩) x)
    (hret : checkOp env (x :: outer) .ret = some s) : x.isComplete := by
  rw [checkOp_of_hasStop rfl] at hret
  obtain ⟨takes, htakes, hret⟩ := Option.bind_eq_some_iff.mp hret
  obtain rfl := Option.some.inj htakes
  obtain ⟨x', hx', -⟩ := Option.bind_eq_some_iff.mp hret
  have hnone : x'.operands = [] := by
    have hlength := (h.popAll hx').length
    rw [length_results] at hlength
    exact List.eq_nil_of_length_eq_zero (hlength.trans (Nat.sub_self _))
  have e : x.type.leaves = env.results := congrArg RegionType.leaves ha.type
  simp only [Frame.isComplete, e, hx', Option.any_some, hnone, List.isEmpty_nil]

end Typing

/-! ## 2. The callee without its last return

If exactly the results are on the stack, a `return` takes them off as the end of the function would,
and may be left out. -/

/-- **A last `return` that does nothing may be left out** of a well typed function. Where the
`return` was accepted with exactly the results on the stack, the end of the function is accepted
too. -/
theorem Function.Typed.withoutFinalReturn {s : Surroundings} {f : Function} (h : f.Typed s)
    {signatureOf : Nat → Option Signature} (hsignature : ∀ t, signatureOf t = s.signatures[t]?) :
    Function.Typed s { f with body := f.withoutFinalReturn signatureOf } := by
  unfold Function.withoutFinalReturn
  split
  · rename_i hlast
    obtain ⟨hret, hheight⟩ := hlast
    obtain ⟨c, hc⟩ := Option.isSome_iff_exists.mp h.parses
    obtain ⟨hops, hwf⟩ := Code.ops_of_parse hc
    have hbody := Body.ops_of_getLast? hret
    obtain ⟨d, hd, hdops, -⟩ := Code.exists_append_of_ops (o := .ret) rfl hwf (hops.trans hbody)
    obtain ⟨last, hall, -, -⟩ := Typing.exists_last h
    rw [hbody, Typing.checkAll_append] at hall
    obtain ⟨u, hu, hall⟩ := Option.bind_eq_some_iff.mp hall
    rw [← hdops] at hu
    obtain ⟨x, rfl, halike⟩ := Typing.checkAll_code hd hu
    have hempty : Typing.HasHeight 0 (.enter .block ⟨[], (f.env s).results⟩) := ⟨rfl, rfl⟩
    have hx : Typing.HasHeight f.result.arity x := by
      refine Typing.height_of_checkAll hsignature hd hempty ?_ hu
      rw [hdops, Body.heightFrom_ops]
      exact hheight
    rw [Typing.checkAll_singleton] at hall
    have hcomplete : x.isComplete := Typing.HasHeight.isComplete (f.env s) hx halike hall
    refine Typing.typed_of_last (hdops ▸ hu) (Bool.and_eq_true_iff.mpr ⟨hcomplete, ?_⟩)
    rw [halike.kind]
    rfl
  · exact h

/-! ## 3. The prepared body

Either the body leaves the function early and is wrapped in a block to which its `return`s branch,
or it does not and is used as it is (`prepare_body`).  The first form is typed because the label of
the block takes what the function returns, the second because it would be typed in such a block and
does not need it. -/

namespace Typing

variable {env : Env} {g : Frame} {outer : Validation.State}

/-- The outermost label is that of the function, and takes the results of the function. -/
theorem Follows.exists_base {results : List OperandType} {n : Nesting} {s : Validation.State}
    (h : Follows results n s) : ∃ base, s[n.length]? = some base ∧ base.labelTypes = results := by
  induction h with
  | base h => exact ⟨_, rfl, h⟩
  | cons _ _ ih => exact ih

/-- **A branch past all regions takes what a `return` takes.** With a block around the body that
leaves the results of the function, the label of the block is the one past all regions of the body.
-/
theorem checkAll_branchReturns : ∀ {body : Body} {n : Nesting} {s t : Validation.State},
    Follows env.results n s → checkAll env s body.ops = some t → t ≠ [] →
      checkAll env s (Body.ops (body.branchReturns n)) = some t
  | [], _, _, _, _, h, _ => h
  | i :: body, n, s, t, hf, h, ht => by
    obtain ⟨u, hu, hbody⟩ := checkAll_cons_iff.mp h
    obtain ⟨f, outer, rfl⟩ := List.exists_cons_of_ne_nil hf.ne_nil
    have hnext := hf.step (step_of_checkOp hu) (ne_nil_of_checkAll hbody ht)
    refine checkAll_cons_iff.mpr ⟨u, ?_, checkAll_branchReturns hnext hbody ht⟩
    split
    · rename_i hret
      obtain ⟨base, hbase, hlabel⟩ := hf.exists_base
      rw [hret, checkOp_of_hasStop rfl] at hu
      rw [checkOp_of_hasStop rfl, ← hu]
      simp only [stops?, Nesting.depth, hbase, Option.map_some, hlabel]
    · exact hu

/-- **A typed body in a block** leaves its results, in any frame: the block takes nothing from the
frame around it. -/
theorem checkAll_block {ops : List Op} {last : Frame}
    (h : checkAll env (start env) ops = some [last]) (hc : last.isClosable)
    (ha : Alike (.enter .block ⟨[], env.results⟩) last) :
    checkAll env (g :: outer) (.enter .block env.result :: (ops ++ [.close]))
      = some (g.pushAll env.results :: outer) := by
  have henter : checkOp env (g :: outer) (.enter .block env.result)
      = some (start env ++ (g :: outer)) := checkOp_of_step (.enter rfl)
  have hbody := checkAll_append_frames h (List.cons_ne_nil _ _) (g :: outer)
  have hclose : checkOp env ([last] ++ (g :: outer)) .close
      = some (g.pushAll env.results :: outer) := by
    have hstep : Step env last (g :: outer) .close (leave last (g :: outer)) := .close hc
    rw [leave, ha.type] at hstep
    exact checkOp_of_step hstep
  rw [checkAll_cons, henter, Option.bind_some, checkAll_append, hbody, Option.bind_some,
    checkAll_singleton, hclose]

/-- A body that does not leave the function stays inside. -/
theorem confined_of_exitsEarly {body : Body} {c : Code} (hwf : c.WellFormed)
    (hops : c.ops = body.ops) (h : body.exitsEarly [] = false)
    (hx : ∀ o ∈ body.ops, o.isException = false) : Confined 0 c.ops := by
  have hdepth := depthFrom_code hwf 0 []
  rw [List.append_nil] at hdepth
  refine confined_of_depthFrom (by rw [hdepth]; rfl) (fun o ho label e => ?_)
    fun before o after e label hl m hm => ?_
  · subst e
    exact Bool.noConfusion (hx _ (hops ▸ ho))
  · have ho : o ∈ body.ops := hops ▸ e ▸ List.mem_append_right _ List.mem_cons_self
    have hleaves := Inline.leaves_of_exitsEarly h (hops.symm.trans e)
    rw [length_observeAll (n := []) hm] at hleaves
    exact Inline.lt_of_leaves hleaves (hx o ho) hl

end Typing

theorem Body.ret_notMem_branchReturns : ∀ (n : Nesting) (body : Body),
    .ret ∉ Body.ops (body.branchReturns n)
  | _, [] => List.not_mem_nil
  | n, i :: body => by
    rw [branchReturns, Body.ops_cons, List.mem_cons, not_or]
    refine ⟨?_, ret_notMem_branchReturns (n.observe i.op) body⟩
    split
    · intro e
      cases e
    · rename_i hne
      exact Ne.symm hne

theorem Function.ret_notMem_preparedBody (signatureOf : Nat → Option Signature) (f : Function) :
    .ret ∉ Body.ops (f.preparedBody signatureOf) := by
  simp only [preparedBody]
  split
  · simp [Body.wrapped, Body.ret_notMem_branchReturns]
  · rename_i hexits
    intro hret
    obtain ⟨before, after, e⟩ := List.append_of_mem hret
    have hleaves := Inline.leaves_of_exitsEarly (by simpa using hexits) e
    cases hleaves

/-- **The prepared body of a function leaves its results**, wherever it stands, with or without the
block around it. Frames may come out looser than the call would leave them. -/
theorem Function.Typed.checkAll_preparedBody {s : Surroundings} {f : Function} (h : f.Typed s)
    {signatureOf : Nat → Option Signature} (hsignature : ∀ t, signatureOf t = s.signatures[t]?)
    (hx : ∀ i ∈ f.body, i.op.isException = false) (g : Frame) (outer : Validation.State) :
    ∃ t, Typing.checkAll (f.env s) (g :: outer) (Body.ops (f.preparedBody signatureOf)) = some t ∧
      Typing.LooserState (g.pushAll (f.env s).results :: outer) t := by
  have htrimmed := h.withoutFinalReturn hsignature
  obtain ⟨last, hlast, hclosable, halike⟩ : ∃ last, Typing.checkAll (f.env s) (start (f.env s))
      (Body.ops (f.withoutFinalReturn signatureOf)) = some [last] ∧ last.isClosable ∧
        Typing.Alike (.enter .block ⟨[], (f.env s).results⟩) last := Typing.exists_last htrimmed
  simp only [preparedBody]
  split
  · have hbranch := Typing.checkAll_branchReturns (Typing.follows_start _) hlast
      (List.cons_ne_nil _ _)
    refine ⟨_, ?_, .refl _⟩
    have hblock := @Typing.checkAll_block _ g outer _ _ hbranch hclosable halike
    rw [← hblock]
    simp only [Body.wrapped, List.cons_append, Body.ops_cons, Body.ops_append, Body.ops_nil,
      Op.op_plain]
    rfl
  · rename_i hexits
    obtain ⟨c, hc⟩ := Option.isSome_iff_exists.mp htrimmed.parses
    obtain ⟨hops, hwf⟩ := Code.ops_of_parse hc
    have hblock := @Typing.checkAll_block _ g outer _ _ hlast hclosable halike
    have hconfined := Typing.confined_of_exitsEarly hwf hops (by simpa using hexits)
      fun o ho => ?_
    · rw [← hops] at hblock
      have := Typing.checkAll_unwrap hwf hconfined hblock
      rwa [hops] at this
    · obtain ⟨i, hi, rfl⟩ := Body.mem_ops.mp ho
      exact hx i (mem_withoutFinalReturn hi)

/-! ## 4. The code in place of a call

Stores, and behind them the prepared body.  What a call takes off the stack the stores take, one
argument after the other from the last one on, and what it leaves the body leaves. -/

/-- **Stores take the arguments off the stack**, if they are stored in locals of their types. The
last argument is stored first, as it is on top. -/
theorem Typing.checkAll_stores {env : Env} {outer : Validation.State} : ∀ {arguments : List Nat}
    {ts : List ValueType}, (arguments.map fun a => env.locals[a]?) = ts.map some →
    ∀ {f f' : Frame}, f.popAll (operandTypes ts) = some f' →
      checkAll env (f :: outer) (arguments.reverse.map Op.localSet) = some (f' :: outer)
  | [], [], _, f, f', hp => by
    obtain rfl := Option.some.inj hp
    rfl
  | [], _ :: _, h, _, _, _ => by cases h
  | _ :: _, [], h, _, _, _ => by cases h
  | a :: arguments, t :: ts, h, f, f', hp => by
    obtain ⟨ha, h⟩ := List.cons.inj h
    rw [operandTypes, List.map_cons, popAll_cons] at hp
    obtain ⟨f₁, h₁, hp⟩ := Option.bind_eq_some_iff.mp hp
    rw [List.reverse_cons, List.map_append, checkAll_append, checkAll_stores h h₁,
      Option.bind_some, List.map_singleton, checkAll_singleton]
    exact checkOp_localSet.mpr ⟨t, f', ha, hp, rfl⟩

/-- A program that has to declare its memory has one. -/
theorem Program.usesMemory_of_mem {p : Program} (hp : ∀ f ∈ p.functions, f.DeclaresMemory)
    {f : Function} (hf : f ∈ p.functions) {o : Op} (ho : o ∈ f.body.ops) (hm : o.touchesMemory) :
    p.usesMemory = true := by
  obtain ⟨i, hi, rfl⟩ := Body.mem_ops.mp ho
  exact List.any_eq_true.mpr ⟨f, hf, hp f hf i hi hm⟩

namespace Inline

/-- What an operation of a caller becomes: a call of the callee is replaced by the stores of its
arguments and the prepared body, and everything else is only renumbered. -/
def replacement (p : Program) (callee : Function) (arguments : List Nat) (o : Op) : List Op :=
  if o = .call callee.index then
    arguments.reverse.map Op.localSet ++
      (Body.ops (callee.preparedBody p.signatureAt?)).map fun o =>
        (o.mapLocal (renameLocal arguments)).mapCall (renumber callee)
  else [o.mapCall (renumber callee)]

theorem ops_replaceCalls (p : Program) (callee : Function) (arguments : List Nat) (body : Body) :
    Body.ops ((replaceCalls callee.index
        (callCode (callee.preparedBody p.signatureAt?) arguments) body).map
          (Instr.mapCall (renumber callee)))
      = body.ops.flatMap (replacement p callee arguments) := by
  induction body with
  | nil => rfl
  | cons i body ih =>
    rw [Body.ops_cons, List.flatMap_cons, ← ih]
    simp only [replaceCalls, List.flatMap_cons, List.map_append, Body.ops_append]
    refine congrArg (· ++ _) ?_
    unfold replacement
    split
    · simp only [callCode, storeArguments, Body.ops, List.map_append, List.map_map]
      rfl
    · rfl

namespace Inlining

variable {p p' : Program} {callee : Function} {k : Nat} (h : Inlining p p' callee k)

include h

/-- The locals of a caller: those it had, and one for each argument. -/
theorem exists_arguments {i : Nat} {f : Function} (hf : p.functions[i]? = some f) (hi : i ≠ k) :
    ∃ g arguments more, p'.functions[Inlined.position k i]? = some g ∧ g.result = f.result ∧
      g.body.ops = f.body.ops.flatMap (replacement p callee arguments) ∧
      g.params ++ g.localTypes = f.locals.types ++ more ∧
      (.call callee.index ∈ f.body.ops →
        (arguments.map fun a => (g.params ++ g.localTypes)[a]?) = callee.params.map some) := by
  obtain ⟨f', t, hin, hf'⟩ := h.inlined.getElem? hf hi
  have hm := List.mem_of_getElem? hf
  have hd := (h.wellScoped.functions f hm).declares
  rcases inlineInto_cases hd.contiguous hin with ⟨hn, rfl⟩ | ⟨-, locals, arguments, hdecl, rfl⟩
  · refine ⟨_, [], [], hf', rfl, ?_, ?_, fun hc => ?_⟩
    · rw [← ops_replaceCalls, replaceCalls_of_notMem hn]
      rfl
    · rw [List.append_nil, ← hd.append_localTypes]
      rfl
    · obtain ⟨j, hj, e⟩ := Body.mem_ops.mp hc
      exact absurd e (hn j hj)
  · have hspec := declareArguments_spec hd.contiguous hdecl
    obtain ⟨htypes, hargs⟩ := declareArguments_fresh hd.contiguous (h.fresh f hm) hdecl
    have hd' : Function.DeclaresParams { f with
        body := replaceCalls callee.index
          (callCode (callee.preparedBody p.signatureAt?) arguments) f.body
        locals := locals
        usesMemory := f.usesMemory || callee.usesMemory } :=
      ⟨hspec.contiguous, hd.params.trans hspec.longer⟩
    have e : f.params ++ Function.localTypes { f with
        body := replaceCalls callee.index
          (callCode (callee.preparedBody p.signatureAt?) arguments) f.body
        locals := locals
        usesMemory := f.usesMemory || callee.usesMemory }
          = f.locals.types ++ callee.params.reverse := hd'.append_localTypes.trans htypes
    refine ⟨_, arguments, callee.params.reverse, hf', rfl, ?_, e, fun _ => ?_⟩
    · rw [← ops_replaceCalls]
      rfl
    · refine Eq.trans (congrArg (fun l : List ValueType => arguments.map fun a => l[a]?) e) ?_
      rw [hargs, List.map_map]
      refine List.ext_getElem? fun j => ?_
      rw [List.getElem?_map, List.getElem?_map]
      by_cases hj : j < callee.params.length
      · rw [List.getElem?_reverse (by simpa using hj), List.length_range,
          List.getElem?_range (by omega), Option.map_some, List.getElem?_eq_getElem hj,
          Option.map_some, Function.comp_apply,
          List.getElem?_append_right (by rw [LocalTable.length_types]; omega),
          LocalTable.length_types, Nat.add_sub_cancel_left, List.getElem?_reverse (by omega),
          show callee.params.length - 1 - (callee.params.length - 1 - j) = j by omega,
          List.getElem?_eq_getElem hj]
      · rw [List.getElem?_eq_none (by simpa using hj), List.getElem?_eq_none (by omega)]
        rfl

/-- What is not a call of the callee has the same signature as before. -/
theorem getElem?_renumber {f : Function} (hf : f ∈ p.functions) {o : Op} (ho : o ∈ f.body.ops)
    (hcall : o ≠ .call callee.index) {t : Nat} (ht : o.callTarget? = some t) :
    p'.signatures[renumber callee t]? = p.signatures[t]? := by
  have hne : t ≠ callee.index := by
    rintro rfl
    exact h.callTarget?_ne hf ho hcall ht
  obtain ⟨i, hi, rfl⟩ := Body.mem_ops.mp ho
  have hlt : t < p.signatures.length := by
    have := (h.wellScoped.functions f hf).calls i hi t ht
    simpa [Program.signatures] using this
  rw [List.getElem?_eq_getElem hlt]
  exact h.signatures_renumber hne (List.getElem?_eq_getElem hlt)

/-- Nothing in a prepared body returns from the function around it. -/
theorem returns_preparedBody {o : Op} (ho : o ∈ Body.ops (callee.preparedBody p.signatureAt?)) :
    o.returns = false := by
  have hret : o ≠ .ret := by
    rintro rfl
    exact callee.ret_notMem_preparedBody _ ho
  obtain ⟨i, hi, rfl⟩ := Body.mem_ops.mp ho
  rcases Function.mem_preparedBody hi with hi | e | e | ⟨label, e⟩
  · have htail := h.eligible.noTailCall i hi
    cases hop : i.op with
    | ret => exact absurd hop hret
    | returnCall _ =>
      rw [hop] at htail
      cases htail
    | _ => rfl
  all_goals
    rw [e]
    rfl

variable {f g : Function} {arguments : List Nat}

/-- The operations of the callee mean the same in a caller. -/
theorem renamed_preparedBody (hmemory' : ∀ f ∈ p'.functions, f.DeclaresMemory)
    (hg : g ∈ p'.functions)
    (hbody : g.body.ops = f.body.ops.flatMap (replacement p callee arguments))
    (hcall : .call callee.index ∈ f.body.ops)
    (hargs : (arguments.map fun a => (g.params ++ g.localTypes)[a]?) = callee.params.map some)
    {o : Op} (ho : o ∈ Body.ops (callee.preparedBody p.signatureAt?)) :
    Typing.Renamed (callee.env p.surroundings) (g.env p'.surroundings) (renameLocal arguments)
      (renumber callee) o := by
  obtain ⟨i, hi, rfl⟩ := Body.mem_ops.mp ho
  have hsource := Function.mem_preparedBody hi
  have hcallee := h.wellScoped.functions callee h.callee_mem
  refine ⟨fun l hl => ?_, fun t ht => ?_, fun hm => ?_, h.inlined.globals, h.inlined.tags,
    fun hr => ?_⟩
  · rcases hsource with hi | e | e | ⟨label, e⟩
    · have hlt : l < callee.params.length := by
        have := hcallee.locals i hi l hl
        rwa [h.eligible.size] at this
      have hlength : arguments.length = callee.params.length := by
        simpa using congrArg List.length hargs
      have hat := congrArg (·[l]?) hargs
      simp only [List.getElem?_map, List.getElem?_eq_getElem hlt, Option.map_some] at hat
      obtain ⟨a, ha, hat⟩ := Option.map_eq_some_iff.mp hat
      simp only [renameLocal, ha, Option.getD_some, Function.env, h.localTypes_callee,
        List.append_nil, List.getElem?_eq_getElem hlt]
      exact hat
    all_goals
      rw [e] at hl
      cases hl
  · rcases hsource with hi | e | e | ⟨label, e⟩
    · exact h.getElem?_renumber h.callee_mem (Body.mem_ops.mpr ⟨i, hi, rfl⟩)
        (h.eligible.notSelf i hi) ht
    all_goals
      rw [e] at ht
      cases ht
  · have hi' : i ∈ callee.body := by
      rcases hsource with hi | e | e | ⟨label, e⟩
      · exact hi
      all_goals
        rw [e] at hm
        cases hm
    have hp : p.usesMemory = true :=
      Program.usesMemory_of_mem h.memory h.callee_mem (Body.mem_ops.mpr ⟨i, hi', rfl⟩) hm
    have hp' : p'.usesMemory = true := by
      refine Program.usesMemory_of_mem hmemory' hg
        (o := (i.op.mapLocal (renameLocal arguments)).mapCall (renumber callee)) ?_ ?_
      · rw [hbody]
        refine List.mem_flatMap.mpr ⟨_, hcall, ?_⟩
        rw [replacement, if_pos rfl]
        exact List.mem_append_right _ (List.mem_map.mpr ⟨_, ho, rfl⟩)
      · revert hm
        cases i.op <;> exact id
    exact hp'.trans hp.symm
  · rw [h.returns_preparedBody ho] at hr
    cases hr

/-- The other operations of a caller mean what they meant. -/
theorem renamed_caller (hmemory' : ∀ f ∈ p'.functions, f.DeclaresMemory) (hf : f ∈ p.functions)
    (hg : g ∈ p'.functions) (hresult : g.result = f.result)
    (hbody : g.body.ops = f.body.ops.flatMap (replacement p callee arguments))
    {more : List ValueType} (hlocals : g.params ++ g.localTypes = f.locals.types ++ more)
    {o : Op} (ho : o ∈ f.body.ops) (hcall : o ≠ .call callee.index) :
    Typing.Renamed (f.env p.surroundings) (g.env p'.surroundings) (fun l => l)
      (renumber callee) o := by
  have hscoped := h.wellScoped.functions f hf
  refine ⟨fun l hl => ?_, fun t ht => h.getElem?_renumber hf ho hcall ht, fun hm => ?_,
    h.inlined.globals, h.inlined.tags, fun _ => hresult⟩
  · obtain ⟨i, hi, rfl⟩ := Body.mem_ops.mp ho
    have hlt := hscoped.locals i hi l hl
    simp only [Function.env, hlocals, hscoped.declares.append_localTypes]
    exact List.getElem?_append_left (by rwa [LocalTable.length_types])
  · have hp : p.usesMemory = true := Program.usesMemory_of_mem h.memory hf ho hm
    have hp' : p'.usesMemory = true := by
      refine Program.usesMemory_of_mem hmemory' hg (o := o.mapCall (renumber callee)) ?_ ?_
      · rw [hbody]
        refine List.mem_flatMap.mpr ⟨_, ho, ?_⟩
        rw [replacement, if_neg hcall]
        exact List.mem_cons_self
      · revert hm
        cases o <;> exact id
    exact hp'.trans hp.symm

/-- **What stands for an operation of a caller** is checked as the operation was. A call of the
callee becomes stores and the prepared body, and any other operation is only renumbered. -/
theorem checkAll_replacement (ht : p.Typed)
    (hmemory' : ∀ f ∈ p'.functions, f.DeclaresMemory) (hf : f ∈ p.functions)
    (hg : g ∈ p'.functions) (hresult : g.result = f.result)
    (hbody : g.body.ops = f.body.ops.flatMap (replacement p callee arguments))
    {more : List ValueType} (hlocals : g.params ++ g.localTypes = f.locals.types ++ more)
    (hargs : .call callee.index ∈ f.body.ops →
      (arguments.map fun a => (g.params ++ g.localTypes)[a]?) = callee.params.map some)
    {o : Op} (ho : o ∈ f.body.ops) {u v : Validation.State}
    (hu : Typing.checkOp (f.env p.surroundings) u o = some v) :
    ∃ v', Typing.checkAll (g.env p'.surroundings) u (replacement p callee arguments o) = some v' ∧
      Typing.LooserState v v' := by
  by_cases hcall : o = .call callee.index
  · subst hcall
    rcases u with _ | ⟨x, outer⟩
    · rw [Typing.checkOp_nil] at hu
      cases hu
    have hsignature : (f.env p.surroundings).signatures[callee.index]? = some callee.signature := by
      have hs := h.signatures_callee
      rw [h.signatures_trimmed] at hs
      exact hs
    rw [Typing.checkOp_of_hasArrow rfl] at hu
    simp only [Typing.arrow?, hsignature, Option.map_some, Option.bind_some] at hu
    obtain ⟨x', hp, hu⟩ := Option.bind_eq_some_iff.mp hu
    obtain rfl := Option.some.inj hu
    obtain ⟨v', hv', hl⟩ := (ht callee h.callee_mem).checkAll_preparedBody
      h.wellScoped.signatureAt? h.eligible.noException x' outer
    refine ⟨v', ?_, hl⟩
    rw [replacement, if_pos rfl, Typing.checkAll_append,
      Typing.checkAll_stores (hargs ho) hp, Option.bind_some, ← hv']
    exact Typing.checkAll_renamed _ fun o ho' =>
      h.renamed_preparedBody hmemory' hg hbody ho (hargs ho) ho'
  · have hrenamed := h.renamed_caller hmemory' hf hg hresult hbody hlocals ho hcall
    refine ⟨v, ?_, .refl v⟩
    rw [replacement, if_neg hcall, Typing.checkAll_singleton, ← hu, ← hrenamed.checkOp,
      Op.mapLocal_id]

/-- **Inlining keeps a program well typed.** Every caller is checked in the program after the
inlining, in which the callee is gone and the callables have new numbers. -/
theorem typed (ht : p.Typed) : p'.Typed := by
  have hmemory' := h.inlined.memory ⟨h.wellScoped, h.memory⟩ h.position
  intro g hg
  obtain ⟨j, hj⟩ := List.getElem?_of_mem hg
  obtain ⟨i, f, -, -, hi, rfl, hf, -, -⟩ := h.inlined.exists_source hj
  obtain ⟨g', arguments, more, hg', hresult, hbody, hlocals, hargs⟩ := h.exists_arguments hf hi
  obtain rfl := Option.some.inj (hj.symm.trans hg')
  have hm := List.mem_of_getElem? hf
  obtain ⟨last, hlast, hclosable, -⟩ := Typing.exists_last (ht f hm)
  obtain ⟨t, hall, hl⟩ := Typing.checkAll_flatMap (fun o ho u v hu =>
    h.checkAll_replacement ht hmemory' hm hg hresult hbody hlocals hargs ho hu)
    (.refl _) hlast
  obtain ⟨last', hl', rfl⟩ := hl.exists_singleton
  refine Typing.typed_of_last ?_ (hl'.isClosable hclosable)
  rw [hbody, ← hall]
  simp only [start, Env.results, Function.env, hresult]

end Inlining

end Inline

end WasmTrim
