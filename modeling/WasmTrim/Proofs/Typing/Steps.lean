/-
# Typing the operations of a body

The checker reads bytes.  Here the same rules are applied to the operations of a body: every
operation has the rule that its bytes are read as (`Op.rule?`), and a function is well typed when
its operations, followed by a closer, close the function (`Function.Typed`).

The rules themselves are functions on frames.  `Typing.Step` lists what one operation may do to
them, and `Typing.checkOp_iff` says that this is the whole list; arguments about typed bodies are
by cases on it.  A typed body can be parsed (`Function.Typed.parses`).

The list has three kinds of steps.  An operation with an arrow takes operands of fixed types and
leaves results of fixed types; one that stops takes some operands, after which control does not run
on; and the rest open, close or divide regions, or have a rule of their own because it depends on
the operands that are there.  No later module opens the rules themselves, so a change to one of them
is a change to this list and to the proof that it is complete.

The checker covers the whole instruction set, of which a program uses a part, and its rules are
shared by many instructions.  The list is the other way round: it has the operations of a program,
each with its own rule.
-/
import WasmTrim.Proofs.Semantics.Machine
import WasmTrim.Validation.Program

namespace WasmTrim

open Validation

/-! ## 1. Rules

An operation has no rule if its alignment or its offset is out of the range of what it accesses. -/

/-- The type of a region that leaves a result, or none. Regions of a program take nothing from the
stack. -/
def ResultType.blockType : ResultType → BlockType
  | none => .empty
  | some t => .value (.num t)

/-- Value types as types of operands, which are more than the values that a program can name. -/
def operandTypes (ts : List ValueType) : List OperandType := ts.map .num

/-- The rule of an operation.  A memory access promises at most the alignment of what it
accesses, and its offset is a number of 32 bits. -/
def Op.rule? : Op → Option Rule
  | .unreachable => some (.stop [])
  | .nop => some (.arrow [] [])
  | .enter kind result => some (.enter kind result.blockType)
  | .elseArm => some .elseArm
  | .close => some .close
  | .br label => some (.br label)
  | .brIf label => some (.brIf label)
  | .brTable targets fallback => some (.brTable targets fallback)
  | .ret => some .ret
  | .call target => some (.call target)
  | .returnCall target => some (.returnCall target)
  | .catchTag tag => some (.catchTag tag)
  | .catchAll => some .catchAll
  | .throwTag tag => some (.throwTag tag)
  | .rethrow label => some (.rethrow label)
  | .delegate label => some (.delegate label)
  | .drop => some .drop
  | .select => some .select
  | .localGet index => some (.localGet index)
  | .localSet index => some (.localSet index)
  | .localTee index => some (.localTee index)
  | .globalGet index => some (.globalGet index)
  | .globalSet index => some (.globalSet index)
  | .load access arg =>
    if arg.align ≤ access.alignment ∧ arg.offset < 2 ^ 32 then
      some (.memory [0] [.i32] [.num access.type])
    else none
  | .store access arg =>
    if arg.align ≤ access.alignment ∧ arg.offset < 2 ^ 32 then
      some (.memory [0] [.i32, .num access.type] [])
    else none
  | .memorySize => some (.memory [0] [] [.i32])
  | .memoryGrow => some (.memory [0] [.i32] [.i32])
  | .const v => some (.arrow [] [.num v.type])
  | .num op => some (.arrow (operandTypes op.operands) [.num op.result])

namespace Typing

/-- Checks one operation by its rule; an operation without one is refused. -/
def checkOp (env : Env) (s : Validation.State) (o : Op) : Option Validation.State :=
  o.rule?.bind (step env s)

/-- Checks some operations in order, from one state of the checker to the next, and gives nothing as
soon as one of them is refused. -/
def checkAll (env : Env) (s : Validation.State) (ops : List Op) : Option Validation.State :=
  ops.foldlM (checkOp env) s

@[simp] theorem checkAll_nil (env : Env) (s : Validation.State) : checkAll env s [] = some s := rfl

@[simp] theorem checkAll_cons (env : Env) (s : Validation.State) (o : Op) (ops : List Op) :
    checkAll env s (o :: ops) = (checkOp env s o).bind fun s => checkAll env s ops :=
  List.foldlM_cons

@[simp] theorem checkAll_append (env : Env) (s : Validation.State) (a b : List Op) :
    checkAll env s (a ++ b) = (checkAll env s a).bind fun s => checkAll env s b :=
  List.foldlM_append

end Typing

/-- **A function is well typed** in the surroundings of its program: the checker goes from its first
frame through the operations of its body and a closer, and no frame is left open. -/
def Function.Typed (s : Surroundings) (f : Function) : Prop :=
  Typing.checkAll (f.env s) (start (f.env s)) (f.body.ops ++ [.close]) = some []

instance (s : Surroundings) (f : Function) : Decidable (f.Typed s) :=
  inferInstanceAs (Decidable (_ = _))

/-- **A program is well typed** when its functions are, each in the surroundings that all of them
share. -/
def Program.Typed (p : Program) : Prop := ∀ f ∈ p.functions, f.Typed p.surroundings

instance (p : Program) : Decidable p.Typed :=
  inferInstanceAs (Decidable (∀ f ∈ p.functions, f.Typed p.surroundings))

namespace Typing

/-! ## 2. What an operation may do

The two functions `Typing.arrow?` and `Typing.stops?` read the types of an operation off the
surroundings and the open frames, and `Typing.Step` adds the operations that neither of them knows.
-/

/-- The operands and results of an operation that does not depend on what is open. -/
def arrow? (env : Env) : Op → Option (List ValueType × List ValueType)
  | .nop => some ([], [])
  | .call target => (env.signatures[target]?).map fun s => (s.params, s.result.types)
  | .localGet index => (env.locals[index]?).map fun t => ([], [t])
  | .localSet index => (env.locals[index]?).map fun t => ([t], [])
  | .localTee index => (env.locals[index]?).map fun t => ([t], [t])
  | .globalGet index => (env.globals[index]?).map fun g => ([], [g.type])
  | .globalSet index =>
    (env.globals[index]?).bind fun g => if g.mutable then some ([g.type], []) else none
  | .load access arg =>
    if (arg.align ≤ access.alignment ∧ arg.offset < 2 ^ 32) ∧ env.hasMemory then
      some ([.i32], [access.type])
    else none
  | .store access arg =>
    if (arg.align ≤ access.alignment ∧ arg.offset < 2 ^ 32) ∧ env.hasMemory then
      some ([.i32, access.type], [])
    else none
  | .memorySize => if env.hasMemory then some ([], [.i32]) else none
  | .memoryGrow => if env.hasMemory then some ([.i32], [.i32]) else none
  | .const v => some ([], [v.type])
  | .num op => some (op.operands, [op.result])
  | _ => none

/-- The operands of an operation from which control does not run on, in the given frames. -/
def stops? (env : Env) (frames : Validation.State) : Op → Option (List OperandType)
  | .unreachable => some []
  | .br label => (frames[label]?).map Frame.labelTypes
  | .ret => some env.results
  | .returnCall target =>
    (env.signatures[target]?).bind fun s =>
      if s.result = env.result then some (operandTypes s.params) else none
  | .throwTag tag => (env.tags[tag]?).map fun t => operandTypes t.params
  | .rethrow label =>
    (frames[label]?).bind fun f =>
      if f.kind = .catchArm ∨ f.kind = .catchAllArm then some [] else none
  | _ => none

/-- **What one operation may do** to the innermost frame and those around it. The first two cases
cover most operations; each of the others has a case of its own. -/
inductive Step (env : Env) (f : Frame) (outer : Validation.State) :
    Op → Validation.State → Prop where
  | arrow {o : Op} {takes leaves : List ValueType} {f' : Frame}
    (h : arrow? env o = some (takes, leaves)) (hp : f.popAll (operandTypes takes) = some f') :
    Step env f outer o (f'.pushAll (operandTypes leaves) :: outer)
  | stop {o : Op} {takes : List OperandType} {f' : Frame}
    (h : stops? env (f :: outer) o = some takes) (hp : f.popAll takes = some f') :
    Step env f outer o (f'.stop :: outer)
  | brIf {label : Nat} {target f' f'' : Frame} (ht : (f :: outer)[label]? = some target)
    (hc : f.pop .i32 = some f') (hp : f'.popAll target.labelTypes = some f'') :
    Step env f outer (.brIf label) (f''.pushAll target.labelTypes :: outer)
  | brTable {targets : List Nat} {fallback : Nat} {last f' f'' : Frame} (hc : f.pop .i32 = some f')
    (hl : (f' :: outer)[fallback]? = some last)
    (ht : ∀ label ∈ targets, ∃ target, (f' :: outer)[label]? = some target ∧
      target.labelTypes.length = last.labelTypes.length ∧ (f'.popAll target.labelTypes).isSome)
    (hp : f'.popAll last.labelTypes = some f'') :
    Step env f outer (.brTable targets fallback) (f''.stop :: outer)
  | drop {o : Operand} {f' : Frame} (hp : f.popAny = some (o, f')) :
    Step env f outer .drop (f' :: outer)
  | select {a b o : Operand} {f₁ f₂ f₃ : Frame} (hc : f.pop .i32 = some f₁)
    (ha : f₁.popAny = some (a, f₂)) (hb : f₂.popAny = some (b, f₃))
    (hj : Operand.join? a b = some o) :
    Step env f outer .select (f₃.pushOperand o :: outer)
  | enter {kind : RegionKind} {result : ResultType} {f' : Frame}
    (hp : f.popAll (regionCondition kind) = some f') :
    Step env f outer (.enter kind result)
      (.enter (.ofRegion kind) ⟨[], operandTypes result.types⟩ :: f' :: outer)
  | elseArm (hk : f.kind = .thenArm) (hc : f.isComplete) :
    Step env f outer .elseArm (.enter .elseArm f.type :: outer)
  | catchTag {tag : Nat} {t : Tag} (ht : env.tags[tag]? = some t) (hk : f.kind.admitsHandler)
    (hc : f.isComplete) :
    Step env f outer (.catchTag tag) (.start .catchArm f.type (operandTypes t.params) :: outer)
  | catchAll (hk : f.kind.admitsHandler) (hc : f.isComplete) :
    Step env f outer .catchAll (.start .catchAllArm f.type [] :: outer)
  | close (hc : f.isClosable) : Step env f outer .close (leave f outer)
  | delegate {label : Nat} (hk : f.kind = .tryBody) (hc : f.isComplete)
    (hl : label < outer.length) : Step env f outer (.delegate label) (leave f outer)


variable {env : Env} {f : Frame} {outer s : Validation.State} {o : Op}

theorem regionType?_blockType (env : Env) (r : ResultType) :
    env.regionType? r.blockType = some ⟨[], operandTypes r.types⟩ := by
  cases r <;> rfl

/-- Has operands and results that do not depend on what is open, and neither on the operands that
are there. -/
def hasArrow : Op → Bool
  | .nop | .call _ | .localGet _ | .localSet _ | .localTee _ | .globalGet _ | .globalSet _
  | .load _ _ | .store _ _ | .memorySize | .memoryGrow | .const _ | .num _ => true
  | _ => false

/-- Nothing else has operands and results of this plain kind: where they are given, the operation is
one of those listed. -/
theorem hasArrow_of_arrow? {x : List ValueType × List ValueType} (h : arrow? env o = some x) :
    hasArrow o := by
  cases o with
  | nop | call _ | localGet _ | localSet _ | localTee _ | globalGet _ | globalSet _ | load _ _
  | store _ _ | memorySize | memoryGrow | const _ | num _ => rfl
  | _ => cases h

/-- The operands and results of a rule are those of the operation. -/
theorem arrow?_rule (h : hasArrow o) : o.rule?.bind env.arrow?
    = (arrow? env o).map fun x => (operandTypes x.1, operandTypes x.2) := by
  have hmem : env.hasMemoryAt 0 = env.hasMemory := by simp [Env.hasMemoryAt]
  cases o <;> simp only [hasArrow, Bool.false_eq_true] at h <;>
    simp only [Op.rule?, arrow?, Option.bind_some, Env.arrow?]
  case nop | const => rfl
  case num op => simp [Env.knows, operandTypes]
  case call t => cases env.signatures[t]? <;> rfl
  case localGet i | localSet i | localTee i => cases env.locals[i]? <;> rfl
  case globalGet i => cases env.globals[i]? <;> rfl
  case globalSet i =>
    cases env.globals[i]? with
    | none => rfl
    | some g => cases hm : g.mutable <;> simp [hm, operandTypes]
  case memorySize | memoryGrow => cases hm : env.hasMemory <;> simp [hmem, hm, operandTypes]
  case load a arg | store a arg =>
    by_cases hc : arg.align ≤ a.alignment ∧ arg.offset < 2 ^ 32
    · rw [if_pos hc]
      cases hm : env.hasMemory
      · rw [if_neg fun h => Bool.false_ne_true h.2]
        simp [Env.arrow?, hmem, hm]
      · rw [if_pos ⟨hc, rfl⟩]
        simp [Env.arrow?, hmem, hm, operandTypes]
    · rw [if_neg hc, if_neg fun h => hc h.1]
      rfl

theorem checkOp_of_hasArrow (h : hasArrow o) : checkOp env (f :: outer) o
    = (arrow? env o).bind fun x => (f.popAll (operandTypes x.1)).bind fun f' =>
        some (f'.pushAll (operandTypes x.2) :: outer) := by
  have hrule : checkOp env (f :: outer) o = (o.rule?.bind env.arrow?).bind fun x =>
      (f.popAll x.1).bind fun f' => some (f'.pushAll x.2 :: outer) := by
    rw [Option.bind_assoc]
    cases o <;> simp only [hasArrow, Bool.false_eq_true] at h <;>
      simp only [checkOp, Op.rule?]
    case load | store =>
      split <;> rfl
    all_goals rfl
  rw [hrule, arrow?_rule h, Option.bind_map]
  rfl

/-- Control does not run on behind these: what follows in the same region is never reached. -/
def hasStop : Op → Bool
  | .unreachable | .br _ | .ret | .returnCall _ | .throwTag _ | .rethrow _ => true
  | _ => false

/-- Nothing else stops: where operands are given for an operation that does, it is one of those
listed. -/
theorem hasStop_of_stops? {x : List OperandType} (h : stops? env s o = some x) : hasStop o := by
  cases o with
  | unreachable | br _ | ret | returnCall _ | throwTag _ | rethrow _ => rfl
  | _ => cases h

theorem checkOp_of_hasStop (h : hasStop o) : checkOp env (f :: outer) o
    = (stops? env (f :: outer) o).bind fun takes => (f.popAll takes).bind fun f' =>
        some (f'.stop :: outer) := by
  cases o <;> simp only [hasStop, Bool.false_eq_true] at h <;>
    simp only [checkOp, Op.rule?, stops?, Option.bind_some, step, Validation.control]
  case unreachable | ret => rfl
  case br label => cases (f :: outer)[label]? <;> rfl
  case throwTag tag => cases env.tags[tag]? <;> rfl
  case returnCall t =>
    cases env.signatures[t]? with
    | none => rfl
    | some s =>
      by_cases hr : s.result = env.result
      · simp [hr]
        rfl
      · simp [hr]
  case rethrow label =>
    cases (f :: outer)[label]? with
    | none => rfl
    | some t =>
      by_cases hr : t.kind = .catchArm ∨ t.kind = .catchAllArm <;> simp [hr, Frame.popAll]

/-- The steps at the borders of regions: those of openers, of what begins an arm, and of closers. -/
theorem step_of_border (h : checkOp env (f :: outer) o = some s) (ho : o.isPlain = false) :
    Step env f outer o s := by
  cases o <;> simp only [Op.isPlain, Op.opensRegion, Op.closesRegion, Op.startsArm,
      Bool.not_false, Bool.and_self, Bool.true_eq_false] at ho <;>
    simp only [checkOp, Op.rule?, Option.bind_some, step, Validation.control] at h
  case enter kind result =>
    rw [regionType?_blockType] at h
    obtain ⟨type, ht, h⟩ := Option.bind_eq_some_iff.mp h
    obtain rfl := Option.some.inj ht
    obtain ⟨f', hf', h⟩ := Option.bind_eq_some_iff.mp h
    obtain rfl := Option.some.inj h
    exact .enter hf'
  case elseArm =>
    split at h
    · rename_i hc
      obtain rfl := Option.some.inj h
      simp only [Bool.and_eq_true, decide_eq_true_eq] at hc
      exact .elseArm hc.1 hc.2
    · cases h
  case close =>
    split at h
    · rename_i hc
      obtain rfl := Option.some.inj h
      exact .close hc
    · cases h
  case catchTag tag =>
    obtain ⟨t, ht, h⟩ := Option.bind_eq_some_iff.mp h
    split at h
    · rename_i hc
      obtain rfl := Option.some.inj h
      simp only [Bool.and_eq_true] at hc
      exact .catchTag ht hc.1 hc.2
    · cases h
  case catchAll =>
    split at h
    · rename_i hc
      obtain rfl := Option.some.inj h
      simp only [Bool.and_eq_true] at hc
      exact .catchAll hc.1 hc.2
    · cases h
  case delegate label =>
    split at h
    · rename_i hc
      obtain rfl := Option.some.inj h
      simp only [Bool.and_eq_true, decide_eq_true_eq] at hc
      exact .delegate hc.1.1 hc.1.2 hc.2
    · cases h

/-- **The list of steps is complete**: whatever the checker accepts is one of them. Later arguments
about accepted operations are by cases on the list. -/
theorem step_of_checkOp (h : checkOp env (f :: outer) o = some s) : Step env f outer o s := by
  by_cases ho : o.isPlain = false
  · exact step_of_border h ho
  by_cases ha : hasArrow o
  · rw [checkOp_of_hasArrow ha] at h
    obtain ⟨x, hx, h⟩ := Option.bind_eq_some_iff.mp h
    obtain ⟨f', hf', h⟩ := Option.bind_eq_some_iff.mp h
    obtain rfl := Option.some.inj h
    exact .arrow hx hf'
  by_cases hs : hasStop o
  · rw [checkOp_of_hasStop hs] at h
    obtain ⟨takes, ht, h⟩ := Option.bind_eq_some_iff.mp h
    obtain ⟨f', hf', h⟩ := Option.bind_eq_some_iff.mp h
    obtain rfl := Option.some.inj h
    exact .stop ht hf'
  -- what is left takes operands of any type, or leaves different ones on different ways
  cases o <;>
    simp only [hasArrow, hasStop, Op.isPlain, Op.opensRegion, Op.closesRegion, Op.startsArm,
      Bool.not_true, Bool.false_and, Bool.and_false, not_true_eq_false] at ha hs ho <;>
    simp only [checkOp, Op.rule?, Option.bind_some, step, Validation.control] at h
  case brIf label =>
    obtain ⟨target, ht, h⟩ := Option.bind_eq_some_iff.mp h
    obtain ⟨f', hf', h⟩ := Option.bind_eq_some_iff.mp h
    obtain ⟨f'', hf'', h⟩ := Option.bind_eq_some_iff.mp h
    obtain ⟨g, hg, hf''⟩ := Option.bind_eq_some_iff.mp hf''
    obtain rfl := Option.some.inj h
    obtain rfl := Option.some.inj hf''
    exact .brIf ht hf' hg
  case brTable targets fallback =>
    obtain ⟨f', hf', h⟩ := Option.bind_eq_some_iff.mp h
    obtain ⟨last, hl, h⟩ := Option.bind_eq_some_iff.mp h
    split at h
    · rename_i hall
      obtain ⟨f'', hf'', h⟩ := Option.bind_eq_some_iff.mp h
      obtain rfl := Option.some.inj h
      refine .brTable hf' hl (fun label hlabel => ?_) hf''
      obtain ⟨target, ht, hc⟩ := (Option.any_eq_true _ _).mp (List.all_eq_true.mp hall label hlabel)
      simp only [Bool.and_eq_true, decide_eq_true_eq] at hc
      exact ⟨target, ht, hc⟩
    · cases h
  case drop =>
    obtain ⟨⟨o, f'⟩, hf', h⟩ := Option.bind_eq_some_iff.mp h
    obtain rfl := Option.some.inj h
    exact .drop hf'
  case select =>
    obtain ⟨f₁, h₁, h⟩ := Option.bind_eq_some_iff.mp h
    obtain ⟨⟨a, f₂⟩, h₂, h⟩ := Option.bind_eq_some_iff.mp h
    obtain ⟨⟨b, f₃⟩, h₃, h⟩ := Option.bind_eq_some_iff.mp h
    obtain ⟨o, hj, h⟩ := Option.bind_eq_some_iff.mp h
    obtain rfl := Option.some.inj h
    exact .select h₁ h₂ h₃ hj

/-- Every step of the list is taken by the checker, so the list says no more than it does. -/
theorem checkOp_of_step (h : Step env f outer o s) : checkOp env (f :: outer) o = some s := by
  cases h with
  | @arrow o takes leaves f' h hp =>
    rw [checkOp_of_hasArrow (hasArrow_of_arrow? h), h]
    simp [hp]
  | @stop o takes f' h hp =>
    rw [checkOp_of_hasStop (hasStop_of_stops? h), h]
    simp [hp]
  | brIf ht hc hp => simp [checkOp, Op.rule?, step, Validation.control, ht, hc, retype, hp]
  | @brTable targets fallback last f' f'' hc hl ht hp =>
    have hall : (targets.all fun label => ((f' :: outer)[label]?).any fun target =>
        target.labelTypes.length = last.labelTypes.length
          && (f'.popAll target.labelTypes).isSome) = true := by
      refine List.all_eq_true.mpr fun label hlabel => ?_
      obtain ⟨target, htarget, hlen, hpop⟩ := ht label hlabel
      simp [htarget, hlen, hpop]
    simp only [checkOp, Op.rule?, Option.bind_some, step, Validation.control, hc, hl, hp,
      Option.bind_eq_bind, if_pos hall]
    rfl
  | drop hp => simp [checkOp, Op.rule?, step, Validation.control, hp]
  | select hc ha hb hj => simp [checkOp, Op.rule?, step, Validation.control, hc, ha, hb, hj]
  | enter hp =>
    simp only [checkOp, Op.rule?, Option.bind_some, step, Validation.control]
    rw [regionType?_blockType]
    simp [hp]
  | elseArm hk hc => simp [checkOp, Op.rule?, step, Validation.control, hk, hc]
  | catchTag ht hk hc => simp [checkOp, Op.rule?, step, Validation.control, ht, hk, hc]; rfl
  | catchAll hk hc => simp [checkOp, Op.rule?, step, Validation.control, hk, hc]
  | close hc => simp [checkOp, Op.rule?, step, Validation.control, hc]
  | delegate hk hc hl => simp [checkOp, Op.rule?, step, Validation.control, hk, hc, hl]

theorem checkOp_iff : checkOp env (f :: outer) o = some s ↔ Step env f outer o s :=
  ⟨step_of_checkOp, checkOp_of_step⟩

theorem checkOp_close (h : checkOp env (f :: outer) .close = some s) :
    f.isClosable ∧ s = leave f outer := by
  generalize ho : Op.close = o at h
  cases step_of_checkOp h with
  | close hc => exact ⟨hc, rfl⟩
  | arrow ha _ | stop ha _ =>
    subst ho
    cases ha
  | _ => cases ho

theorem checkOp_nil : checkOp env [] o = none := by
  unfold checkOp
  cases o.rule? <;> rfl

theorem pop_eq_some {f' : Frame} {t : OperandType} :
    f.pop t = some f' ↔ ∃ o, f.popAny = some (o, f') ∧ o.serves t := by
  unfold Frame.pop Frame.popAs
  cases h : f.popAny with
  | none => simp
  | some x =>
    obtain ⟨o, g⟩ := x
    by_cases hs : o.serves t
    · simp only [Option.bind_eq_bind, Option.bind_some, if_pos hs, Option.map_some,
        Option.some.injEq, Prod.mk.injEq]
      exact ⟨fun e => ⟨o, ⟨rfl, e⟩, hs⟩, fun ⟨_, e, _⟩ => e.2⟩
    · simp only [Option.bind_eq_bind, Option.bind_some, if_neg hs, Option.map_none,
        Option.some.injEq, Prod.mk.injEq, reduceCtorEq, false_iff]
      rintro ⟨_, ⟨rfl, -⟩, h⟩
      exact hs h

@[simp] theorem popAll_nil (f : Frame) : f.popAll [] = some f := rfl

theorem popAll_cons (f : Frame) (t : OperandType) (ts : List OperandType) :
    f.popAll (t :: ts) = (f.popAll ts).bind fun f => f.pop t := by
  simp [Frame.popAll]

@[simp] theorem pushAll_nil (f : Frame) : f.pushAll [] = f := rfl

theorem pushAll_cons (f : Frame) (t : OperandType) (ts : List OperandType) :
    f.pushAll (t :: ts) = (f.push t).pushAll ts := rfl

/-! ## 3. Frames that belong to one region

Between the opener of a region and its closer only the operands and the reachability of its frame
change, unless an arm begins. -/

/-- Two frames of the same region: their kind and type agree. Operands may have been pushed and
popped and control may have stopped in between. -/
structure Alike (f f' : Frame) : Prop where
  kind : f'.kind = f.kind
  type : f'.type = f.type

namespace Alike

variable {f' f'' : Frame}

theorem refl (f : Frame) : Alike f f := ⟨rfl, rfl⟩

theorem trans (h : Alike f f') (h' : Alike f' f'') : Alike f f'' :=
  ⟨h'.kind.trans h.kind, h'.type.trans h.type⟩

theorem labelTypes (h : Alike f f') : f'.labelTypes = f.labelTypes := by
  unfold Frame.labelTypes
  rw [h.kind, h.type]

theorem popAny {o : Operand} (h : f.popAny = some (o, f')) : Alike f f' := by
  unfold Frame.popAny at h
  split at h
  · obtain ⟨rfl, rfl⟩ := Prod.mk.inj (Option.some.inj h)
    exact ⟨rfl, rfl⟩
  · split at h
    · obtain ⟨rfl, rfl⟩ := Prod.mk.inj (Option.some.inj h)
      exact .refl _
    · cases h

theorem pop {t : OperandType} (h : f.pop t = some f') : Alike f f' := by
  obtain ⟨o, ho, -⟩ := pop_eq_some.mp h
  exact popAny ho

theorem popAll {ts : List OperandType} (h : f.popAll ts = some f') : Alike f f' := by
  induction ts generalizing f' with
  | nil =>
    obtain rfl := Option.some.inj h
    exact .refl _
  | cons t ts ih =>
    rw [popAll_cons] at h
    obtain ⟨g, hg, h⟩ := Option.bind_eq_some_iff.mp h
    exact (ih hg).trans (pop h)

theorem pushAll (f : Frame) (ts : List OperandType) : Alike f (f.pushAll ts) := by
  induction ts generalizing f with
  | nil => exact .refl _
  | cons t ts ih =>
    have h : Alike f (f.push t) := ⟨rfl, rfl⟩
    exact h.trans (ih (f.push t))

theorem stop (f : Frame) : Alike f f.stop := ⟨rfl, rfl⟩

end Alike

/-- **A plain operation** works on the innermost frame only, and leaves its kind and its type alone.
-/
theorem Step.of_isPlain (h : Step env f outer o s) (ho : o.isPlain) :
    ∃ f', s = f' :: outer ∧ Alike f f' := by
  cases h with
  | arrow h hp => exact ⟨_, rfl, (Alike.popAll hp).trans (.pushAll _ _)⟩
  | stop h hp => exact ⟨_, rfl, (Alike.popAll hp).trans (.stop _)⟩
  | brIf ht hc hp => exact ⟨_, rfl, (Alike.pop hc).trans ((Alike.popAll hp).trans (.pushAll _ _))⟩
  | brTable hc hl ht hp => exact ⟨_, rfl, (Alike.pop hc).trans ((Alike.popAll hp).trans (.stop _))⟩
  | drop hp => exact ⟨_, rfl, Alike.popAny hp⟩
  | select hc ha hb hj =>
    exact ⟨_, rfl,
      (Alike.pop hc).trans ((Alike.popAny ha).trans ((Alike.popAny hb).trans ⟨rfl, rfl⟩))⟩
  | enter | elseArm | catchTag | catchAll | close | delegate => cases ho

theorem isPlain_of_arrow? {x : List ValueType × List ValueType} (h : arrow? env o = some x) :
    o.isPlain := by
  cases o with
  | enter _ _ | elseArm | close | catchTag _ | catchAll | delegate _ => cases h
  | _ => rfl

theorem isPlain_of_stops? {x : List OperandType} (h : stops? env s o = some x) : o.isPlain := by
  cases o with
  | enter _ _ | elseArm | close | catchTag _ | catchAll | delegate _ => cases h
  | _ => rfl

theorem Step.enter_iff {kind : RegionKind} {result : ResultType}
    (h : Step env f outer (.enter kind result) s) :
    ∃ f', f.popAll (regionCondition kind) = some f' ∧
      s = .enter (.ofRegion kind) ⟨[], operandTypes result.types⟩ :: f' :: outer := by
  cases h with
  | enter hp => exact ⟨_, hp, rfl⟩
  | arrow h _ | stop h _ => cases h

/-- An operation that begins an arm opens a frame of the same region. -/
theorem Step.of_startsArm (h : Step env f outer o s) (ho : o.startsArm) :
    ∃ f', s = f' :: outer ∧ f'.type = f.type ∧ f.isComplete := by
  cases h with
  | elseArm hk hc => exact ⟨_, rfl, rfl, hc⟩
  | catchTag ht hk hc => exact ⟨_, rfl, rfl, hc⟩
  | catchAll hk hc => exact ⟨_, rfl, rfl, hc⟩
  | arrow h _ => exact absurd (isPlain_of_arrow? h) (by simp [Op.isPlain, ho])
  | stop h _ => exact absurd (isPlain_of_stops? h) (by simp [Op.isPlain, ho])
  | _ => cases ho

theorem Step.of_closesRegion (h : Step env f outer o s) (ho : o.closesRegion) :
    s = leave f outer ∧ f.isComplete := by
  cases h with
  | close hc => exact ⟨rfl, (Bool.and_eq_true_iff.mp hc).1⟩
  | delegate hk hc hl => exact ⟨rfl, hc⟩
  | arrow h _ => exact absurd (isPlain_of_arrow? h) (by simp [Op.isPlain, ho])
  | stop h _ => exact absurd (isPlain_of_stops? h) (by simp [Op.isPlain, ho])
  | _ => cases ho

theorem leave_congr {f' : Frame} (h : f'.type = f.type) (outer : Validation.State) :
    leave f' outer = leave f outer := by
  cases outer with
  | nil => rfl
  | cons g outer => rw [leave, leave, h]

mutual

/-- **A code works on the innermost frame only.** The frames that it opens it closes again, so that
those around it are never touched. -/
theorem checkAll_code : ∀ {c : Code}, c.WellFormed → ∀ {f : Frame} {outer s : Validation.State},
    checkAll env (f :: outer) c.ops = some s → ∃ f', s = f' :: outer ∧ Alike f f'
  | .done, _, f, outer, s, h => by
    obtain rfl := Option.some.inj h
    exact ⟨f, rfl, .refl f⟩
  | .op o rest, hc, f, outer, s, h => by
    rw [Code.WellFormed] at hc
    rw [Code.ops, checkAll_cons] at h
    obtain ⟨t, ht, h⟩ := Option.bind_eq_some_iff.mp h
    obtain ⟨f₁, rfl, h₁⟩ := (step_of_checkOp ht).of_isPlain hc.1
    obtain ⟨f', rfl, h'⟩ := checkAll_code hc.2 h
    exact ⟨f', rfl, h₁.trans h'⟩
  | .region kind result body arms rest, hc, f, outer, s, h => by
    rw [Code.WellFormed] at hc
    rw [Code.ops, checkAll_cons] at h
    obtain ⟨t, ht, h⟩ := Option.bind_eq_some_iff.mp h
    obtain ⟨f₁, hp, rfl⟩ := (step_of_checkOp ht).enter_iff
    rw [checkAll_append] at h
    obtain ⟨t, ht, h⟩ := Option.bind_eq_some_iff.mp h
    obtain ⟨g, rfl, -⟩ := checkAll_code hc.2.1 ht
    rw [checkAll_append] at h
    obtain ⟨t, ht, h⟩ := Option.bind_eq_some_iff.mp h
    obtain ⟨rfl, -⟩ := checkAll_arms hc.2.2.1 ht
    obtain ⟨f', rfl, h'⟩ := checkAll_code hc.2.2.2 h
    exact ⟨f', rfl, (Alike.popAll hp).trans ((Alike.pushAll _ _).trans h')⟩

/-- **Arms end their region.** The closer behind the last of them finds the frame complete and
pushes its results on the frame around it. -/
theorem checkAll_arms : ∀ {a : Arms}, a.WellFormed → ∀ {f : Frame} {outer s : Validation.State},
    checkAll env (f :: outer) a.ops = some s → s = leave f outer ∧ f.isComplete
  | .close, _, f, outer, s, h => by
    rw [Arms.ops, checkAll_cons] at h
    obtain ⟨t, ht, h⟩ := Option.bind_eq_some_iff.mp h
    obtain rfl := Option.some.inj h
    exact (step_of_checkOp ht).of_closesRegion rfl
  | .delegate label, _, f, outer, s, h => by
    rw [Arms.ops, checkAll_cons] at h
    obtain ⟨t, ht, h⟩ := Option.bind_eq_some_iff.mp h
    obtain rfl := Option.some.inj h
    exact (step_of_checkOp ht).of_closesRegion rfl
  | .arm head body more, ha, f, outer, s, h => by
    rw [Arms.WellFormed] at ha
    rw [Arms.ops, checkAll_cons] at h
    obtain ⟨t, ht, h⟩ := Option.bind_eq_some_iff.mp h
    obtain ⟨f₁, rfl, h₁, hcomplete⟩ := (step_of_checkOp ht).of_startsArm ha.1
    rw [checkAll_append] at h
    obtain ⟨t, ht, h⟩ := Option.bind_eq_some_iff.mp h
    obtain ⟨f₂, rfl, h₂⟩ := checkAll_code ha.2.1 ht
    obtain ⟨rfl, -⟩ := checkAll_arms ha.2.2 h
    exact ⟨leave_congr (h₂.type.trans h₁) outer, hcomplete⟩

end

/-- The parts of a region: what it takes, its first part, its arms and what follows. -/
theorem checkAll_region {kind : RegionKind} {result : ResultType} {body : Code} {arms : Arms}
    {rest : Code} (hc : (Code.region kind result body arms rest).WellFormed)
    (h : checkAll env (f :: outer) (Code.region kind result body arms rest).ops = some s) :
    ∃ f' g, f.popAll (regionCondition kind) = some f' ∧
      checkAll env (.enter (.ofRegion kind) ⟨[], operandTypes result.types⟩ :: f' :: outer)
        body.ops = some (g :: f' :: outer) ∧
      Alike (.enter (.ofRegion kind) ⟨[], operandTypes result.types⟩) g ∧
      checkAll env (g :: f' :: outer) arms.ops
        = some (f'.pushAll (operandTypes result.types) :: outer) ∧
      checkAll env (f'.pushAll (operandTypes result.types) :: outer) rest.ops = some s := by
  rw [Code.WellFormed] at hc
  rw [Code.ops, checkAll_cons] at h
  obtain ⟨t, ht, h⟩ := Option.bind_eq_some_iff.mp h
  obtain ⟨f', hp, rfl⟩ := (step_of_checkOp ht).enter_iff
  rw [checkAll_append] at h
  obtain ⟨t, ht, h⟩ := Option.bind_eq_some_iff.mp h
  obtain ⟨g, rfl, hg⟩ := checkAll_code hc.2.1 ht
  rw [checkAll_append] at h
  obtain ⟨t', ht', h⟩ := Option.bind_eq_some_iff.mp h
  obtain ⟨rfl, -⟩ := checkAll_arms hc.2.2.1 ht'
  rw [leave, hg.type] at ht' h
  exact ⟨f', g, hp, ht, hg, ht', h⟩

/-! ## 4. Typed bodies can be parsed

The parser reads a body from its end, and the checker goes through it from the start.  They meet at
the regions: those that the checker has open before some operations are those that the parser has
found closed behind them. -/

/-- Whether a frame of the given kind may be followed by arms of the given form. -/
def admitsRest : FrameKind → List Op → Bool
  | .block, heads => RegionKind.block.admits heads
  | .loop, heads => RegionKind.loop.admits heads
  | .thenArm, heads => RegionKind.ifThen.admits heads
  | .tryBody, heads => RegionKind.tryCatch.admits heads
  | .elseArm, heads | .catchAllArm, heads => heads = [.close]
  | .catchArm, heads => areHandlers heads

/-- The frames are those of the regions that have been read, and of the function. -/
def Matches : List (Arms × Code) → Validation.State → Prop
  | [], [_] => True
  | (a, _) :: rest, f :: outer => admitsRest f.kind a.skeleton ∧ Matches rest outer
  | _, _ => False

theorem Matches.ne_nil {rest : List (Arms × Code)} (h : Matches rest s) : s ≠ [] := by
  rintro rfl
  cases rest <;> exact h

theorem Matches.alike {f' : Frame} {rest : List (Arms × Code)} (h : Matches rest (f' :: outer))
    (ha : Alike f f') : Matches rest (f :: outer) := by
  match rest, outer, h with
  | [], [], _ => trivial
  | (a, _) :: rest, outer, h => exact ⟨ha.kind ▸ h.1, h.2⟩

/-- The last frame is the one of the function, if any frame is left. -/
def Based (base : Frame) (s : Validation.State) : Prop :=
  ∀ f, s.getLast? = some f → Alike base f

theorem Based.cons {base g : Frame} (h : outer ≠ [] → Based base outer)
    (hg : outer = [] → Alike base g) : Based base (g :: outer) := by
  intro x hx
  cases outer with
  | nil =>
    obtain rfl : g = x := by simpa using hx
    exact hg rfl
  | cons y outer => exact h (by simp) x (by simpa [List.getLast?_cons_cons] using hx)

theorem Based.tail {base : Frame} (h : Based base (f :: outer)) : Based base outer := by
  intro x hx
  refine h x ?_
  cases outer with
  | nil => cases hx
  | cons y outer => simpa [List.getLast?_cons_cons] using hx

theorem Based.alike {base f' : Frame} (h : Based base (f :: outer)) (ha : Alike f f') :
    Based base (f' :: outer) := by
  refine .cons (fun _ => h.tail) fun e => ?_
  subst e
  exact (h f rfl).trans ha

/-- The frame of the function stays at the bottom, as long as anything is open at all. -/
theorem Based.step {base : Frame} (hbase : base.kind = .block) (h : Based base (f :: outer))
    (hs : Step env f outer o s) : Based base s := by
  have harm : ∀ g : Frame, f.kind ≠ .block → Based base (g :: outer) := by
    intro g hf
    refine .cons (fun _ => h.tail) fun e => absurd ?_ hf
    subst e
    exact (h f rfl).kind.trans hbase
  have hleave : Based base (leave f outer) := by
    cases outer with
    | nil => exact fun x hx => by cases hx
    | cons g outer => exact h.tail.alike (.pushAll _ _)
  cases hs with
  | enter hp => exact .cons (fun _ => h.alike (.popAll hp)) fun e => by cases e
  | elseArm hk hc => exact harm _ (by simp [hk])
  | catchTag ht hk hc => exact harm _ fun e => by rw [e] at hk; cases hk
  | catchAll hk hc => exact harm _ fun e => by rw [e] at hk; cases hk
  | close hc => exact hleave
  | delegate hk hc hl => exact hleave
  | arrow h' hp => exact h.alike ((Alike.popAll hp).trans (.pushAll _ _))
  | stop h' hp => exact h.alike ((Alike.popAll hp).trans (.stop _))
  | brIf ht hc hp => exact h.alike ((Alike.pop hc).trans ((Alike.popAll hp).trans (.pushAll _ _)))
  | brTable hc hl ht hp => exact h.alike ((Alike.pop hc).trans ((Alike.popAll hp).trans (.stop _)))
  | drop hp => exact h.alike (.popAny hp)
  | select hc ha hb hj =>
    exact h.alike
      ((Alike.pop hc).trans ((Alike.popAny ha).trans ((Alike.popAny hb).trans ⟨rfl, rfl⟩)))

theorem Based.checkAll {base : Frame} (hbase : base.kind = .block) :
    ∀ {ops : List Op} {s s' : Validation.State},
      Based base s → Typing.checkAll env s ops = some s' → Based base s'
  | [], s, s', h, hs => by
    obtain rfl := Option.some.inj hs
    exact h
  | o :: ops, [], s', h, hs => by
    rw [checkAll_cons, checkOp_nil] at hs
    cases hs
  | o :: ops, f :: outer, s', h, hs => by
    rw [checkAll_cons] at hs
    obtain ⟨t, ht, hs⟩ := Option.bind_eq_some_iff.mp hs
    exact Based.checkAll hbase (h.step hbase (step_of_checkOp ht)) hs

/-- An operation that begins an arm is read, if the arms that follow may follow it. -/
theorem Matches.read_arm {base g : Frame} {c : Code} {rest : List (Arms × Code)}
    (hbase : base.kind = .block) (hb : Based base (f :: outer)) (hf : f.kind ≠ .block)
    (ho : o.startsArm) (h : Matches rest (g :: outer))
    (hk : ∀ heads, admitsRest g.kind heads → admitsRest f.kind (o :: heads)) :
    ∃ c' rest', Pending.read ⟨c, rest⟩ o = some ⟨c', rest'⟩ ∧ Matches rest' (f :: outer) := by
  match rest, outer, h with
  | [], [], _ => exact absurd ((hb f rfl).kind.trans hbase) hf
  | (arms, code) :: rest, outer, h =>
    rw [Pending.read_of_startsArm ho]
    exact ⟨_, _, rfl, hk _ h.1, h.2⟩

theorem areHandlers_of_admitsHandler {k : FrameKind} {heads : List Op} (hk : k.admitsHandler)
    (h : areHandlers heads) : admitsRest k heads := by
  cases k with
  | catchArm => exact h
  | tryBody =>
    simp only [admitsRest]
    unfold RegionKind.admits
    split
    · contradiction
    · contradiction
    · contradiction
    · rfl
    · exact h
  | _ => cases hk

/-- **Typed operations are well nested.**  The frames before some operations are those of the
regions that are closed by them. -/
theorem exists_readAll {base last : Frame} (hbase : base.kind = .block) :
    ∀ {ops : List Op} {s : Validation.State}, Based base s → checkAll env s ops = some [last] →
      ∃ c rest, Pending.start.readAll ops = some ⟨c, rest⟩ ∧ Matches rest s
  | [], s, _, h => by
    obtain rfl := Option.some.inj h
    exact ⟨.done, [], rfl, trivial⟩
  | o :: ops, [], _, h => by
    rw [checkAll_cons, checkOp_nil] at h
    cases h
  | o :: ops, f :: outer, hb, h => by
    rw [checkAll_cons] at h
    obtain ⟨s', hs', h⟩ := Option.bind_eq_some_iff.mp h
    have hstep := step_of_checkOp hs'
    obtain ⟨c, rest, hr, hm⟩ := exists_readAll hbase (hb.step hbase hstep) h
    rw [Pending.readAll, hr, Option.bind_some]
    by_cases hp : o.isPlain
    · obtain ⟨f', rfl, ha⟩ := hstep.of_isPlain hp
      rw [Pending.read_of_isPlain hp]
      exact ⟨_, _, rfl, hm.alike ha⟩
    cases hstep with
    | arrow ha _ => exact absurd (isPlain_of_arrow? ha) hp
    | stop ha _ => exact absurd (isPlain_of_stops? ha) hp
    | brIf | brTable | drop | select => exact absurd rfl hp
    | @enter kind result f' hpop =>
      rcases rest with _ | ⟨⟨arms, code⟩, rest⟩
      · exact hm.elim
      · have hk : kind.admits arms.skeleton := by
          have := hm.1
          cases kind <;> exact this
        simp only [Pending.read, if_pos hk]
        exact ⟨_, _, rfl, hm.2.alike (.popAll hpop)⟩
    | elseArm hk hc =>
      refine hm.read_arm hbase hb (by simp [hk]) rfl fun heads hh => ?_
      obtain rfl : heads = [.close] := of_decide_eq_true hh
      rw [hk]
      rfl
    | catchTag ht hk hc =>
      exact hm.read_arm hbase hb (fun e => by rw [e] at hk; cases hk) rfl fun heads hh =>
        areHandlers_of_admitsHandler hk hh
    | catchAll hk hc =>
      refine hm.read_arm hbase hb (fun e => by rw [e] at hk; cases hk) rfl fun heads hh =>
        areHandlers_of_admitsHandler hk ?_
      obtain rfl : heads = [.close] := of_decide_eq_true hh
      rfl
    | close hc =>
      rcases outer with _ | ⟨g, outer⟩
      · exact (Matches.ne_nil hm rfl).elim
      · refine ⟨_, _, rfl, ?_, hm.alike (.pushAll _ _)⟩
        cases f.kind <;> rfl
    | delegate hk hc hl =>
      rcases outer with _ | ⟨g, outer⟩
      · exact (Matches.ne_nil hm rfl).elim
      · refine ⟨_, _, rfl, ?_, hm.alike (.pushAll _ _)⟩
        rw [hk]
        rfl

/-- The state in front of the closer of a typed function. -/
theorem exists_last {s : Surroundings} {f : Function} (h : f.Typed s) : ∃ last,
    checkAll (f.env s) (start (f.env s)) f.body.ops = some [last] ∧ last.isClosable ∧
      Alike (.enter .block ⟨[], (f.env s).results⟩) last := by
  unfold Function.Typed at h
  rw [checkAll_append] at h
  obtain ⟨t, ht, h⟩ := Option.bind_eq_some_iff.mp h
  have hb : Based (.enter .block ⟨[], (f.env s).results⟩) t := by
    refine Based.checkAll rfl (fun x hx => ?_) ht
    obtain rfl := Option.some.inj hx
    exact .refl _
  rw [checkAll_cons] at h
  obtain ⟨u, hu, h⟩ := Option.bind_eq_some_iff.mp h
  obtain rfl := Option.some.inj h
  rcases t with _ | ⟨last, outer⟩
  · rw [checkOp_nil] at hu
    cases hu
  · obtain ⟨hc, e⟩ := checkOp_close hu
    cases outer with
    | nil => exact ⟨last, ht, hc, hb last rfl⟩
    | cons g outer => cases e

/-- What is typed up to the end of a function can be parsed. -/
theorem isSome_parse {ops : List Op} {last : Frame}
    (h : checkAll env (Validation.start env) ops = some [last]) : (Code.parse ops).isSome := by
  obtain ⟨c, rest, hr, hm⟩ := exists_readAll rfl (fun x hx => by
    obtain rfl := Option.some.inj hx
    exact .refl _) h
  rcases rest with _ | ⟨x, rest⟩
  · exact Option.isSome_iff_exists.mpr ⟨c, Code.parse_eq_some.mpr hr⟩
  · exact absurd rfl hm.2.ne_nil

end Typing

/-- **A typed body can be parsed**: what the checker accepts is well nested, with arms of the right
kinds in the right order. -/
theorem Function.Typed.parses {s : Surroundings} {f : Function} (h : f.Typed s) :
    (Code.parse f.body.ops).isSome := by
  obtain ⟨last, hlast, -, -⟩ := Typing.exists_last h
  exact Typing.isSome_parse hlast

end WasmTrim
