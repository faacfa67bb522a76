/-
# Typed programs do not get stuck

A frame of the checker describes the stack of the machine (`Typing.Holds`), a list of frames the
labels around a code (`Typing.LabelsFit`), and a signal fits when it carries what its goal expects
(`Typing.Fits`).  Every step of the checker is answered by an operation that fits
(`Typing.perform_fits`), and by induction on the structure of a code and on the depth of calls, a
call of a typed program never ends stuck (`Program.Typed.invoke_fits`).

The semantics gives no value to code that makes no sense: it gets stuck where an operand is missing
or of the wrong type, where a label names no region, and where memory is used that the program does
not have.  So what two programs do can be compared without any talk of types, and it is here that
types come in: none of this happens in a program that the checker accepts.

Progress and preservation are one statement.  A frame says which stacks may stand in front of an
operation; the operation then gives a signal, and the signal fits if the frame behind the operation
describes the stack it carries, or the label it goes to takes what it carries.  A frame that control
does not reach describes no stack at all, so nothing is claimed behind it and nothing has to be
shown.

A call is answered by the machine, and a machine fits if its answers do.  The answers of the host
fit by what a host may answer, and those of the functions by induction on the depth of calls.
-/
import WasmTrim.Proofs.Semantics.Height
import WasmTrim.Proofs.Typing.Steps

namespace WasmTrim

open Validation

namespace Typing

/-! ## 1. Frames and stacks

The operands of a frame are types, the last pushed first; a stack of values has the same order. -/

/-- The types of the values on a stack, whose top comes first; the types come in the order in which
the values were pushed. -/
def typesOf (values : List Value) : List OperandType :=
  operandTypes (values.reverse.map Value.type)

@[simp] theorem typesOf_nil : typesOf [] = [] := rfl

theorem typesOf_concat (values : List Value) (v : Value) :
    typesOf (values ++ [v]) = .num v.type :: typesOf values := by
  simp [typesOf, operandTypes]

@[simp] theorem length_typesOf (values : List Value) : (typesOf values).length = values.length := by
  simp [typesOf, operandTypes]

@[simp] theorem length_operandTypes (ts : List ValueType) : (operandTypes ts).length = ts.length :=
  List.length_map _

theorem operandTypes_inj {ts us : List ValueType} (h : operandTypes ts = operandTypes us) :
    ts = us :=
  (List.map_inj_right fun _ _ => OperandType.num.inj).mp h

theorem typesOf_eq_iff {values : List Value} {ts : List ValueType} :
    typesOf values = operandTypes ts ↔ values.reverse.map Value.type = ts :=
  ⟨operandTypes_inj, fun h => by rw [typesOf, h]⟩

/-- **A frame describes a stack**: control can reach it, and the types are those of the values. -/
structure Holds (f : Frame) (stack : List Value) : Prop where
  reachable : f.unreachable = false
  operands : f.operands = stack.map fun v => .known (.num v.type)

namespace Holds

variable {f f' : Frame} {stack : List Value}

theorem popAny {o : Operand} (h : Holds f stack) (hp : f.popAny = some (o, f')) :
    ∃ v rest, stack = v :: rest ∧ o = .known (.num v.type) ∧ Holds f' rest := by
  obtain ⟨hr, ho⟩ := h
  unfold Frame.popAny at hp
  cases stack with
  | nil =>
    rw [List.map_nil] at ho
    simp [ho, hr] at hp
  | cons v rest =>
    rw [List.map_cons] at ho
    simp only [ho, Option.some.injEq, Prod.mk.injEq] at hp
    obtain ⟨rfl, rfl⟩ := hp
    exact ⟨v, rest, rfl, rfl, hr, rfl⟩

theorem pop {t : OperandType} (h : Holds f stack) (hp : f.pop t = some f') :
    ∃ v rest, stack = v :: rest ∧ .num v.type = t ∧ Holds f' rest := by
  obtain ⟨o, ho, hs⟩ := pop_eq_some.mp hp
  obtain ⟨v, rest, rfl, rfl, h'⟩ := h.popAny ho
  refine ⟨v, rest, rfl, ?_, h'⟩
  simpa [Operand.serves, OperandType.serves] using hs

theorem popAll {ts : List OperandType} (h : Holds f stack) (hp : f.popAll ts = some f') :
    ∃ args rest, stack = args ++ rest ∧ typesOf args = ts ∧ Holds f' rest := by
  induction ts generalizing f' with
  | nil =>
    obtain rfl := Option.some.inj hp
    exact ⟨[], stack, rfl, rfl, h⟩
  | cons t ts ih =>
    rw [popAll_cons] at hp
    obtain ⟨g, hg, hp⟩ := Option.bind_eq_some_iff.mp hp
    obtain ⟨args, rest, rfl, ha, hg⟩ := ih hg
    obtain ⟨v, rest, rfl, hv, h'⟩ := hg.pop hp
    exact ⟨args ++ [v], rest, by simp, by rw [typesOf_concat, hv, ha], h'⟩

theorem push (h : Holds f stack) (v : Value) : Holds (f.push (.num v.type)) (v :: stack) :=
  ⟨h.reachable, by simp [Frame.push, Frame.pushOperand, h.operands]⟩

theorem pushAll {ts : List OperandType} {args : List Value} (h : Holds f stack)
    (ha : typesOf args = ts) : Holds (f.pushAll ts) (args ++ stack) := by
  induction ts generalizing f args stack with
  | nil =>
    obtain rfl : args = [] := by simpa using congrArg List.length ha
    exact h
  | cons t ts ih =>
    -- the first type is the one of the deepest value
    rcases List.eq_nil_or_concat args with rfl | ⟨rest, v, rfl⟩
    · cases ha
    · rw [List.concat_eq_append] at ha ⊢
      rw [typesOf_concat] at ha
      obtain ⟨rfl, hrest⟩ := List.cons.inj ha
      rw [pushAll_cons, List.append_assoc]
      exact ih (h.push v) hrest

theorem start (kind : FrameKind) (type : RegionType) {ts : List OperandType} {args : List Value}
    (ha : typesOf args = ts) : Holds (.start kind type ts) args := by
  refine ⟨rfl, ?_⟩
  simp [Frame.start, ← ha, typesOf, operandTypes, List.map_reverse]

theorem enter (kind : FrameKind) (result : ResultType) :
    Holds (.enter kind ⟨[], operandTypes result.types⟩) [] := start _ _ rfl

/-- Where a region may end, exactly its results are on the stack. -/
theorem isComplete (h : Holds f stack) (hc : f.isComplete) : typesOf stack = f.type.leaves := by
  obtain ⟨g, hg, he⟩ := (Option.any_eq_true _ _).mp hc
  obtain ⟨args, rest, rfl, ha, hg'⟩ := h.popAll hg
  obtain rfl : rest = [] := by
    have := List.isEmpty_iff.mp he
    rw [hg'.operands] at this
    exact List.map_eq_nil_iff.mp this
  rw [List.append_nil, ha]

end Holds

/-! ## 2. Signals and machines

What fits is defined along the data: answers, signals, states, machines, labels.  The definitions
say what the typing rules promise of each. -/

/-- A call ends as its signature says: with results of its types, with an exception that fits its
tag, or with a trap. A call that reaches the bound fits too, and one that is stuck does not. -/
def AnswerFits (tags : List Tag) (result : ResultType) : Answer → Prop
  | .returned values => typesOf values = operandTypes result.types
  | .raised e => e.fits tags
  | .trapped | .timeout => True
  | .stuck => False

/-- **A signal fits** the frames around a code, if control runs on with a stack as described. -/
def Fits (env : Env) (frames : Validation.State) (onNext : List Value → Prop) : Signal → Prop
  | .next stack => onNext stack
  | .branch label values => ∃ f, frames[label]? = some f ∧ typesOf values = f.labelTypes
  | .ret values => typesOf values = env.results
  | .raise _ e | .escape e => e.fits env.tags
  | .trap | .timeout => True
  | .stuck => False

variable {σ : Type}

/-- The globals have their types, one by one, and there are as many as are declared. -/
def GlobalsFit (env : Env) (w : World σ) : Prop :=
  w.globals.map Value.type = env.globals.map Global.type

/-- The locals and the globals have their types. Nothing is said of the memory, whose bytes have
none. -/
structure StateFits (env : Env) (st : WasmTrim.State σ) : Prop where
  locals : st.locals.map Value.type = env.locals
  globals : GlobalsFit env st.world

/-- An outcome fits, if its signal does and its state has everything of the right type. -/
def OutcomeFits (env : Env) (frames : Validation.State) (onNext : List Value → Prop)
    (o : Outcome σ) : Prop :=
  Fits env frames onNext o.1 ∧ StateFits env o.2

/-- **A machine fits** when it has the memory that is declared, and its calls end as their
signatures say. -/
structure MachineFits (env : Env) (M : Machine σ) : Prop where
  memory : env.hasMemory → M.hasMemory
  signatures : M.signatures = env.signatures
  tags : M.tags = env.tags
  results : M.results = env.result.arity
  call : ∀ {t : Nat} {s : Signature} {args : List Value} {w : World σ},
    env.signatures[t]? = some s → args.map Value.type = s.params → GlobalsFit env w →
      AnswerFits env.tags s.result (M.call t args w).1 ∧ GlobalsFit env (M.call t args w).2

/-- The labels around a code are those of the frames, and handlers have caught something. -/
def LabelsFit (env : Env) : List Label → Validation.State → Prop
  | [], [f] => f.kind = .block ∧ f.labelTypes = env.results
  | l :: labels, f :: outer =>
    l.region.labelArity = f.labelTypes.length ∧
      (f.kind = .catchArm ∨ f.kind = .catchAllArm → ∃ e, l.caught = some e ∧ e.fits env.tags) ∧
      LabelsFit env labels outer
  | _, _ => False

variable {env : Env} {f f' : Frame} {outer frames s : Validation.State} {labels : List Label}
  {M : Machine σ} {o : Op} {stack : List Value} {st : WasmTrim.State σ}

theorem LabelsFit.alike (h : LabelsFit env labels (f :: outer)) (ha : Alike f f') :
    LabelsFit env labels (f' :: outer) := by
  match labels, outer, h with
  | [], [], h => exact ⟨ha.kind.trans h.1, ha.labelTypes.trans h.2⟩
  | l :: labels, outer, ⟨h₁, h₂, h₃⟩ => exact ⟨ha.labelTypes ▸ h₁, fun hk => h₂ (ha.kind ▸ hk), h₃⟩

/-- A label takes as many values as its frame says. -/
theorem LabelsFit.labelArity? (hM : M.results = env.result.arity) : ∀ {labels : List Label}
    {frames : Validation.State} {k : Nat} {f : Frame}, LabelsFit env labels frames →
      frames[k]? = some f → M.labelArity? labels k = some f.labelTypes.length
  | [], [g], k, f, h, hk => by
    obtain ⟨rfl, rfl⟩ : k = 0 ∧ g = f := by
      cases k with
      | zero => exact ⟨rfl, Option.some.inj hk⟩
      | succ k => cases hk
    simp [Machine.labelArity?, regionsOf, Nesting.labelArity, h.2, hM, Env.results,
      ResultType.arity]
  | l :: labels, g :: outer, 0, f, h, hk => by
    obtain rfl : g = f := Option.some.inj hk
    simp [Machine.labelArity?, regionsOf, Nesting.labelArity, h.1]
  | l :: labels, g :: outer, k + 1, f, h, hk => by
    have houter := Setting.labelArity?_outer M [l] labels k
    rw [List.length_singleton, Nat.add_comm, List.singleton_append] at houter
    rw [houter]
    exact LabelsFit.labelArity? hM h.2.2 hk

/-- An enclosing handler has caught an exception, one that fits its tag, so there is something to
rethrow. -/
theorem LabelsFit.caught : ∀ {labels : List Label} {frames : Validation.State} {k : Nat}
    {f : Frame}, LabelsFit env labels frames → frames[k]? = some f →
      f.kind = .catchArm ∨ f.kind = .catchAllArm →
        ∃ e, (labels[k]?).bind Label.caught = some e ∧ e.fits env.tags
  | [], [g], k, f, h, hk, hf => by
    obtain rfl : g = f := by
      cases k with
      | zero => exact Option.some.inj hk
      | succ k => cases hk
    rw [h.1] at hf
    simp at hf
  | l :: labels, g :: outer, 0, f, h, hk, hf => by
    obtain rfl : g = f := Option.some.inj hk
    exact h.2.1 hf
  | l :: labels, g :: outer, k + 1, f, h, hk, hf => by
    have hk' : outer[k]? = some f := by simpa using hk
    simpa using LabelsFit.caught h.2.2 hk' hf

/-! ## 3. Operations

The cases are those of the steps of the checker.  Most operations take operands of given types and
leave results of given types; the others branch, call, return or throw. -/

theorem Fits.mono {onNext onNext' : List Value → Prop} {sig : Signal}
    (h : Fits env frames onNext sig) (hn : ∀ stack, onNext stack → onNext' stack) :
    Fits env frames onNext' sig := by
  cases sig with
  | next stack => exact hn stack h
  | _ => exact h

/-- A branch with the values on top of the stack fits. -/
theorem branch_fits (hM : M.results = env.result.arity) {onNext : List Value → Prop} {k : Nat}
    (hl : LabelsFit env labels frames) (hk : frames[k]? = some f) {args rest : List Value}
    (ha : typesOf args = f.labelTypes) :
    Fits env frames onNext (M.branch labels k (args ++ rest)) := by
  have hlen : f.labelTypes.length = args.length := by rw [← ha, length_typesOf]
  have hle : args.length ≤ (args ++ rest).length := by
    rw [List.length_append]
    omega
  rw [Machine.branch, hl.labelArity? hM hk, hlen]
  simp only [if_pos hle, List.take_left]
  exact ⟨f, hk, ha⟩

/-- What an operation on operands of the right types does. -/
def EffectFits (env : Env) (leaves : List ValueType) (e : Effect × WasmTrim.State σ) : Prop :=
  (e.1 = .trap ∨ ∃ values, e.1 = .push values ∧ typesOf values = operandTypes leaves) ∧
    StateFits env e.2

theorem getElem?_of_types {values : List Value} {ts : List ValueType} {i : Nat} {t : ValueType}
    (h : values.map Value.type = ts) (ht : ts[i]? = some t) :
    ∃ v, values[i]? = some v ∧ v.type = t := by
  rw [← h, List.getElem?_map] at ht
  exact Option.map_eq_some_iff.mp ht

theorem types_set {values : List Value} {ts : List ValueType} {i : Nat} {v : Value}
    (h : values.map Value.type = ts) (ht : ts[i]? = some v.type) :
    i < values.length ∧ (values.set i v).map Value.type = ts := by
  have hi : i < values.length := by
    have := (List.getElem?_eq_some_iff.mp ht).1
    rwa [← h, List.length_map] at this
  refine ⟨hi, ?_⟩
  rw [List.map_set, h]
  refine List.ext_getElem? fun j => ?_
  rw [List.getElem?_set]
  split
  · rename_i e
    subst e
    rw [if_pos (by rw [← h, List.length_map]; exact hi), ht]
  · rfl

theorem args_nil {args : List Value} (h : typesOf args = operandTypes []) : args = [] := by
  simpa using congrArg List.length h

theorem args_one {args : List Value} {t : ValueType} (h : typesOf args = operandTypes [t]) :
    ∃ v, args = [v] ∧ v.type = t := by
  obtain ⟨v, rfl⟩ : ∃ v, args = [v] :=
    List.length_eq_one_iff.mp (by simpa using congrArg List.length h)
  exact ⟨v, rfl, by simpa using typesOf_eq_iff.mp h⟩

theorem args_two {args : List Value} {t u : ValueType} (h : typesOf args = operandTypes [t, u]) :
    ∃ x y, args = [y, x] ∧ x.type = t ∧ y.type = u := by
  have hl : args.length = 2 := by simpa using congrArg List.length h
  match args, hl with
  | [y, x], _ => exact ⟨x, y, rfl, by simpa using typesOf_eq_iff.mp h⟩

theorem eq_i32_of_type {v : Value} (h : v.type = .i32) : ∃ x, v = .i32 x := by
  cases v with
  | i32 x => exact ⟨x, rfl⟩
  | _ => cases h

theorem EffectFits.push {leaves : List ValueType} {values : List Value}
    (h : values.reverse.map Value.type = leaves) (hst : StateFits env st) :
    EffectFits env leaves (.push values, st) :=
  ⟨.inr ⟨values, rfl, typesOf_eq_iff.mpr h⟩, hst⟩

theorem localGet_fits (hst : StateFits env st) {i : Nat} {t : ValueType}
    (ht : env.locals[i]? = some t) : EffectFits env [t] (M.act (.localGet i) [] st) := by
  obtain ⟨v, hv, rfl⟩ := getElem?_of_types hst.locals ht
  simp only [Machine.act, hv]
  exact .push rfl hst

theorem localSet_fits (hst : StateFits env st) {i : Nat} {v : Value}
    (ht : env.locals[i]? = some v.type) : EffectFits env [] (M.act (.localSet i) [v] st) := by
  obtain ⟨hi, hset⟩ := types_set hst.locals ht
  simp only [Machine.act, if_pos hi]
  exact .push rfl ⟨hset, hst.globals⟩

theorem localTee_fits (hst : StateFits env st) {i : Nat} {v : Value}
    (ht : env.locals[i]? = some v.type) : EffectFits env [v.type] (M.act (.localTee i) [v] st) := by
  obtain ⟨hi, hset⟩ := types_set hst.locals ht
  simp only [Machine.act, if_pos hi]
  exact .push rfl ⟨hset, hst.globals⟩

theorem globalGet_fits (hst : StateFits env st) {i : Nat} {g : Global}
    (hg : env.globals[i]? = some g) : EffectFits env [g.type] (M.act (.globalGet i) [] st) := by
  have ht : (env.globals.map Global.type)[i]? = some g.type := by
    rw [List.getElem?_map, hg]
    rfl
  obtain ⟨v, hv, e⟩ := getElem?_of_types hst.globals ht
  simp only [Machine.act, Machine.actOnWorld, hv]
  exact .push (by simp [e]) hst

theorem globalSet_fits (hst : StateFits env st) {i : Nat} {g : Global}
    (hg : env.globals[i]? = some g) {v : Value} (hv : v.type = g.type) :
    EffectFits env [] (M.act (.globalSet i) [v] st) := by
  have ht : (env.globals.map Global.type)[i]? = some v.type := by
    rw [List.getElem?_map, hg, hv]
    rfl
  obtain ⟨hi, hset⟩ := types_set hst.globals ht
  simp only [Machine.act, Machine.actOnWorld, if_pos hi]
  exact .push rfl ⟨hst.locals, hset⟩

/-- An operation on a memory that is there leaves the locals and the globals alone. -/
theorem onMemory_fits (hM : M.hasMemory) (hst : StateFits env st)
    {act : Memory → Effect × Memory} {leaves : List ValueType}
    (h : ∀ m, (act m).1 = .trap ∨
      ∃ values, (act m).1 = .push values ∧ typesOf values = operandTypes leaves) :
    EffectFits env leaves
      ((M.onMemory st.world act).1, { st with world := (M.onMemory st.world act).2 }) := by
  rw [Machine.onMemory, if_pos hM]
  exact ⟨h st.world.memory, hst.locals, hst.globals⟩

theorem load_fits (hM : M.hasMemory) (hst : StateFits env st) (a : Access) (arg : MemArg)
    (x : BitVec 32) : EffectFits env [a.type] (M.act (.load a arg) [.i32 x] st) := by
  refine onMemory_fits hM hst fun m => ?_
  split
  · exact .inr ⟨_, rfl, typesOf_eq_iff.mpr (by simp)⟩
  · exact .inl rfl

theorem store_fits (hM : M.hasMemory) (hst : StateFits env st) (a : Access) (arg : MemArg)
    (v : Value) (x : BitVec 32) : EffectFits env [] (M.act (.store a arg) [v, .i32 x] st) := by
  refine onMemory_fits hM hst fun m => ?_
  split
  · exact .inr ⟨_, rfl, rfl⟩
  · exact .inl rfl

theorem num_fits (hst : StateFits env st) {op : NumOp} {args : List Value}
    (ha : typesOf args = operandTypes op.operands) :
    EffectFits env [op.result] (M.act (.num op) args st) := by
  have hargs : args.reverse.map Value.type = op.operands := typesOf_eq_iff.mp ha
  rcases NumOp.compute?_typed M.floats hargs with e | ⟨v, e, hv⟩
  · simp only [Machine.act, Machine.actOnWorld, e]
    exact ⟨.inl rfl, hst⟩
  · simp only [Machine.act, Machine.actOnWorld, e]
    exact .push (by simp [hv]) hst

/-- **Operands of the right types** are turned into results of the right types, or the operation
traps. It never gets stuck; an access finds a memory, because the checker accepts it only where
there is one. -/
theorem act_fits {takes leaves : List ValueType} (hM : env.hasMemory → M.hasMemory)
    (hst : StateFits env st) (h : arrow? env o = some (takes, leaves)) (hc : ∀ t, o ≠ .call t)
    {args : List Value} (ha : typesOf args = operandTypes takes) :
    EffectFits env leaves (M.act o args st) := by
  cases o with
  | call t => exact absurd rfl (hc t)
  | nop | const _ =>
    obtain ⟨rfl, rfl⟩ := Prod.mk.inj (Option.some.inj h)
    obtain rfl := args_nil ha
    exact .push rfl hst
  | localGet i =>
    obtain ⟨t, ht, e⟩ := Option.map_eq_some_iff.mp h
    obtain ⟨rfl, rfl⟩ := Prod.mk.inj e
    obtain rfl := args_nil ha
    exact localGet_fits hst ht
  | localSet i =>
    obtain ⟨t, ht, e⟩ := Option.map_eq_some_iff.mp h
    obtain ⟨rfl, rfl⟩ := Prod.mk.inj e
    obtain ⟨v, rfl, rfl⟩ := args_one ha
    exact localSet_fits hst ht
  | localTee i =>
    obtain ⟨t, ht, e⟩ := Option.map_eq_some_iff.mp h
    obtain ⟨rfl, rfl⟩ := Prod.mk.inj e
    obtain ⟨v, rfl, rfl⟩ := args_one ha
    exact localTee_fits hst ht
  | globalGet i =>
    obtain ⟨g, hg, e⟩ := Option.map_eq_some_iff.mp h
    obtain ⟨rfl, rfl⟩ := Prod.mk.inj e
    obtain rfl := args_nil ha
    exact globalGet_fits hst hg
  | globalSet i =>
    obtain ⟨g, hg, e⟩ := Option.bind_eq_some_iff.mp h
    obtain ⟨-, e⟩ := Option.ite_none_right_eq_some.mp e
    obtain ⟨rfl, rfl⟩ := Prod.mk.inj (Option.some.inj e)
    obtain ⟨v, rfl, hv⟩ := args_one ha
    exact globalSet_fits hst hg hv
  | load a arg =>
    obtain ⟨hmem, e⟩ := Option.ite_none_right_eq_some.mp h
    obtain ⟨rfl, rfl⟩ := Prod.mk.inj (Option.some.inj e)
    obtain ⟨v, rfl, hv⟩ := args_one ha
    obtain ⟨x, rfl⟩ := eq_i32_of_type hv
    exact load_fits (hM hmem.2) hst a arg x
  | store a arg =>
    obtain ⟨hmem, e⟩ := Option.ite_none_right_eq_some.mp h
    obtain ⟨rfl, rfl⟩ := Prod.mk.inj (Option.some.inj e)
    obtain ⟨v, y, rfl, hv, -⟩ := args_two ha
    obtain ⟨x, rfl⟩ := eq_i32_of_type hv
    exact store_fits (hM hmem.2) hst a arg y x
  | memorySize =>
    obtain ⟨hmem, e⟩ := Option.ite_none_right_eq_some.mp h
    obtain ⟨rfl, rfl⟩ := Prod.mk.inj (Option.some.inj e)
    obtain rfl := args_nil ha
    exact onMemory_fits (hM hmem) hst fun m => .inr ⟨_, rfl, rfl⟩
  | memoryGrow =>
    obtain ⟨hmem, e⟩ := Option.ite_none_right_eq_some.mp h
    obtain ⟨rfl, rfl⟩ := Prod.mk.inj (Option.some.inj e)
    obtain ⟨v, rfl, hv⟩ := args_one ha
    obtain ⟨x, rfl⟩ := eq_i32_of_type hv
    exact onMemory_fits (hM hmem) hst fun m => .inr ⟨_, rfl, rfl⟩
  | num op =>
    obtain ⟨rfl, rfl⟩ := Prod.mk.inj (Option.some.inj h)
    exact num_fits hst ha
  | _ => cases h

theorem stackEffect?_of_arrow? {takes leaves : List ValueType}
    (h : arrow? env o = some (takes, leaves)) (hc : ∀ t, o ≠ .call t) :
    o.stackEffect? = some (takes.length, leaves.length) := by
  cases o with
  | call t => exact absurd rfl (hc t)
  | nop | const v | num op =>
    obtain ⟨rfl, rfl⟩ := Prod.mk.inj (Option.some.inj h)
    rfl
  | localGet i | localSet i | localTee i | globalGet i =>
    obtain ⟨t, -, e⟩ := Option.map_eq_some_iff.mp h
    obtain ⟨rfl, rfl⟩ := Prod.mk.inj e
    rfl
  | globalSet i =>
    obtain ⟨g, -, e⟩ := Option.bind_eq_some_iff.mp h
    split at e
    · obtain ⟨rfl, rfl⟩ := Prod.mk.inj (Option.some.inj e)
      rfl
    · cases e
  | load a arg | store a arg | memorySize | memoryGrow =>
    simp only [arrow?] at h
    split at h
    · obtain ⟨rfl, rfl⟩ := Prod.mk.inj (Option.some.inj h)
      rfl
    · cases h
  | _ => cases h

theorem getElem?_frames (h : f'.labelTypes = f.labelTypes) {k : Nat} {t : Frame}
    (ht : (f' :: outer)[k]? = some t) :
    ∃ t', (f :: outer)[k]? = some t' ∧ t'.labelTypes = t.labelTypes := by
  cases k with
  | zero =>
    obtain rfl : f' = t := Option.some.inj ht
    exact ⟨f, rfl, h.symm⟩
  | succ k => exact ⟨t, ht, rfl⟩

/-- A call fits, if its end is used as the signature says. -/
theorem invokeWith_fits (H : MachineFits env M) {t : Nat} {sig : Signature} {args rest : List Value}
    {onNext : List Value → Prop} (ht : env.signatures[t]? = some sig)
    (ha : typesOf args = operandTypes sig.params) (hst : StateFits env st)
    {onReturn : ResultType → List Value → List Value → Signal} {onRaise : Exception → Signal}
    (hreturn : ∀ values, typesOf values = operandTypes sig.result.types →
      Fits env frames onNext (onReturn sig.result values rest))
    (hraise : ∀ e : Exception, e.fits env.tags → Fits env frames onNext (onRaise e)) :
    OutcomeFits env frames onNext (M.invokeWith t (args ++ rest) st onReturn onRaise) := by
  have hlen : sig.params.length = args.length := by simpa using (congrArg List.length ha).symm
  have hle : args.length ≤ (args ++ rest).length := by
    rw [List.length_append]
    omega
  unfold Machine.invokeWith
  simp only [H.signatures, ht, hlen, if_pos hle, List.take_left, List.drop_left]
  obtain ⟨hfits, hglobals⟩ := H.call (M := M) ht (typesOf_eq_iff.mp ha) hst.globals
  refine ⟨?_, hst.locals, hglobals⟩
  generalize M.call t args.reverse st.world = a at hfits
  obtain ⟨answer, w⟩ := a
  cases answer with
  | returned values => exact hreturn values hfits
  | raised e => exact hraise e hfits
  | trapped | timeout => trivial
  | stuck => exact hfits.elim

/-- An operation from which control does not run on fits. -/
theorem stop_fits (H : MachineFits env M) (hl : LabelsFit env labels frames)
    (hst : StateFits env st)
    {onNext : List Value → Prop} {takes : List OperandType} (h : stops? env frames o = some takes)
    {args rest : List Value} (ha : typesOf args = takes) :
    OutcomeFits env frames onNext (M.perform labels o (args ++ rest) st) := by
  have hle : args.length ≤ (args ++ rest).length := by
    rw [List.length_append]
    omega
  cases o with
  | unreachable => exact ⟨trivial, hst⟩
  | br label =>
    obtain ⟨target, ht, rfl⟩ := Option.map_eq_some_iff.mp h
    exact ⟨branch_fits H.results hl ht ha, hst⟩
  | ret =>
    obtain rfl := Option.some.inj h
    have hlen : M.results = args.length := by
      rw [H.results, ← length_typesOf, ha, Env.results, List.length_map]
      rfl
    refine ⟨?_, hst⟩
    simp only [Machine.perform, hlen, if_pos hle, List.take_left]
    exact ha
  | returnCall t =>
    obtain ⟨sig, ht, e⟩ := Option.bind_eq_some_iff.mp h
    split at e
    · rename_i hr
      obtain rfl := Option.some.inj e
      refine invokeWith_fits H ht ha hst (fun values hv => ?_) fun x hx => ?_
      · have hlen : values.length = M.results := by
          rw [H.results, ← hr, ← length_typesOf, hv, length_operandTypes]
          rfl
        rw [if_pos hlen]
        exact hv.trans (by rw [hr]; rfl)
      · split <;> exact hx
    · cases e
  | throwTag tag =>
    obtain ⟨t, ht, rfl⟩ := Option.map_eq_some_iff.mp h
    have hlen : t.params.length = args.length := by simpa using (congrArg List.length ha).symm
    simp only [Machine.perform, H.tags, ht, hlen, if_pos hle, List.take_left]
    refine ⟨?_, hst⟩
    simpa [Fits, Exception.fits, ht] using typesOf_eq_iff.mp ha
  | rethrow label =>
    obtain ⟨target, ht, e⟩ := Option.bind_eq_some_iff.mp h
    split at e
    · rename_i hk
      obtain ⟨x, hx, hfits⟩ := hl.caught ht hk
      simp only [Machine.perform, hx]
      exact ⟨hfits, hst⟩
    · cases e
  | _ => cases h

/-- **An operation on operands of given types** leaves values of the types it is said to leave, or
traps or throws what fits. -/
theorem arrow_fits (H : MachineFits env M) (hst : StateFits env st)
    (h : arrow? env o = some (takes, leaves)) (ha : typesOf args = operandTypes takes)
    (hf' : Holds f' rest) :
    OutcomeFits env (f :: outer)
      (fun stack => ∃ g, f'.pushAll (operandTypes leaves) :: outer = g :: outer ∧ Holds g stack)
      (M.perform labels o (args ++ rest) st) := by
  by_cases hc : ∃ t, o = .call t
  · obtain ⟨t, rfl⟩ := hc
    obtain ⟨sig, ht, e⟩ := Option.map_eq_some_iff.mp h
    obtain ⟨rfl, rfl⟩ := Prod.mk.inj e
    refine invokeWith_fits H ht ha hst (fun values hv => ?_) fun e he => he
    have hlen : values.length = sig.result.arity := by
      simpa [ResultType.arity] using congrArg List.length hv
    rw [if_pos hlen]
    exact ⟨_, rfl, hf'.pushAll hv⟩
  · have hc : ∀ t, o ≠ .call t := fun t e => hc ⟨t, e⟩
    have hlen : takes.length = args.length := by simpa using (congrArg List.length ha).symm
    have hle : args.length ≤ (args ++ rest).length := by
      rw [List.length_append]
      omega
    rw [Setting.perform_of_stackEffect? M (stackEffect?_of_arrow? h hc), Machine.apply, hlen,
      if_pos hle, List.take_left, List.drop_left]
    obtain ⟨heffect, hst'⟩ := act_fits H.memory hst h hc ha
    generalize M.act o args st = e at heffect hst'
    obtain ⟨e, st'⟩ := e
    rcases heffect with rfl | ⟨values, rfl, hv⟩
    · exact ⟨trivial, hst'⟩
    · exact ⟨⟨_, rfl, hf'.pushAll hv⟩, hst'⟩

/-- **Every plain step of the checker is answered** by what the operation does: it runs on with a
stack that the next frame describes, or leaves with what its goal takes. -/
theorem perform_fits (H : MachineFits env M) (hl : LabelsFit env labels (f :: outer))
    (hs : Holds f stack) (hst : StateFits env st) (h : Step env f outer o s) (ho : o.isPlain) :
    OutcomeFits env (f :: outer) (fun stack => ∃ f', s = f' :: outer ∧ Holds f' stack)
      (M.perform labels o stack st) := by
  cases h with
  | @arrow _ takes leaves f' h hp =>
    obtain ⟨args, rest, rfl, ha, hf'⟩ := hs.popAll hp
    exact arrow_fits H hst h ha hf'
  | @stop _ takes f' h hp =>
    obtain ⟨args, rest, rfl, ha, -⟩ := hs.popAll hp
    exact stop_fits H hl hst h ha
  | @brIf label target f' f'' ht hc hp =>
    obtain ⟨v, rest, rfl, hv, hf'⟩ := hs.pop hc
    obtain ⟨args, rest, rfl, ha, hf''⟩ := hf'.popAll hp
    obtain ⟨c, rfl⟩ := eq_i32_of_type (OperandType.num.inj hv)
    refine ⟨?_, hst⟩
    simp only [Machine.perform]
    split
    · exact ⟨_, rfl, hf''.pushAll ha⟩
    · exact branch_fits H.results hl ht ha
  | @brTable targets fallback last f' f'' hc hlast htargets hp =>
    obtain ⟨v, rest, rfl, hv, hf'⟩ := hs.pop hc
    obtain ⟨c, rfl⟩ := eq_i32_of_type (OperandType.num.inj hv)
    refine ⟨?_, hst⟩
    simp only [Machine.perform]
    -- whatever label is chosen, its values are on the stack
    obtain ⟨target, htarget, f₃, hf₃⟩ : ∃ target, (f' :: outer)[targets.getD c.toNat fallback]?
        = some target ∧ ∃ f₃, f'.popAll target.labelTypes = some f₃ := by
      rw [List.getD_eq_getElem?_getD]
      cases hc : targets[c.toNat]? with
      | none => exact ⟨last, hlast, f'', hp⟩
      | some label =>
        obtain ⟨target, htarget, -, hpop⟩ := htargets label (List.mem_of_getElem? hc)
        exact ⟨target, htarget, Option.isSome_iff_exists.mp hpop⟩
    obtain ⟨args, rest, rfl, ha, -⟩ := hf'.popAll hf₃
    obtain ⟨target', htarget', e⟩ := getElem?_frames (Alike.pop hc).labelTypes htarget
    exact branch_fits H.results hl htarget' (ha.trans e.symm)
  | @drop x f' hp =>
    obtain ⟨v, rest, rfl, -, hf'⟩ := hs.popAny hp
    exact ⟨⟨f', rfl, hf'⟩, hst⟩
  | @select a b x f₁ f₂ f₃ hc ha hb hj =>
    obtain ⟨v, rest, rfl, hv, h₁⟩ := hs.pop hc
    obtain ⟨c, rfl⟩ := eq_i32_of_type (OperandType.num.inj hv)
    obtain ⟨y, rest, rfl, rfl, h₂⟩ := h₁.popAny ha
    obtain ⟨z, rest, rfl, rfl, h₃⟩ := h₂.popAny hb
    have hjoin : y.type = z.type ∧ x = .known (.num y.type) := by
      simp only [Operand.join?] at hj
      split at hj
      · rename_i e
        exact ⟨OperandType.num.inj e, (Option.some.inj hj).symm⟩
      · cases hj
    obtain ⟨e, rfl⟩ := hjoin
    refine ⟨⟨_, rfl, ?_⟩, hst⟩
    -- both have the type of the first
    by_cases hzero : c = 0
    · rw [if_pos hzero]
      exact h₃.push y
    · rw [if_neg hzero, e]
      exact h₃.push z
  | enter | elseArm | catchTag | catchAll | close | delegate => cases ho

/-! ## 4. Codes

By induction on the structure of a code, which is that of its regions.  A loop adds an induction of
its own, on the number of rounds that it is still allowed. -/

theorem Fits.relabel {onNext : List Value → Prop} {sig : Signal} (hf : f'.labelTypes = f.labelTypes)
    (h : Fits env (f' :: outer) onNext sig) : Fits env (f :: outer) onNext sig := by
  cases sig with
  | branch label values =>
    obtain ⟨t, ht, hv⟩ := h
    obtain ⟨t', ht', e⟩ := getElem?_frames hf ht
    exact ⟨t', ht', hv.trans e.symm⟩
  | _ => exact h

theorem OutcomeFits.andThen {onNext onNext' : List Value → Prop} {x : Outcome σ}
    {k : List Value → WasmTrim.State σ → Outcome σ} (h : OutcomeFits env frames onNext x)
    (hk : ∀ stack st, onNext stack → StateFits env st →
      OutcomeFits env frames onNext' (k stack st)) :
    OutcomeFits env frames onNext' (x.andThen k) := by
  obtain ⟨sig, st⟩ := x
  cases sig with
  | next stack => exact hk stack st h.1 h.2
  | _ => exact h

/-- Outside of a region a signal fits the frame around it. -/
theorem Fits.leave {g : Frame} {result : ResultType} {rest : List Value} {sig : Signal}
    (h : Fits env (g :: f :: outer) (fun values => typesOf values = operandTypes result.types) sig)
    (hg : ∀ values, sig = .branch 0 values → g.labelTypes = operandTypes result.types)
    (hf : Holds f rest) :
    Fits env (f :: outer) (Holds (f.pushAll (operandTypes result.types)))
      (sig.leave result.arity rest) := by
  cases sig with
  | next values =>
    have h : typesOf values = operandTypes result.types := h
    have hlen : values.length = result.arity := by
      simpa [ResultType.arity] using congrArg List.length h
    simp only [Signal.leave, if_pos hlen]
    exact hf.pushAll h
  | branch label values =>
    obtain ⟨t, ht, hv⟩ := h
    cases label with
    | zero =>
      obtain rfl : g = t := Option.some.inj ht
      exact hf.pushAll (hv.trans (hg values rfl))
    | succ label => exact ⟨t, ht, hv⟩
  | raise skip e => cases skip <;> exact h
  | _ => exact h

/-- The frames in which an arm of a region runs. -/
theorem LabelsFit.arm {g : Frame} {r : Region} {trigger : Option Exception}
    (hl : LabelsFit env labels outer) (hr : r.labelArity = g.labelTypes.length)
    (hcaught : g.kind = .catchArm ∨ g.kind = .catchAllArm →
      ∃ e, trigger = some e ∧ e.fits env.tags) :
    LabelsFit env (⟨r, trigger⟩ :: labels) (g :: outer) := ⟨hr, hcaught, hl⟩

/-- What selects an arm of a region whose current frame is given: a condition that did not hold,
or an exception. -/
def TriggerFits (env : Env) (g : Frame) : Option Exception → Prop
  | none => g.kind = .thenArm
  | some e => e.fits env.tags

theorem TriggerFits.alike {g g' : Frame} (h : Alike g g') :
    ∀ {trigger : Option Exception}, TriggerFits env g trigger → TriggerFits env g' trigger
  | none, ht => h.kind.trans ht
  | some _, ht => ht

/-- The arm that is selected starts with what its frame says. -/
theorem armStack?_fits {g g' : Frame} {trigger : Option Exception} {head : Op}
    (hg : g.kind ≠ .loop) (htakes : g.type.takes = []) (ht : TriggerFits env g trigger)
    (hs : Step env g outer head (g' :: outer)) (hh : head.startsArm) :
    g'.type = g.type ∧ g'.labelTypes = g.labelTypes ∧ g'.kind ≠ .loop ∧
      (armStack? trigger head = none → TriggerFits env g' trigger) ∧
      ∀ stack, armStack? trigger head = some stack → Holds g' stack ∧
        (g'.kind = .catchArm ∨ g'.kind = .catchAllArm →
          ∃ e, trigger = some e ∧ e.fits env.tags) := by
  have hlabels : ∀ kind : FrameKind, kind ≠ .loop → ∀ ops : List OperandType,
      (Frame.start kind g.type ops).labelTypes = g.labelTypes := by
    intro kind hk ops
    have e : g.labelTypes = g.type.leaves := by
      unfold Frame.labelTypes
      split
      · contradiction
      · rfl
    rw [e]
    unfold Frame.labelTypes
    split
    · contradiction
    · rfl
  generalize hs' : g' :: outer = s' at hs
  cases hs with
  | elseArm hk hc =>
    obtain ⟨rfl, -⟩ := List.cons.inj hs'
    refine ⟨rfl, hlabels _ (by simp) _, by simp [Frame.enter, Frame.start], fun hn => ?_, ?_⟩
    · cases trigger with
      | none => cases hn
      | some e => exact ht
    · intro stack hstack
      cases trigger with
      | none =>
        obtain rfl := Option.some.inj hstack
        exact ⟨.start _ _ (by rw [htakes]; rfl), fun h => by simp [Frame.enter, Frame.start] at h⟩
      | some e => cases hstack
  | @catchTag tag t htag hk hc =>
    obtain ⟨rfl, -⟩ := List.cons.inj hs'
    refine ⟨rfl, hlabels _ (by simp) _, by simp [Frame.start], fun _ => ?_, ?_⟩
    · cases trigger with
      | none => exact absurd hk (by rw [show g.kind = .thenArm from ht]; decide)
      | some e => exact ht
    · intro stack hstack
      cases trigger with
      | none => cases hstack
      | some e =>
        simp only [armStack?] at hstack
        split at hstack
        · rename_i he
          obtain rfl := Option.some.inj hstack
          refine ⟨.start _ _ (typesOf_eq_iff.mpr ?_), fun _ => ⟨e, rfl, ht⟩⟩
          have hfits : e.fits env.tags := ht
          simpa [Exception.fits, he, htag] using hfits
        · cases hstack
  | catchAll hk hc =>
    obtain ⟨rfl, -⟩ := List.cons.inj hs'
    refine ⟨rfl, hlabels _ (by simp) _, by simp [Frame.start], fun _ => ?_, ?_⟩
    · cases trigger with
      | none => exact absurd hk (by rw [show g.kind = .thenArm from ht]; decide)
      | some e => exact ht
    · intro stack hstack
      cases trigger with
      | none => cases hstack
      | some e =>
        obtain rfl := Option.some.inj hstack
        exact ⟨.start _ _ rfl, fun _ => ⟨e, rfl, ht⟩⟩
  | arrow h _ => exact absurd (isPlain_of_arrow? h) (by simp [Op.isPlain, hh])
  | stop h _ => exact absurd (isPlain_of_stops? h) (by simp [Op.isPlain, hh])
  | _ => cases hh

theorem ofRegion_ne_loop {kind : RegionKind} (h : kind ≠ .loop) :
    FrameKind.ofRegion kind ≠ .loop := by
  cases kind with
  | loop => exact absurd rfl h
  | block | ifThen | tryCatch => nofun

/-- **A region fits** when what it runs leaves the region's results, for whatever reason it is
run. -/
theorem region_fits {kind : RegionKind} {result : ResultType}
    {first : WasmTrim.State σ → Outcome σ}
    {other : Option Exception → WasmTrim.State σ → Outcome σ} {args below : List Value}
    {st : WasmTrim.State σ}
    (hfirst : ∀ st, StateFits env st → OutcomeFits env
      (.enter (.ofRegion kind) ⟨[], operandTypes result.types⟩ :: f :: outer)
      (fun values => typesOf values = operandTypes result.types) (first st))
    (hother : kind ≠ .loop → ∀ trigger st,
      TriggerFits env (.enter (.ofRegion kind) ⟨[], operandTypes result.types⟩) trigger →
      StateFits env st → OutcomeFits env
        (.enter (.ofRegion kind) ⟨[], operandTypes result.types⟩ :: f :: outer)
        (fun values => typesOf values = operandTypes result.types) (other trigger st))
    (hargs : typesOf args = regionCondition kind) (hf : Holds f below) (hst : StateFits env st) :
    OutcomeFits env (f :: outer) (Holds (f.pushAll (operandTypes result.types)))
      (M.region ⟨kind, result⟩ first other (args ++ below) st) := by
  rcases M.region_rule (r := ⟨kind, result⟩) first other (args ++ below) st hfirst
    (fun hk st hst => hother (by rw [show kind = .ifThen from hk]; simp) none st
      (by rw [show kind = .ifThen from hk]; rfl) hst)
    (fun hk e st he => hother (by rw [show kind = .tryCatch from hk]; simp) (some e) st he.1 he.2)
    (fun _ _ _ h => h.2) (fun st hst => ⟨trivial, hst⟩) hst with
    ⟨hk, hne, -⟩ | ⟨sig, st', e, ⟨hsig, hst'⟩, hloop, -⟩
  · -- the condition of an `if` is on the stack
    obtain rfl : kind = .ifThen := hk
    obtain ⟨v, rfl, hv⟩ := args_one (t := .i32) hargs
    obtain ⟨c, rfl⟩ := eq_i32_of_type hv
    exact absurd rfl (hne c below)
  · have hdrop : (args ++ below).drop kind.operandCount = below := by
      have hlen : kind.operandCount = args.length := by
        rw [← length_typesOf, hargs]
        cases kind <;> rfl
      rw [hlen, List.drop_left]
    rw [e, hdrop]
    refine ⟨hsig.leave (fun values hb => ?_) hf, hst'⟩
    have hk : kind ≠ .loop := fun hk => hloop hk values hb
    unfold Frame.labelTypes
    split
    · rename_i hloop'
      exact absurd hloop' (ofRegion_ne_loop hk)
    · rfl

mutual

/-- **A typed code fits.** From a stack that the first frame describes it runs on with one that the
last frame describes, or ends in a way that fits the frames around it. -/
theorem eval_fits (H : MachineFits env M) : ∀ {c : Code}, c.WellFormed → ∀ {f f' : Frame}
    {outer : Validation.State} {labels : List Label} {stack : List Value} {st : WasmTrim.State σ},
    checkAll env (f :: outer) c.ops = some (f' :: outer) → LabelsFit env labels (f :: outer) →
      Holds f stack → StateFits env st →
        OutcomeFits env (f :: outer) (Holds f') (c.eval M labels stack st)
  | .done, _, f, f', outer, labels, stack, st, h, hl, hs, hst => by
    obtain ⟨rfl, -⟩ := List.cons.inj (Option.some.inj h)
    rw [Code.eval]
    exact ⟨hs, hst⟩
  | .op o rest, hc, f, f', outer, labels, stack, st, h, hl, hs, hst => by
    rw [Code.WellFormed] at hc
    rw [Code.ops, checkAll_cons] at h
    obtain ⟨t, ht, h⟩ := Option.bind_eq_some_iff.mp h
    have hstep := step_of_checkOp ht
    obtain ⟨f₁, rfl, h₁⟩ := hstep.of_isPlain hc.1
    rw [Code.eval]
    refine (perform_fits H hl hs hst hstep hc.1).andThen fun stack st hstack hst => ?_
    obtain ⟨_, e, hstack⟩ := hstack
    obtain ⟨rfl, -⟩ := List.cons.inj e
    obtain ⟨hout, hst'⟩ := eval_fits H hc.2 h (hl.alike h₁) hstack hst
    exact ⟨hout.relabel h₁.labelTypes, hst'⟩
  | .region kind result body arms rest, hc, f, f', outer, labels, stack, st, h, hl, hs, hst => by
    obtain ⟨f₁, g, hp, hbody, hg, harms, hrest⟩ := checkAll_region hc h
    rw [Code.WellFormed] at hc
    obtain ⟨args, below, rfl, hargs, hf₁⟩ := hs.popAll hp
    have h₁ := Alike.popAll hp
    have hcomplete := (checkAll_arms hc.2.2.1 harms).2
    have hlabel : (⟨kind, result⟩ : Region).labelArity
        = (Frame.enter (.ofRegion kind) ⟨[], operandTypes result.types⟩).labelTypes.length := by
      cases kind <;> simp [Region.labelArity, Frame.labelTypes, Frame.enter, Frame.start,
        FrameKind.ofRegion, ResultType.arity]
    have hfirst : ∀ st, StateFits env st → OutcomeFits env
        (.enter (.ofRegion kind) ⟨[], operandTypes result.types⟩ :: f₁ :: outer)
        (fun values => typesOf values = operandTypes result.types)
        (body.eval M (⟨⟨kind, result⟩, none⟩ :: labels) [] st) := by
      intro st hst
      have hinner : LabelsFit env (⟨⟨kind, result⟩, none⟩ :: labels)
          (.enter (.ofRegion kind) ⟨[], operandTypes result.types⟩ :: f₁ :: outer) := by
        refine (hl.alike h₁).arm hlabel fun hk => ?_
        cases kind <;> simp [Frame.enter, Frame.start, FrameKind.ofRegion] at hk
      obtain ⟨hout, hst'⟩ := eval_fits H hc.2.1 hbody hinner (.enter _ result) hst
      refine ⟨hout.mono fun values hv => ?_, hst'⟩
      rw [hv.isComplete hcomplete, hg.type]
      rfl
    have harm : kind ≠ .loop → ∀ trigger st,
        TriggerFits env (.enter (.ofRegion kind) ⟨[], operandTypes result.types⟩) trigger →
        StateFits env st → OutcomeFits env
          (.enter (.ofRegion kind) ⟨[], operandTypes result.types⟩ :: f₁ :: outer)
          (fun values => typesOf values = operandTypes result.types)
          (arms.eval M ⟨kind, result⟩ labels trigger st) := by
      intro hk trigger st ht hst
      obtain ⟨hout, hst'⟩ := evalArms_fits H hc.2.2.1 harms (hl.alike h₁)
        (hlabel.trans (by rw [hg.labelTypes])) (by rw [hg.kind]; exact ofRegion_ne_loop hk)
        (by rw [hg.type]; rfl) (ht.alike hg) hst
      refine ⟨(hout.relabel hg.labelTypes).mono fun values hv => ?_, hst'⟩
      rw [hv, hg.type]
      rfl
    obtain ⟨hregion, hst'⟩ := region_fits hfirst harm hargs hf₁ hst
    rw [Code.eval]
    refine OutcomeFits.andThen ⟨hregion.relabel h₁.labelTypes, hst'⟩ fun stack st hstack hst => ?_
    obtain ⟨hout, hst'⟩ :=
      eval_fits H hc.2.2.2 hrest (hl.alike (h₁.trans (.pushAll _ _))) hstack hst
    exact ⟨hout.relabel (h₁.trans (.pushAll _ _)).labelTypes, hst'⟩

/-- **A typed arm fits**, whatever has selected it: a condition that did not hold, or an exception,
whose values are then of the types that its tag declares. -/
theorem evalArms_fits (H : MachineFits env M) : ∀ {a : Arms}, a.WellFormed → ∀ {g : Frame}
    {outer s : Validation.State} {labels : List Label} {r : Region} {trigger : Option Exception}
    {st : WasmTrim.State σ}, checkAll env (g :: outer) a.ops = some s → LabelsFit env labels outer →
      r.labelArity = g.labelTypes.length → g.kind ≠ .loop → g.type.takes = [] →
        TriggerFits env g trigger → StateFits env st →
          OutcomeFits env (g :: outer) (fun values => typesOf values = g.type.leaves)
            (a.eval M r labels trigger st)
  | .close, _, g, outer, s, labels, r, trigger, st, h, hl, hr, hg, htakes, ht, hst => by
    rw [Arms.ops, checkAll_cons] at h
    obtain ⟨t, ht', h⟩ := Option.bind_eq_some_iff.mp h
    cases trigger with
    | none =>
      have hk : g.kind = .thenArm := ht
      rw [Arms.eval]
      refine ⟨?_, hst⟩
      -- without an `else`, the region leaves what it takes
      have hc := (checkOp_close ht').1
      simp only [Frame.isClosable, hk, Bool.and_eq_true, ne_eq, not_true_eq_false,
        decide_false, Bool.false_or] at hc
      have hempty : Holds (.enter .elseArm g.type) [] := .start _ _ (by rw [htakes]; rfl)
      exact hempty.isComplete hc.2
    | some e =>
      rw [Arms.eval]
      exact ⟨ht, hst⟩
  | .delegate label, _, g, outer, s, labels, r, trigger, st, h, hl, hr, hg, htakes, ht, hst => by
    rw [Arms.ops, checkAll_cons] at h
    obtain ⟨t, ht', h⟩ := Option.bind_eq_some_iff.mp h
    cases trigger with
    | none =>
      have hk : g.kind = .thenArm := ht
      cases step_of_checkOp ht' with
      | delegate hk' _ _ =>
        rw [hk] at hk'
        cases hk'
      | arrow ha _ | stop ha _ => cases ha
    | some e =>
      rw [Arms.eval]
      exact ⟨ht, hst⟩
  | .arm head body more, ha, g, outer, s, labels, r, trigger, st, h, hl, hr, hg, htakes, ht,
    hst => by
    rw [Arms.WellFormed] at ha
    rw [Arms.ops, checkAll_cons] at h
    obtain ⟨t, ht', h⟩ := Option.bind_eq_some_iff.mp h
    have hstep := step_of_checkOp ht'
    obtain ⟨g₁, rfl, -, -⟩ := hstep.of_startsArm ha.1
    obtain ⟨htype, hlabels, hloop, hmore, hrun⟩ := armStack?_fits hg htakes ht hstep ha.1
    rw [checkAll_append] at h
    obtain ⟨t, ht'', h⟩ := Option.bind_eq_some_iff.mp h
    obtain ⟨g₂, rfl, h₂⟩ := checkAll_code ha.2.1 ht''
    have hr' : r.labelArity = g₁.labelTypes.length := by rw [hlabels, hr]
    rw [Arms.eval]
    cases hstack : armStack? trigger head with
    | none =>
      have htrigger : TriggerFits env g₂ trigger := by
        have := hmore hstack
        cases trigger with
        | none => exact h₂.kind.trans this
        | some e => exact this
      obtain ⟨hout, hst'⟩ := evalArms_fits H ha.2.2 h hl (by rw [h₂.labelTypes, hr'])
        (by rw [h₂.kind]; exact hloop) (by rw [h₂.type, htype, htakes]) htrigger hst
      refine ⟨(hout.relabel (h₂.labelTypes.trans hlabels)).mono fun values hv => ?_, hst'⟩
      rw [hv, h₂.type, htype]
    | some stack =>
      obtain ⟨hholds, hcaught⟩ := hrun stack hstack
      obtain ⟨hout, hst'⟩ := eval_fits H ha.2.1 ht'' (hl.arm hr' hcaught) hholds hst
      -- the arm ends where its region may end
      have hcomplete := (checkAll_arms ha.2.2 h).2
      refine ⟨(hout.relabel hlabels).mono fun values hv => ?_, hst'⟩
      rw [hv.isComplete hcomplete, h₂.type, htype]

end

/-! ## 5. Functions and programs

A function starts with its arguments in its first locals and zeros in the others, all of the right
types. -/

/-- What a machine offers to the functions of a program. -/
structure Offers (s : Surroundings) (M : Machine σ) : Prop where
  memory : s.hasMemory → M.hasMemory
  signatures : M.signatures = s.signatures
  tags : M.tags = s.tags
  call : ∀ {t : Nat} {sig : Signature} {args : List Value} {w : World σ},
    s.signatures[t]? = some sig → args.map Value.type = sig.params →
      w.globals.map Value.type = s.globals.map Global.type →
        AnswerFits s.tags sig.result (M.call t args w).1 ∧
          (M.call t args w).2.globals.map Value.type = s.globals.map Global.type

/-- **A typed function ends as its signature says**: with results of its type, with an exception
that fits its tag, with a trap, or at the bound on rounds and calls. The globals keep their types
whichever it is. -/
theorem run_fits {s : Surroundings} {f : Function} (hf : f.Typed s) {M : Machine σ}
    (H : Offers s M) {args : List Value} {w : World σ} (ha : args.map Value.type = f.params)
    (hw : w.globals.map Value.type = s.globals.map Global.type) :
    AnswerFits s.tags f.result (f.run M args w).1 ∧
      (f.run M args w).2.globals.map Value.type = s.globals.map Global.type := by
  obtain ⟨last, hcheck, hclosable, hlast⟩ := exists_last hf
  obtain ⟨c, hc⟩ := Option.isSome_iff_exists.mp hf.parses
  obtain ⟨hops, hwf⟩ := Code.ops_of_parse hc
  rw [← hops] at hcheck
  have HM : MachineFits (f.env s) { M with results := f.result.arity } :=
    ⟨H.memory, H.signatures, H.tags, rfl, H.call⟩
  have hst : StateFits (f.env s) (f.entryState args w) := by
    refine ⟨?_, hw⟩
    simp only [Function.entryState, List.map_append, List.map_map, ha]
    have hz : (Value.type ∘ Value.zero) = id := funext Value.type_zero
    rw [hz, List.map_id]
    rfl
  obtain ⟨hout, hst'⟩ := eval_fits HM hwf hcheck
    (show LabelsFit _ [] [_] from ⟨rfl, rfl⟩) (.enter .block f.result) hst
  simp only [Function.run, hc]
  refine ⟨?_, hst'.globals⟩
  generalize c.eval { M with results := f.result.arity } [] [] (f.entryState args w) = out at hout
  obtain ⟨sig, st⟩ := out
  cases sig with
  | next values =>
    have hv : typesOf values = operandTypes f.result.types := by
      rw [Holds.isComplete hout (Bool.and_eq_true_iff.mp hclosable).1, hlast.type]
      rfl
    have hlen : values.length = f.result.arity := by
      simpa [ResultType.arity] using congrArg List.length hv
    simp only [Signal.answer, if_pos hlen]
    exact hv
  | branch label values =>
    obtain ⟨t, ht, hv⟩ := hout
    cases label with
    | zero =>
      obtain rfl := Option.some.inj ht
      exact hv
    | succ label => cases ht
  | ret values => exact hout
  | raise skip e => exact hout
  | escape e => exact hout
  | trap | timeout => trivial
  | stuck => exact hout.elim

end Typing

end WasmTrim
