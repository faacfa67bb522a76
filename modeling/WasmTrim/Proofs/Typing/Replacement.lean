/-
# Replacing pieces of a typed body

A piece of code may stand for another one if it is well typed wherever the other one is, and
leaves looser frames (`Typing.Relaxes`).  Every rewrite of the passes on one function is of this
kind (`Typing.relaxes_of_rewrite`).  Most of them have the same effect on the frames; those that
take out a conversion or a store leave the operand that was there, about which less is known.

Two rewrites look at the regions around them, so the frames are shown to be those of the regions
that are open (`Typing.Follows`).

The list of rewrites is that of the peephole rules, the folds and the dead stores (`RULES`, `fold`,
`eliminate`), in the form in which they replace one piece of a body by another.  Each has its lemma,
named for what it does to the frames and not for the rule, because several rules do the same: what
is undone, what is pushed only to be dropped, what is an operation on constants.

A tail call is the one rewrite that goes by counts where the checker goes by types.  A call whose
result is returned is turned into a tail call if both have the same number of results
(`tail_call`), and the checker asks for the same types.  There is at most one result, and it is
returned, so it has the type of the function's (`relaxes_tailCall`).
-/
import WasmTrim.Proofs.Typing.Placement

namespace WasmTrim.Typing

open Validation

variable {env : Env} {f : Frame} {outer s : Validation.State}

/-! ## 1. Replacements

The definition asks for the frames that are there and not for all frames, since a rewrite may be
right at one place only. -/

theorem checkAll_cons_iff {o : Op} {ops : List Op} {t : Validation.State} :
    checkAll env s (o :: ops) = some t ↔
      ∃ u, checkOp env s o = some u ∧ checkAll env u ops = some t := by
  rw [checkAll_cons, Option.bind_eq_some_iff]

theorem checkAll_singleton (env : Env) (s : Validation.State) (o : Op) :
    checkAll env s [o] = checkOp env s o := by
  rw [checkAll_cons]
  cases checkOp env s o <;> rfl

/-- In some frames, the second piece may stand for the first: it is accepted if the first is, and
leaves frames that allow at least as much. -/
def Relaxes (env : Env) (s : Validation.State) (w w' : List Op) : Prop :=
  ∀ t, checkAll env s w = some t → ∃ t', checkAll env s w' = some t' ∧ LooserState t t'

/-- **Replacing a piece of a body**, in the frames that are there. -/
theorem Relaxes.window {before w w' after : List Op} {t : Validation.State}
    (hw : ∀ f outer, checkAll env s before = some (f :: outer) → Relaxes env (f :: outer) w w')
    (h : checkAll env s (before ++ (w ++ after)) = some t) (ht : t ≠ []) :
    ∃ t', checkAll env s (before ++ (w' ++ after)) = some t' ∧ LooserState t t' := by
  rw [checkAll_append] at h
  obtain ⟨u, hu, h⟩ := Option.bind_eq_some_iff.mp h
  obtain ⟨f, outer, rfl⟩ := List.exists_cons_of_ne_nil (ne_nil_of_checkAll h ht)
  rw [checkAll_append] at h
  obtain ⟨v, hv, h⟩ := Option.bind_eq_some_iff.mp h
  obtain ⟨v', hv', hl⟩ := hw f outer hu v hv
  obtain ⟨t', ht', hl'⟩ := checkAll_looser hl h
  exact ⟨t', by simp only [checkAll_append, hu, hv', Option.bind_some, ht'], hl'⟩

/-- **Replacing every operation of a body**, which may then be checked in other surroundings. Each
replacement may leave looser frames, and the next one then starts from these. -/
theorem checkAll_flatMap {env' : Env} {φ : Op → List Op} : ∀ {ops : List Op}
    {s s' t : Validation.State},
    (∀ o ∈ ops, ∀ u v, checkOp env u o = some v →
      ∃ v', checkAll env' u (φ o) = some v' ∧ LooserState v v') →
    LooserState s s' → checkAll env s ops = some t →
      ∃ t', checkAll env' s' (ops.flatMap φ) = some t' ∧ LooserState t t'
  | [], s, s', t, _, hl, h => by
    obtain rfl := Option.some.inj h
    exact ⟨s', rfl, hl⟩
  | o :: ops, s, s', t, hφ, hl, h => by
    obtain ⟨u, hu, h⟩ := checkAll_cons_iff.mp h
    rw [← checkAll_singleton] at hu
    obtain ⟨u₁, hu₁, hl₁⟩ := checkAll_looser hl hu
    rw [checkAll_singleton] at hu₁
    obtain ⟨u₂, hu₂, hl₂⟩ := hφ o List.mem_cons_self s' u₁ hu₁
    obtain ⟨t', ht', hl'⟩ := checkAll_flatMap (fun o ho => hφ o (List.mem_cons_of_mem _ ho))
      (hl₁.trans hl₂) h
    exact ⟨t', by rw [List.flatMap_cons, checkAll_append, hu₂, Option.bind_some, ht'], hl'⟩

/-! ## 2. Single operations

What the checker does with one operation, in the form of an equation with which a sequence of them
can be followed. -/

theorem popAll_one (f : Frame) (t : OperandType) : f.popAll [t] = f.pop t := by
  rw [popAll_cons, popAll_nil, Option.bind_some]

@[simp] theorem popAny_push (f : Frame) (t : OperandType) :
    (f.push t).popAny = some (.known t, f) := rfl

theorem pop_push_iff {f f' : Frame} {t u : ValueType} :
    (f.push (.num t)).pop (.num u) = some f' ↔ t = u ∧ f' = f := by
  rw [pop_eq_some, popAny_push]
  simp only [Option.some.injEq, Prod.mk.injEq]
  constructor
  · rintro ⟨o, ⟨rfl, rfl⟩, hs⟩
    simp only [Operand.serves, OperandType.serves_num, decide_eq_true_eq] at hs
    exact ⟨hs, rfl⟩
  · rintro ⟨rfl, rfl⟩
    exact ⟨_, ⟨rfl, rfl⟩, by simp [Operand.serves]⟩

theorem checkOp_localGet {l : Nat} : checkOp env (f :: outer) (.localGet l) = some s ↔
    ∃ t, env.locals[l]? = some t ∧ f.push (.num t) :: outer = s := by
  rw [checkOp_of_hasArrow rfl]
  cases hl : env.locals[l]? <;> simp [arrow?, hl, operandTypes, pushAll_cons]

theorem checkOp_localSet {l : Nat} : checkOp env (f :: outer) (.localSet l) = some s ↔
    ∃ t f', env.locals[l]? = some t ∧ f.pop (.num t) = some f' ∧ f' :: outer = s := by
  rw [checkOp_of_hasArrow rfl]
  cases hl : env.locals[l]? <;>
    simp [arrow?, hl, operandTypes, popAll_one, Option.bind_eq_some_iff]

theorem checkOp_localTee {l : Nat} : checkOp env (f :: outer) (.localTee l) = some s ↔
    ∃ t f', env.locals[l]? = some t ∧ f.pop (.num t) = some f' ∧
      f'.push (.num t) :: outer = s := by
  rw [checkOp_of_hasArrow rfl]
  cases hl : env.locals[l]? <;>
    simp [arrow?, hl, operandTypes, popAll_one, pushAll_cons, Option.bind_eq_some_iff]

theorem checkOp_globalGet {i : Nat} : checkOp env (f :: outer) (.globalGet i) = some s ↔
    ∃ g, env.globals[i]? = some g ∧ f.push (.num g.type) :: outer = s := by
  rw [checkOp_of_hasArrow rfl]
  cases hi : env.globals[i]? <;> simp [arrow?, hi, operandTypes, pushAll_cons]

theorem checkOp_const {v : Value} :
    checkOp env (f :: outer) (.const v) = some s ↔ f.push (.num v.type) :: outer = s := by
  rw [checkOp_of_hasArrow rfl]
  simp [arrow?, operandTypes, pushAll_cons]

theorem checkOp_num {op : NumOp} : checkOp env (f :: outer) (.num op) = some s ↔
    ∃ f', f.popAll (operandTypes op.operands) = some f' ∧
      f'.push (.num op.result) :: outer = s := by
  rw [checkOp_of_hasArrow rfl]
  simp [arrow?, operandTypes, pushAll_cons, Option.bind_eq_some_iff]

theorem checkOp_drop : checkOp env (f :: outer) .drop = some s ↔
    ∃ o f', f.popAny = some (o, f') ∧ f' :: outer = s := by
  simp only [checkOp, Op.rule?, Option.bind_some, step, Validation.control]
  simp [Option.bind_eq_some_iff]

/-! ## 3. Locals, globals and constants

Reading and dropping, storing and reading again (`get_drop`, `tee_drop`, `const_drop`, `set_get`,
`param_shuffle`). -/

theorem relaxes_setGet (l : Nat) :
    Relaxes env (f :: outer) [.localSet l, .localGet l] [.localTee l] := by
  intro s h
  obtain ⟨_, hset, h⟩ := checkAll_cons_iff.mp h
  obtain ⟨t, f', hl, hp, rfl⟩ := checkOp_localSet.mp hset
  rw [checkAll_singleton] at h
  obtain ⟨t', hl', rfl⟩ := checkOp_localGet.mp h
  obtain rfl := Option.some.inj (hl.symm.trans hl')
  exact ⟨_, by rw [checkAll_singleton]; exact checkOp_localTee.mpr ⟨t, f', hl, hp, rfl⟩, .refl _⟩

/-- What is pushed only to be dropped need not be pushed. -/
theorem relaxes_drop {o : Op}
    (h : ∀ s, checkOp env (f :: outer) o = some s → ∃ t, s = f.push t :: outer) :
    Relaxes env (f :: outer) [o, .drop] [] := by
  intro s hs
  obtain ⟨u, hu, hs⟩ := checkAll_cons_iff.mp hs
  obtain ⟨t, rfl⟩ := h u hu
  rw [checkAll_singleton] at hs
  obtain ⟨x, f', hp, rfl⟩ := checkOp_drop.mp hs
  rw [popAny_push] at hp
  obtain ⟨-, rfl⟩ := Prod.mk.inj (Option.some.inj hp)
  exact ⟨_, rfl, .refl _⟩

theorem relaxes_teeDrop (l : Nat) :
    Relaxes env (f :: outer) [.localTee l, .drop] [.localSet l] := by
  intro s h
  obtain ⟨_, htee, h⟩ := checkAll_cons_iff.mp h
  obtain ⟨t, f', hl, hp, rfl⟩ := checkOp_localTee.mp htee
  rw [checkAll_singleton] at h
  obtain ⟨x, f'', hp', rfl⟩ := checkOp_drop.mp h
  rw [popAny_push] at hp'
  obtain ⟨-, rfl⟩ := Prod.mk.inj (Option.some.inj hp')
  exact ⟨_, by rw [checkAll_singleton]; exact checkOp_localSet.mpr ⟨t, f', hl, hp, rfl⟩, .refl _⟩

theorem relaxes_deadSet (l : Nat) : Relaxes env (f :: outer) [.localSet l] [.drop] := by
  intro s h
  rw [checkAll_singleton] at h
  obtain ⟨t, f', -, hp, rfl⟩ := checkOp_localSet.mp h
  obtain ⟨o, ho, -⟩ := pop_eq_some.mp hp
  exact ⟨_, by rw [checkAll_singleton]; exact checkOp_drop.mpr ⟨o, f', ho, rfl⟩, .refl _⟩

theorem relaxes_deadTee (l : Nat) : Relaxes env (f :: outer) [.localTee l] [] := by
  intro s h
  rw [checkAll_singleton] at h
  obtain ⟨t, f', -, hp, rfl⟩ := checkOp_localTee.mp h
  exact ⟨_, rfl, .of_head (.of_pop hp) outer⟩

/-- Two operands that are stored and read again are those that were there. -/
theorem relaxes_shuffle (x y : Nat) :
    Relaxes env (f :: outer) [.localSet x, .localTee y, .localGet x] [] := by
  intro s h
  obtain ⟨_, hset, h⟩ := checkAll_cons_iff.mp h
  obtain ⟨t, f₁, hx, hp, rfl⟩ := checkOp_localSet.mp hset
  obtain ⟨_, htee, h⟩ := checkAll_cons_iff.mp h
  obtain ⟨u, f₂, hy, hp', rfl⟩ := checkOp_localTee.mp htee
  rw [checkAll_singleton] at h
  obtain ⟨t', hx', rfl⟩ := checkOp_localGet.mp h
  obtain rfl := Option.some.inj (hx.symm.trans hx')
  exact ⟨_, rfl, .of_head (((Looser.of_pop hp').pushOperand (.refl _)).trans (.of_pop hp)) outer⟩

/-! ## 4. Numeric operations

A numeric operation has the same operands and results wherever it stands, so that these rewrites are
about lists of types (`eqz`, `extend_wrap`, `convert_trunc`, `fold_trunc`, `fold_convert`,
`fold`). -/

theorem popAll_concat (f : Frame) (ts : List OperandType) (u : OperandType) :
    f.popAll (ts ++ [u]) = (f.pop u).bind fun f => f.popAll ts := by
  simp [Frame.popAll]

/-- A constant in front of an operation is its last operand. -/
theorem checkOp_num_push {op : NumOp} {t u : ValueType} (ts : List ValueType)
    (ho : op.operands = ts ++ [u]) :
    checkOp env (f.push (.num t) :: outer) (.num op) = some s ↔
      t = u ∧ ∃ f', f.popAll (operandTypes ts) = some f'
        ∧ f'.push (.num op.result) :: outer = s := by
  rw [checkOp_num, ho, operandTypes, List.map_append, List.map_singleton]
  simp only [popAll_concat, Option.bind_eq_some_iff, pop_push_iff]
  constructor
  · rintro ⟨f', ⟨g, ⟨ht, rfl⟩, hp⟩, hs⟩
    exact ⟨ht, f', hp, hs⟩
  · rintro ⟨ht, f', hp, hs⟩
    exact ⟨f', ⟨f, ⟨ht, rfl⟩, hp⟩, hs⟩

/-- An operation with a constant operand may be replaced by one without it. -/
theorem relaxes_constNum {v : Value} {op op' : NumOp} {u : ValueType}
    (ho : op.operands = op'.operands ++ [u]) (hr : op'.result = op.result) :
    Relaxes env (f :: outer) [.const v, .num op] [.num op'] := by
  intro s h
  obtain ⟨_, hconst, h⟩ := checkAll_cons_iff.mp h
  obtain rfl := checkOp_const.mp hconst
  rw [checkAll_singleton] at h
  obtain ⟨-, f', hp, rfl⟩ := (checkOp_num_push _ ho).mp h
  exact ⟨_, by rw [checkAll_singleton]; exact checkOp_num.mpr ⟨f', hp, by rw [hr]⟩, .refl _⟩

/-- An operation on a constant is a constant of the type that the operation gives; the checker sees
no difference. -/
theorem relaxes_foldUnary {v w : Value} {op : NumOp} {u : ValueType} (ho : op.operands = [u])
    (hr : op.result = w.type) : Relaxes env (f :: outer) [.const v, .num op] [.const w] := by
  intro s h
  obtain ⟨_, hconst, h⟩ := checkAll_cons_iff.mp h
  obtain rfl := checkOp_const.mp hconst
  rw [checkAll_singleton] at h
  obtain ⟨-, f', hp, rfl⟩ := (checkOp_num_push [] ho).mp h
  obtain rfl := Option.some.inj hp
  exact ⟨_, by rw [checkAll_singleton]; exact checkOp_const.mpr (by rw [hr]), .refl _⟩

/-- An operation on two constants is a constant of the type that the operation gives; the checker
sees no difference. -/
theorem relaxes_foldBinary {a b w : Value} {op : NumOp} {t u : ValueType}
    (ho : op.operands = [t, u]) (hr : op.result = w.type) :
    Relaxes env (f :: outer) [.const a, .const b, .num op] [.const w] := by
  intro s h
  obtain ⟨_, hconst, h⟩ := checkAll_cons_iff.mp h
  obtain rfl := checkOp_const.mp hconst
  obtain ⟨_, hconst, h⟩ := checkAll_cons_iff.mp h
  obtain rfl := checkOp_const.mp hconst
  rw [checkAll_singleton] at h
  obtain ⟨-, f', hp, rfl⟩ := (checkOp_num_push [t] ho).mp h
  rw [operandTypes, List.map_singleton, popAll_one] at hp
  obtain ⟨-, rfl⟩ := pop_push_iff.mp hp
  exact ⟨_, by rw [checkAll_singleton]; exact checkOp_const.mpr (by rw [hr]), .refl _⟩

/-- An operation that is undone leaves the operand that was there. -/
theorem relaxes_undone {op op' : NumOp} {t u : ValueType} (ho : op.operands = [t])
    (ho' : op'.operands = [u]) (hr : op'.result = t) :
    Relaxes env (f :: outer) [.num op, .num op'] [] := by
  intro s h
  obtain ⟨_, hfirst, h⟩ := checkAll_cons_iff.mp h
  obtain ⟨f', hp, rfl⟩ := checkOp_num.mp hfirst
  rw [checkAll_singleton] at h
  obtain ⟨-, f'', hp', rfl⟩ := (checkOp_num_push [] ho').mp h
  obtain rfl := Option.some.inj hp'
  rw [ho, operandTypes, List.map_singleton, popAll_one] at hp
  rw [hr]
  exact ⟨_, rfl, .of_head (.of_pop hp) outer⟩

/-! ## 5. Increments

The value that was read first and is not needed lies below the increment all the time, and is
dropped behind it or given up by a branch (`loop_increment`, `post_increment`). -/

/-- An increment of a local takes nothing from the stack and leaves nothing on it. -/
theorem checkAll_increment {l : Nat} {v : Value} {op : NumOp} (h : op.isIncrement) :
    checkAll env (f :: outer) [.localGet l, .const v, .num op, .localSet l] = some s ↔
      env.locals[l]? = some op.result ∧ v.type = op.result ∧ f :: outer = s := by
  obtain ⟨t, ho, hr⟩ := NumOp.operands_of_isIncrement h
  subst hr
  constructor
  · intro h
    obtain ⟨_, hget, h⟩ := checkAll_cons_iff.mp h
    obtain ⟨t, hl, rfl⟩ := checkOp_localGet.mp hget
    obtain ⟨_, hconst, h⟩ := checkAll_cons_iff.mp h
    obtain rfl := checkOp_const.mp hconst
    obtain ⟨_, hnum, hset⟩ := checkAll_cons_iff.mp h
    obtain ⟨hv, f', hp, rfl⟩ := (checkOp_num_push [op.result] ho).mp hnum
    rw [operandTypes, List.map_singleton, popAll_one] at hp
    obtain ⟨rfl, rfl⟩ := pop_push_iff.mp hp
    rw [checkAll_singleton] at hset
    obtain ⟨t', f'', hl', hp', rfl⟩ := checkOp_localSet.mp hset
    obtain rfl := Option.some.inj (hl.symm.trans hl')
    obtain ⟨-, rfl⟩ := pop_push_iff.mp hp'
    exact ⟨hl, hv, rfl⟩
  · rintro ⟨hl, hv, rfl⟩
    refine checkAll_cons_iff.mpr ⟨_, checkOp_localGet.mpr ⟨_, hl, rfl⟩, ?_⟩
    refine checkAll_cons_iff.mpr ⟨_, checkOp_const.mpr rfl, ?_⟩
    refine checkAll_cons_iff.mpr ⟨f.push (.num op.result) :: outer,
      (checkOp_num_push [op.result] ho).mpr ⟨hv, f, ?_, rfl⟩, ?_⟩
    · rw [operandTypes, List.map_singleton, popAll_one]
      exact pop_push_iff.mpr ⟨rfl, rfl⟩
    · rw [checkAll_singleton]
      exact checkOp_localSet.mpr ⟨_, f, hl, pop_push_iff.mpr ⟨rfl, rfl⟩, rfl⟩

/-- Before an increment another reading of the local only leaves it on the stack. -/
theorem checkAll_get_increment {l : Nat} {v : Value} {op : NumOp} (h : op.isIncrement)
    (ops : List Op) :
    checkAll env (f :: outer)
        (.localGet l :: ([.localGet l, .const v, .num op, .localSet l] ++ ops)) = some s ↔
      env.locals[l]? = some op.result ∧ v.type = op.result ∧
        checkAll env (f.push (.num op.result) :: outer) ops = some s := by
  rw [checkAll_cons_iff]
  constructor
  · rintro ⟨_, hget, hs⟩
    obtain ⟨t, hl, rfl⟩ := checkOp_localGet.mp hget
    rw [checkAll_append] at hs
    obtain ⟨u, hu, hs⟩ := Option.bind_eq_some_iff.mp hs
    obtain ⟨hl', hv, rfl⟩ := (checkAll_increment h).mp hu
    obtain rfl := Option.some.inj (hl.symm.trans hl')
    exact ⟨hl, hv, hs⟩
  · rintro ⟨hl, hv, hs⟩
    refine ⟨_, checkOp_localGet.mpr ⟨_, hl, rfl⟩, ?_⟩
    rw [checkAll_append, (checkAll_increment h).mpr ⟨hl, hv, rfl⟩, Option.bind_some, hs]

theorem relaxes_increment (l : Nat) (v : Value) {op : NumOp} (h : op.isIncrement) :
    Relaxes env (f :: outer) [.localGet l, .localGet l, .const v, .num op, .localSet l, .drop]
      [.localGet l, .const v, .num op, .localSet l] := by
  intro s hs
  obtain ⟨hl, hv, hs⟩ := (checkAll_get_increment h [.drop]).mp hs
  rw [checkAll_singleton] at hs
  obtain ⟨x, f', hp, rfl⟩ := checkOp_drop.mp hs
  rw [popAny_push] at hp
  obtain ⟨-, rfl⟩ := Prod.mk.inj (Option.some.inj hp)
  exact ⟨_, (checkAll_increment h).mpr ⟨hl, hv, rfl⟩, .refl _⟩

/-- A branch that carries nothing does not care for an operand more. -/
theorem relaxes_incrementBranch (l : Nat) (v : Value) {op : NumOp} {label : Nat}
    (h : op.isIncrement)
    (hlabel : ∀ target, (f :: outer)[label]? = some target → target.labelTypes = []) :
    Relaxes env (f :: outer)
      [.localGet l, .localGet l, .const v, .num op, .localSet l, .br label]
      [.localGet l, .const v, .num op, .localSet l, .br label] := by
  intro s hs
  obtain ⟨hl, hv, hs⟩ := (checkAll_get_increment h [.br label]).mp hs
  rw [checkAll_singleton, checkOp_of_hasStop rfl] at hs
  obtain ⟨takes, ht, hs⟩ := Option.bind_eq_some_iff.mp hs
  obtain ⟨target, htarget, rfl⟩ := Option.map_eq_some_iff.mp ht
  -- the frame that is branched from may be the one that is branched to
  obtain ⟨target', htarget', he⟩ : ∃ target', (f :: outer)[label]? = some target' ∧
      target.labelTypes = target'.labelTypes := by
    cases label with
    | zero =>
      obtain rfl := Option.some.inj htarget
      exact ⟨f, rfl, rfl⟩
    | succ label => exact ⟨target, htarget, rfl⟩
  rw [he, hlabel target' htarget', popAll_nil, Option.bind_some] at hs
  obtain rfl := Option.some.inj hs
  have hbranch : checkAll env (f :: outer) [.br label] = some (f.stop :: outer) := by
    rw [checkAll_singleton, checkOp_of_hasStop rfl]
    simp only [stops?, htarget', Option.map_some, Option.bind_some, hlabel target' htarget',
      popAll_nil]
  refine ⟨f.stop :: outer, ?_, .refl _⟩
  change checkAll env _ ([.localGet l, .const v, .num op, .localSet l] ++ [.br label]) = _
  rw [checkAll_append, (checkAll_increment h).mpr ⟨hl, hv, rfl⟩, Option.bind_some, hbranch]

/-! ## 6. Tail calls

What a call leaves is what the `return` behind it takes (`tail_call`). -/

/-- A result that is returned is one that is pushed. -/
theorem popAll_pushAll_result {r r' : ResultType} {f' : Frame} (ha : r.arity = r'.arity)
    (h : (f.pushAll (operandTypes r.types)).popAll (operandTypes r'.types) = some f') :
    r = r' ∧ f' = f := by
  match r, r' with
  | none, none =>
    obtain rfl := Option.some.inj h
    exact ⟨rfl, rfl⟩
  | some t, some u =>
    have hp : (f.push (.num t)).popAll [.num u] = some f' := h
    rw [popAll_one] at hp
    obtain ⟨rfl, rfl⟩ := pop_push_iff.mp hp
    exact ⟨rfl, rfl⟩
  | none, some _ | some _, none => cases ha

/-- **Counting the results is enough**: a call whose result is returned has the result type of the
function, if it has as many results. -/
theorem relaxes_tailCall {target : Nat}
    (h : ∀ s, env.signatures[target]? = some s → s.result.arity = env.result.arity) :
    Relaxes env (f :: outer) [.call target, .ret] [.returnCall target] := by
  intro s hs
  obtain ⟨_, hcall, hs⟩ := checkAll_cons_iff.mp hs
  rw [checkOp_of_hasArrow rfl] at hcall
  obtain ⟨x, hx, hcall⟩ := Option.bind_eq_some_iff.mp hcall
  obtain ⟨sig, hsig, rfl⟩ := Option.map_eq_some_iff.mp hx
  obtain ⟨f', hp, hcall⟩ := Option.bind_eq_some_iff.mp hcall
  obtain rfl := Option.some.inj hcall
  rw [checkAll_singleton, checkOp_of_hasStop rfl] at hs
  obtain ⟨takes, ht, hs⟩ := Option.bind_eq_some_iff.mp hs
  obtain rfl := Option.some.inj ht
  obtain ⟨f'', hp', hs⟩ := Option.bind_eq_some_iff.mp hs
  obtain rfl := Option.some.inj hs
  obtain ⟨hr, rfl⟩ := popAll_pushAll_result (h sig hsig) hp'
  refine ⟨f''.stop :: outer, ?_, .refl _⟩
  rw [checkAll_singleton, checkOp_of_hasStop rfl]
  simp only [stops?, hsig, Option.bind_some, if_pos hr, hp]

/-! ## 7. The regions around a piece

The checker keeps frames, and the passes keep the kinds and results of the regions that are open
(`label_arity`).  They are in step with each other. -/

/-- The frames of the regions that are open, and of a function whose label takes the given
operands. -/
inductive Follows (results : List OperandType) : Nesting → Validation.State → Prop where
  | base {f : Frame} (h : f.labelTypes = results) : Follows results [] [f]
  | cons {r : Region} {n : Nesting} {f : Frame} {s : Validation.State}
    (h : f.labelTypes.length = r.labelArity) (hs : Follows results n s) :
    Follows results (r :: n) (f :: s)

namespace Follows

variable {results : List OperandType} {n : Nesting} {o : Op} {t : Validation.State}

theorem ne_nil (h : Follows results n s) : s ≠ [] := by cases h <;> simp

/-- The frame of a region may be replaced by one with the same label. -/
theorem of_labelTypes (h : Follows results n (f :: outer)) {f' : Frame}
    (hf : f'.labelTypes = f.labelTypes) : Follows results n (f' :: outer) := by
  cases h with
  | base h => exact .base (hf.trans h)
  | cons h hs => exact .cons (hf ▸ h) hs

theorem of_leave (h : Follows results n (f :: outer)) (hs : leave f outer ≠ []) :
    Follows results n.tail (leave f outer) := by
  cases h with
  | base => exact absurd rfl hs
  | cons _ h =>
    rcases outer with _ | ⟨g, outer⟩
    · exact absurd rfl hs
    · exact h.of_labelTypes (Alike.pushAll _ _).labelTypes

theorem labelTypes_of_admitsHandler (h : f.kind.admitsHandler) : f.labelTypes = f.type.leaves := by
  unfold Frame.labelTypes
  split
  · rename_i hk
    rw [hk] at h
    cases h
  · rfl

theorem step (h : Follows results n (f :: outer)) (hs : Step env f outer o t) (ht : t ≠ []) :
    Follows results (n.observe o) t := by
  by_cases hp : o.isPlain
  · obtain ⟨f', rfl, ha⟩ := hs.of_isPlain hp
    rw [Nesting.observe_of_isPlain hp]
    exact h.of_labelTypes ha.labelTypes
  cases hs with
  | arrow ha _ => exact absurd (isPlain_of_arrow? ha) hp
  | stop ha _ => exact absurd (isPlain_of_stops? ha) hp
  | brIf | brTable | drop | select => exact absurd rfl hp
  | @enter kind result f' hpop =>
    refine .cons ?_ (h.of_labelTypes (Alike.popAll hpop).labelTypes)
    cases kind with
    | loop => rfl
    | _ => exact List.length_map _
  | elseArm hk hc =>
    refine h.of_labelTypes ?_
    simp only [Frame.labelTypes, hk]
    rfl
  | catchTag _ hk hc => exact h.of_labelTypes (labelTypes_of_admitsHandler hk).symm
  | catchAll hk hc => exact h.of_labelTypes (labelTypes_of_admitsHandler hk).symm
  | close hc => exact h.of_leave ht
  | delegate hk hc hl => exact h.of_leave ht

theorem checkAll {ops : List Op} (h : Follows results n s)
    (hs : Typing.checkAll env s ops = some t) (ht : t ≠ []) :
    Follows results (n.observeAll ops) t := by
  induction ops generalizing n s with
  | nil =>
    obtain rfl := Option.some.inj hs
    exact h
  | cons o ops ih =>
    obtain ⟨u, hu, hrest⟩ := checkAll_cons_iff.mp hs
    have hne : u ≠ [] := ne_nil_of_checkAll hrest ht
    rcases s with _ | ⟨f, outer⟩
    · exact absurd rfl h.ne_nil
    · exact ih (h.step (step_of_checkOp hu) hne) hrest

/-- A branch carries as many operands as its label has. -/
theorem labelArity (h : Follows results n s) {label : Nat} {target : Frame}
    (ht : s[label]? = some target) :
    target.labelTypes.length = n.labelArity label results.length := by
  induction h generalizing label with
  | base h =>
    cases label with
    | zero =>
      obtain rfl := Option.some.inj ht
      rw [h]
      rfl
    | succ label => cases ht
  | cons h _ ih =>
    cases label with
    | zero =>
      obtain rfl := Option.some.inj ht
      exact h
    | succ label => exact ih ht

end Follows

theorem length_results (env : Env) : env.results.length = env.result.arity := List.length_map _

/-- The frames at the start of a function: the one of its body, with no region open. -/
theorem follows_start (env : Env) : Follows env.results [] (start env) := .base rfl

/-! ## 8. Rewrites

By cases on the rewrite. -/


/-- **Every rewrite leaves code that may stand for what was there**, in frames that are those of the
open regions. A rewrite is told only how many results callables and labels have, and that is enough.
-/
theorem relaxes_of_rewrite {S : Surround} {before after w w' : List Op}
    (h : Rewrite S before after w w') (hresults : S.results = env.result.arity)
    (hsignatures : ∀ target, S.resultsOf target
      = (env.signatures[target]?).map fun s => s.result.arity)
    (hf : Follows env.results (Nesting.observeAll [] before) (f :: outer)) :
    Relaxes env (f :: outer) w w' := by
  cases h with
  | setGet l => exact relaxes_setGet l
  | getDrop l =>
    refine relaxes_drop fun s hs => ?_
    obtain ⟨t, -, rfl⟩ := checkOp_localGet.mp hs
    exact ⟨_, rfl⟩
  | globalDrop g =>
    refine relaxes_drop fun s hs => ?_
    obtain ⟨t, -, rfl⟩ := checkOp_globalGet.mp hs
    exact ⟨_, rfl⟩
  | teeDrop l => exact relaxes_teeDrop l
  | constDrop v => exact relaxes_drop fun s hs => ⟨_, (checkOp_const.mp hs).symm⟩
  | eqz32 => exact relaxes_constNum (u := .i32) rfl rfl
  | eqz64 => exact relaxes_constNum (u := .i64) rfl rfl
  | extendWrap h => rcases h with rfl | rfl <;> exact relaxes_undone rfl rfl rfl
  | @convertTrunc trunc convert h =>
    rcases Peephole.undoes_cases h with ⟨rfl | rfl, rfl⟩ | ⟨rfl | rfl, rfl⟩ <;>
      exact relaxes_undone rfl rfl rfl
  | @foldTrunc op x v h =>
    obtain ⟨ho, hr, -⟩ := NumOp.compute?_of_truncate? h
    exact relaxes_foldUnary ho hr
  | @foldConvert op v x h =>
    obtain ⟨ho, hr, -⟩ := NumOp.compute?_of_convert? h
    exact relaxes_foldUnary ho hr
  | @foldArith op a b v h =>
    obtain ⟨⟨t, ho, hr⟩, -⟩ := NumOp.compute?_of_evaluate? h
    exact relaxes_foldBinary ho hr
  | tailCall hout hr =>
    refine relaxes_tailCall fun s hs => ?_
    rw [hsignatures, hs, hresults] at hr
    exact Option.some.inj hr
  | increment l v h => exact relaxes_increment l v h
  | incrementBranch l v h harity =>
    refine relaxes_incrementBranch l v h fun target ht => List.eq_nil_of_length_eq_zero ?_
    rw [hf.labelArity ht, ← harity, hresults]
    exact congrArg _ (length_results env)
  | shuffle => exact relaxes_shuffle _ _
  | deadSet => exact relaxes_deadSet _
  | deadTee => exact relaxes_deadTee _
  | block result hc h =>
    intro s hs
    exact checkAll_unwrap hc (confined_of_referencesLabel hc h) hs

end WasmTrim.Typing
