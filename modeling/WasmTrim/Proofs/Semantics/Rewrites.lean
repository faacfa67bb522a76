/-
# Rewrites keep the behaviour

Every replacement of `Rewrite` gives a function that refines the one before
(`Function.refines_of_rewritesTo`), and so do the passes that are made of them.

Most pieces are compared by running both from the same state (`Machine.Replaces`).  Two kinds
are not: a store that is left out makes the locals differ where nothing reads them
(`AgreeOff`), and the code of a block that is opened up runs under one label less, on top of
operands that it did not see before.

So there are three kinds of argument, and each rewrite falls under one of them.

* *The same effect.*  A pair of operations and what stands for it are run symbolically, on the
  operands that the first of them needs.  If those are missing the first side is stuck and nothing
  has to be shown.
* *The same effect but for dead locals.*  The relation between the locals of the two sides is kept
  by everything around, because nothing around reads them.  Being unread is asked of the whole
  body, before and after.
* *The same code in other surroundings.*  For a block whose contents stay.  No branch leads out of
  it, or the label would be off by one; the operands below are not touched, because on the first
  side they were not there.

Arithmetic enters at one place: a 32-bit integer comes back from a double unchanged.
-/
import WasmTrim.Proofs.Rewrite
import WasmTrim.Proofs.Semantics.Refinement

namespace WasmTrim

/-! ## 1. Single operations

What the machine does with each operation that takes part in a rewrite, with enough operands and
without: a rewrite has to be right also where the code before it got stuck for lack of operands. -/

namespace Machine

variable {σ : Type} (M : Machine σ) (labels : List Label)

@[simp] theorem perform_localGet (i : Nat) (stack : List Value) (st : State σ) :
    M.perform labels (.localGet i) stack st
      = match st.locals[i]? with
        | some v => (.next (v :: stack), st)
        | none => (.stuck, st) := by
  simp only [perform, Op.stackEffect?, apply, Nat.zero_le, if_true, List.take_zero, List.drop_zero,
    act]
  cases st.locals[i]? <;> rfl

@[simp] theorem perform_localSet_nil (i : Nat) (st : State σ) :
    M.perform labels (.localSet i) [] st = (.stuck, st) := rfl

@[simp] theorem perform_localSet (i : Nat) (v : Value) (stack : List Value) (st : State σ) :
    M.perform labels (.localSet i) (v :: stack) st
      = if i < st.locals.length then (.next stack, { st with locals := st.locals.set i v })
        else (.stuck, st) := by
  simp only [perform, Op.stackEffect?, apply, List.length_cons, Nat.le_add_left, if_true,
    List.take_succ_cons, List.take_zero, act]
  by_cases h : i < st.locals.length <;> simp [h]

@[simp] theorem perform_localTee_nil (i : Nat) (st : State σ) :
    M.perform labels (.localTee i) [] st = (.stuck, st) := rfl

@[simp] theorem perform_localTee (i : Nat) (v : Value) (stack : List Value) (st : State σ) :
    M.perform labels (.localTee i) (v :: stack) st
      = if i < st.locals.length then (.next (v :: stack), { st with locals := st.locals.set i v })
        else (.stuck, st) := by
  simp only [perform, Op.stackEffect?, apply, List.length_cons, Nat.le_add_left, if_true,
    List.take_succ_cons, List.take_zero, act]
  by_cases h : i < st.locals.length <;> simp [h]

@[simp] theorem perform_globalGet (i : Nat) (stack : List Value) (st : State σ) :
    M.perform labels (.globalGet i) stack st
      = match st.world.globals[i]? with
        | some v => (.next (v :: stack), st)
        | none => (.stuck, st) := by
  simp only [perform, Op.stackEffect?, apply, Nat.zero_le, if_true, List.take_zero, List.drop_zero,
    act, actOnWorld]
  cases st.world.globals[i]? <;> rfl

@[simp] theorem perform_drop_nil (st : State σ) :
    M.perform labels .drop [] st = (.stuck, st) := rfl

@[simp] theorem perform_drop (v : Value) (stack : List Value) (st : State σ) :
    M.perform labels .drop (v :: stack) st = (.next stack, st) := by
  simp [perform, Op.stackEffect?, apply, act, actOnWorld]

@[simp] theorem perform_const (v : Value) (stack : List Value) (st : State σ) :
    M.perform labels (.const v) stack st = (.next (v :: stack), st) := by
  simp [perform, Op.stackEffect?, apply, act, actOnWorld]

theorem perform_br (label : Nat) (stack : List Value) (st : State σ) :
    M.perform labels (.br label) stack st = (M.branch labels label stack, st) := rfl

/-- What a numeric operation gives, pushed on a stack from which its operands have been taken. -/
def push (r : Option NumResult) (stack : List Value) (st : State σ) : Outcome σ :=
  match r with
  | some (.value v) => (.next (v :: stack), st)
  | some .trap => (.trap, st)
  | none => (.stuck, st)

theorem perform_num (op : NumOp) (stack : List Value) (st : State σ) :
    M.perform labels (.num op) stack st
      = if op.operands.length ≤ stack.length then
          push (op.compute? M.floats (stack.take op.operands.length).reverse)
            (stack.drop op.operands.length) st
        else (.stuck, st) := by
  simp only [perform, Op.stackEffect?, apply, act, actOnWorld, push]
  split
  · cases op.compute? M.floats (stack.take op.operands.length).reverse with
    | none => rfl
    | some r => cases r <;> rfl
  · rfl

theorem perform_unary {op : NumOp} (h : op.operands.length = 1) (a : Value) (stack : List Value)
    (st : State σ) :
    M.perform labels (.num op) (a :: stack) st = push (op.compute? M.floats [a]) stack st := by
  simp [perform_num, h]

theorem perform_binary {op : NumOp} (h : op.operands.length = 2) (a b : Value) (stack : List Value)
    (st : State σ) :
    M.perform labels (.num op) (b :: a :: stack) st
      = push (op.compute? M.floats [a, b]) stack st := by
  simp [perform_num, h]

/-! ## 2. Pieces that do the same

One lemma for each shape of replacement, used by all rules of that shape. -/

/-- Run from any state under the given regions, the second piece does what the first does, unless
the first is stuck. -/
def Replaces (n : Nesting) (ops ops' : List Op) : Prop :=
  ∀ labels, regionsOf labels = n → ∀ stack st,
    (M.performAll labels ops stack st).1 = .stuck ∨
      M.performAll labels ops' stack st = M.performAll labels ops stack st

variable {M}

/-- The same up to a relation between the locals: started from related locals and the same world,
both pieces end alike and with related locals, unless the first is stuck. -/
def ReplacesUpTo (M : Machine σ) (locals : List Value → List Value → Prop) (n : Nesting)
    (ops ops' : List Op) : Prop :=
  ∀ labels, regionsOf labels = n → ∀ stack st st', locals st.locals st'.locals →
    st.world = st'.world → (M.performAll labels ops stack st).1 = .stuck ∨
      (M.performAll labels ops' stack st').1 = (M.performAll labels ops stack st).1 ∧
      locals (M.performAll labels ops stack st).2.locals
        (M.performAll labels ops' stack st').2.locals ∧
      (M.performAll labels ops stack st).2.world = (M.performAll labels ops' stack st').2.world

/-- Replacing such a piece keeps a simulation between the codes behind it, which is how a local
replacement becomes one of whole bodies. -/
theorem ReplacesUpTo.sim {locals : List Value → List Value → Prop} {n : Nesting}
    {ops ops' : List Op} (h : M.ReplacesUpTo locals n ops ops') {c c' : Code}
    (hc : (Setting.plain M M locals).Sim n c c') :
    (Setting.plain M M locals).Sim n ((Code.ofOps ops).append c) ((Code.ofOps ops').append c') := by
  have key : ∀ r r' : Outcome σ, (r.1 = .stuck ∨ r'.1 = r.1 ∧ locals r.2.locals r'.2.locals ∧
      r.2.world = r'.2.world) → (Setting.plain M M locals).Outcomes n.length r r' := by
    rintro ⟨s, st⟩ ⟨s', st'⟩ (h | ⟨h, hs⟩)
    · exact .stuck h
    · obtain rfl : s' = s := h
      exact .refl_of_bounded n.length hs
  refine Setting.sim_append (fun labels hl stack st st' hs => ?_) hc
  have e : stack ++ (Setting.plain M M locals).belowAt n.length = stack := by
    simp [Setting.plain, Setting.bounded, Setting.belowAt]
  have e' : labels ++ (Setting.plain M M locals).under = labels := List.append_nil labels
  have e'' : labels ++ (Setting.plain M M locals).under' = labels := List.append_nil labels
  rw [e, e', e'']
  exact key _ _ (h labels hl stack st st' hs.1 hs.2)

theorem performAll_single (o : Op) (stack : List Value) (st : State σ) :
    M.performAll labels [o] stack st = M.perform labels o stack st := by
  simp only [performAll]
  generalize M.perform labels o stack st = r
  obtain ⟨s, st⟩ := r
  cases s <;> rfl

variable (M)

theorem replaces_setGet (n : Nesting) (l : Nat) :
    M.Replaces n [.localSet l, .localGet l] [.localTee l] := by
  intro labels _ stack st
  cases stack with
  | nil => exact .inl rfl
  | cons v stack =>
    by_cases h : l < st.locals.length
    · exact .inr (by simp [performAll, Outcome.andThen, h])
    · exact .inl (by simp [performAll, Outcome.andThen, h])

theorem replaces_getDrop (n : Nesting) (l : Nat) : M.Replaces n [.localGet l, .drop] [] := by
  intro labels _ stack st
  cases h : st.locals[l]? with
  | none => exact .inl (by simp [performAll, Outcome.andThen, h])
  | some v => exact .inr (by simp [performAll, Outcome.andThen, h])

theorem replaces_globalDrop (n : Nesting) (g : Nat) : M.Replaces n [.globalGet g, .drop] [] := by
  intro labels _ stack st
  cases h : st.world.globals[g]? with
  | none => exact .inl (by simp [performAll, Outcome.andThen, h])
  | some v => exact .inr (by simp [performAll, Outcome.andThen, h])

theorem replaces_teeDrop (n : Nesting) (l : Nat) :
    M.Replaces n [.localTee l, .drop] [.localSet l] := by
  intro labels _ stack st
  cases stack with
  | nil => exact .inl rfl
  | cons v stack =>
    by_cases h : l < st.locals.length
    · exact .inr (by simp [performAll, Outcome.andThen, h])
    · exact .inl (by simp [performAll, Outcome.andThen, h])

theorem replaces_constDrop (n : Nesting) (v : Value) : M.Replaces n [.const v, .drop] [] := by
  intro labels _ stack st
  exact .inr (by simp [performAll, Outcome.andThen])

/-- A unary operation is replaced by one that gives the same on every operand. -/
theorem replaces_of_unary {n : Nesting} {v : Value} {op op' : NumOp}
    (hop : op.operands.length = 2) (hop' : op'.operands.length = 1)
    (h : ∀ a, op.compute? M.floats [a, v] = none ∨
      op'.compute? M.floats [a] = op.compute? M.floats [a, v]) :
    M.Replaces n [.const v, .num op] [.num op'] := by
  intro labels _ stack st
  cases stack with
  | nil =>
    refine .inl ?_
    simp [performAll, Outcome.andThen, perform_num, hop]
  | cons a stack =>
    simp only [performAll, perform_const, Outcome.andThen, perform_binary M labels hop,
      perform_unary M labels hop']
    rcases h a with h | h
    · exact .inl (by simp [h, push])
    · exact .inr (by rw [h])

theorem replaces_eqz32 (n : Nesting) :
    M.Replaces n [.const (.i32 0), .num .i32Eq] [.num .i32Eqz] := by
  refine replaces_of_unary M rfl rfl fun a => ?_
  cases a with
  | i32 x => exact .inr rfl
  | _ => exact .inl rfl

theorem replaces_eqz64 (n : Nesting) :
    M.Replaces n [.const (.i64 0), .num .i64Eq] [.num .i64Eqz] := by
  refine replaces_of_unary M rfl rfl fun a => ?_
  cases a with
  | i64 x => exact .inr rfl
  | _ => exact .inl rfl

/-- Two unary operations cancel when the second gives back what the first was given. -/
theorem replaces_of_inverse {n : Nesting} {op op' : NumOp} (hop : op.operands.length = 1)
    (hop' : op'.operands.length = 1)
    (h : ∀ a, op.compute? M.floats [a] = none ∨ ∃ b, op.compute? M.floats [a] = some (.value b) ∧
      op'.compute? M.floats [b] = some (.value a)) :
    M.Replaces n [.num op, .num op'] [] := by
  intro labels _ stack st
  cases stack with
  | nil =>
    refine .inl ?_
    simp [performAll, Outcome.andThen, perform_num, hop]
  | cons a stack =>
    rcases h a with h | ⟨b, h, h'⟩
    · exact .inl (by simp [performAll, perform_unary M labels hop, h, push, Outcome.andThen])
    · exact .inr (by simp [performAll, perform_unary M labels hop, perform_unary M labels hop', h,
        h', push, Outcome.andThen])

/-- A 32-bit integer as the result of an operation, with all that the type of results wraps around
it. -/
def word (x : BitVec 32) : Option NumResult := some (.value (.i32 x))

theorem replaces_extendWrap (n : Nesting) {op : NumOp}
    (h : op = .i64ExtendI32S ∨ op = .i64ExtendI32U) :
    M.Replaces n [.num op, .num .i32WrapI64] [] := by
  have hs : ∀ x : BitVec 32, (x.signExtend 64).setWidth 32 = x := by
    intro x
    apply BitVec.eq_of_getLsbD_eq
    intro i hi
    have hi' : i < 64 := by omega
    simp only [BitVec.getLsbD_setWidth, BitVec.getLsbD_signExtend, hi, hi', decide_true,
      Bool.true_and, if_true]
  have hu : ∀ x : BitVec 32, (x.setWidth 64).setWidth 32 = x := by
    intro x
    simp
  rcases h with rfl | rfl
  · refine replaces_of_inverse M rfl rfl fun a => ?_
    cases a with
    | i32 x => exact .inr ⟨.i64 (x.signExtend 64), rfl, congrArg word (hs x)⟩
    | _ => exact .inl rfl
  · refine replaces_of_inverse M rfl rfl fun a => ?_
    cases a with
    | i32 x => exact .inr ⟨.i64 (x.setWidth 64), rfl, congrArg word (hu x)⟩
    | _ => exact .inl rfl

/-- The signed reading of 32 bits is exact as a double. -/
theorem toInt_bounds (x : BitVec 32) :
    x.toInt.natAbs < 2 ^ 53 ∧ (BitVec.intMin 32).toInt ≤ x.toInt ∧
      x.toInt ≤ (BitVec.intMax 32).toInt := by
  have h₁ := BitVec.toInt_lt (x := x)
  have h₂ := BitVec.le_toInt x
  have hmin : (BitVec.intMin 32).toInt = -2 ^ 31 := rfl
  have hmax : (BitVec.intMax 32).toInt = 2 ^ 31 - 1 := rfl
  omega

/-- The unsigned reading of 32 bits is exact as a double. -/
theorem toNat_bounds (x : BitVec 32) :
    (x.toNat : Int).natAbs < 2 ^ 53 ∧ 0 ≤ (x.toNat : Int) ∧
      (x.toNat : Int) ≤ (BitVec.allOnes 32).toNat := by
  have h := x.isLt
  have hmax : (BitVec.allOnes 32).toNat = 2 ^ 32 - 1 := rfl
  omega

/-- **A 32-bit integer that is made a double and an integer again** is what it was. A double is
exact for it, so truncating has nothing to cut off and neither traps nor saturates. -/
theorem replaces_convertTrunc (n : Nesting) {trunc convert : NumOp}
    (h : Peephole.undoes trunc convert) : M.Replaces n [.num convert, .num trunc] [] := by
  have hs : ∀ x : BitVec 32, BitVec.ofInt 32 x.toInt = x := fun x => BitVec.ofInt_toInt
  have hu : ∀ x : BitVec 32, BitVec.ofInt 32 (x.toNat : Int) = x := by
    intro x
    rw [BitVec.ofInt_natCast, BitVec.ofNat_toNat, BitVec.setWidth_eq]
  rcases Peephole.undoes_cases h with ⟨rfl | rfl, rfl⟩ | ⟨rfl | rfl, rfl⟩ <;>
    refine replaces_of_inverse M rfl rfl fun a => ?_
  · cases a with
    | i32 x =>
      obtain ⟨h₁, h₂, h₃⟩ := toInt_bounds x
      refine .inr ⟨.f64 (.ofInt x.toInt), rfl, ?_⟩
      exact congrArg word ((congrArg _ (F64.truncate_ofInt h₁ h₂ h₃)).trans (hs x))
    | _ => exact .inl rfl
  · cases a with
    | i32 x =>
      obtain ⟨h₁, h₂, h₃⟩ := toInt_bounds x
      refine .inr ⟨.f64 (.ofInt x.toInt), rfl, ?_⟩
      have e : F64.truncateTo (BitVec.intMin 32).toInt (BitVec.intMax 32).toInt (.ofInt x.toInt)
          = .value (.i32 x) := by
        rw [F64.truncateTo, F64.whole?_ofInt h₁]
        simp only [if_pos (And.intro h₂ h₃), hs]
      exact congrArg some e
    | _ => exact .inl rfl
  · cases a with
    | i32 x =>
      obtain ⟨h₁, h₂, h₃⟩ := toNat_bounds x
      refine .inr ⟨.f64 (.ofInt x.toNat), rfl, ?_⟩
      exact congrArg word ((congrArg _ (F64.truncate_ofInt h₁ h₂ h₃)).trans (hu x))
    | _ => exact .inl rfl
  · cases a with
    | i32 x =>
      obtain ⟨h₁, h₂, h₃⟩ := toNat_bounds x
      refine .inr ⟨.f64 (.ofInt x.toNat), rfl, ?_⟩
      have e : F64.truncateTo 0 (BitVec.allOnes 32).toNat (.ofInt x.toNat) = .value (.i32 x) := by
        rw [F64.truncateTo, F64.whole?_ofInt h₁]
        simp only [if_pos (And.intro h₂ h₃), hu]
      exact congrArg some e
    | _ => exact .inl rfl

/-- An operation on one constant is replaced by its value. -/
theorem replaces_of_value₁ {n : Nesting} {a v : Value} {op : NumOp} (hop : op.operands.length = 1)
    (h : op.compute? M.floats [a] = some (.value v)) :
    M.Replaces n [.const a, .num op] [.const v] := by
  intro labels _ stack st
  exact .inr (by simp [performAll, perform_unary M labels hop, h, push, Outcome.andThen])

theorem replaces_foldTrunc (n : Nesting) {op : NumOp} {x : F64} {v : Value}
    (h : op.truncate? x = some v) : M.Replaces n [.const (.f64 x), .num op] [.const v] := by
  obtain ⟨hoperands, -, hvalue⟩ := NumOp.compute?_of_truncate? h
  exact replaces_of_value₁ M (by rw [hoperands]; rfl) (hvalue _)

theorem replaces_foldConvert (n : Nesting) {op : NumOp} {a : Value} {x : F64}
    (h : op.convert? a = some x) : M.Replaces n [.const a, .num op] [.const (.f64 x)] := by
  obtain ⟨hoperands, -, hvalue⟩ := NumOp.compute?_of_convert? h
  exact replaces_of_value₁ M (by rw [hoperands]; rfl) (hvalue _)

/-- An operation on two constants gives its value, the one that evaluation ahead of time has found.
-/
theorem performAll_foldArith {op : NumOp} {a b v : Value} (h : op.evaluate? a b = some v)
    (labels : List Label) (stack : List Value) (st : State σ) :
    M.performAll labels [.const v] stack st
      = M.performAll labels [.const a, .const b, .num op] stack st := by
  obtain ⟨⟨t, hoperands, -⟩, hvalue⟩ := NumOp.compute?_of_evaluate? h
  have hlength : op.operands.length = 2 := by rw [hoperands]; rfl
  simp [performAll, perform_binary M labels hlength, hvalue, push, Outcome.andThen]

theorem replaces_foldArith (n : Nesting) {op : NumOp} {a b v : Value}
    (h : op.evaluate? a b = some v) :
    M.Replaces n [.const a, .const b, .num op] [.const v] := by
  intro labels _ stack st
  exact .inr (M.performAll_foldArith h labels stack st)

/-- **A call that is followed by a return** is a tail call, where no handler is open. -/
theorem replaces_tailCall {n : Nesting} {t : Nat} (hn : n.insideTry = false)
    (ht : ∀ s, M.signatures[t]? = some s → s.result.arity = M.results) :
    M.Replaces n [.call t, .ret] [.returnCall t] := by
  intro labels hl stack st
  rw [performAll_single]
  simp only [performAll, perform, invokeWith, hl, hn]
  cases hs : M.signatures[t]? with
  | none => exact .inl rfl
  | some s =>
    by_cases hc : s.params.length ≤ stack.length
    · simp only [if_pos hc, Bool.false_eq_true, if_false]
      generalize M.call t (stack.take s.params.length).reverse st.world = a
      obtain ⟨answer, w⟩ := a
      cases answer with
      | returned values =>
        by_cases hv : values.length = M.results
        · have hv' : values.length = s.result.arity := by rw [hv, ht s hs]
          refine .inr ?_
          simp [Answer.signal, Outcome.andThen, hv, ← hv']
        · have hv' : values.length ≠ s.result.arity := by rwa [ht s hs]
          refine .inl ?_
          simp [Answer.signal, Outcome.andThen, hv']
      | raised e => exact .inr rfl
      | trapped => exact .inr rfl
      | stuck => exact .inl rfl
      | timeout => exact .inr rfl
    · simp only [if_neg hc]
      exact .inl rfl

/-- An increment takes two operands, whichever of the three types of numbers it is for. -/
theorem length_of_isIncrement {op : NumOp} (h : op.isIncrement) : op.operands.length = 2 := by
  obtain ⟨t, hoperands, -⟩ := NumOp.operands_of_isIncrement h
  rw [hoperands]
  rfl

/-- A value that is read twice, changed and written back, and of which one copy is dropped, may be
read once. -/
theorem replaces_increment (n : Nesting) (l : Nat) (v : Value) {op : NumOp} (h : op.isIncrement) :
    M.Replaces n [.localGet l, .localGet l, .const v, .num op, .localSet l, .drop]
      [.localGet l, .const v, .num op, .localSet l] := by
  intro labels _ stack st
  have hop := length_of_isIncrement h
  cases ha : st.locals[l]? with
  | none => exact .inl (by simp [performAll, Outcome.andThen, ha])
  | some a =>
    have hl : l < st.locals.length := (List.getElem?_eq_some_iff.mp ha).1
    simp only [performAll, perform_localGet, ha, Outcome.andThen, perform_const,
      perform_binary M labels hop]
    cases op.compute? M.floats [a, v] with
    | none => exact .inl rfl
    | some r =>
      cases r with
      | trap => exact .inr rfl
      | value r => exact .inr (by simp [push, hl])

/-- The same when a branch that takes no values leaves the copy behind. -/
theorem replaces_incrementBranch {n : Nesting} (l : Nat) (v : Value) {op : NumOp} {label : Nat}
    (h : op.isIncrement) (hn : n.labelArity label M.results = 0) :
    M.Replaces n [.localGet l, .localGet l, .const v, .num op, .localSet l, .br label]
      [.localGet l, .const v, .num op, .localSet l, .br label] := by
  intro labels hlabels stack st
  have hop := length_of_isIncrement h
  cases ha : st.locals[l]? with
  | none => exact .inl (by simp [performAll, Outcome.andThen, ha])
  | some a =>
    have hl : l < st.locals.length := (List.getElem?_eq_some_iff.mp ha).1
    have hbranch : ∀ stack, M.branch labels label stack
        = if label ≤ labels.length then .branch label [] else .stuck := by
      intro stack
      by_cases h : label ≤ labels.length <;> simp [branch, labelArity?, hlabels, hn, h]
    simp only [performAll, perform_localGet, ha, Outcome.andThen, perform_const,
      perform_binary M labels hop]
    cases op.compute? M.floats [a, v] with
    | none => exact .inl rfl
    | some r =>
      cases r with
      | trap => exact .inr rfl
      | value r =>
        refine .inr ?_
        simp [push, hl, perform_br, hbranch]

end Machine

/-! ## 3. Locals that nothing reads

States that agree in all locals but one.  A store to that local makes no difference between them,
and reading any other gives the same (`param_shuffle`, `dead_last_type`, `eliminate`). -/

/-- The locals agree except at the given indices, and there are as many on both sides. -/
def AgreeOff (dead : Nat → Prop) (l l' : List Value) : Prop :=
  l.length = l'.length ∧ ∀ i, ¬ dead i → l[i]? = l'[i]?

namespace AgreeOff

variable {dead : Nat → Prop}

theorem refl (l : List Value) : AgreeOff dead l l := ⟨rfl, fun _ _ => rfl⟩

/-- A change of the first side at a dead index does not matter. -/
theorem set_left {l l' : List Value} {i : Nat} (h : AgreeOff dead l l') (hi : dead i) (v : Value) :
    AgreeOff dead (l.set i v) l' := by
  refine ⟨by rw [List.length_set, h.1], fun j hj => ?_⟩
  have hne : i ≠ j := fun e => hj (e ▸ hi)
  rw [List.getElem?_set_ne hne, h.2 j hj]

theorem readsAs {i : Nat} (hi : ¬ dead i) : Setting.ReadsAs (AgreeOff dead) i i :=
  fun _ _ h _ hv => (h.2 i hi).symm.trans hv

theorem writesAs (i : Nat) : Setting.WritesAs (AgreeOff dead) i i := by
  intro l l' h hi
  refine ⟨h.1 ▸ hi, fun v => ⟨by simp [h.1], fun j hj => ?_⟩⟩
  by_cases e : i = j
  · subst e
    rw [List.getElem?_set_self hi, List.getElem?_set_self (h.1 ▸ hi)]
  · rw [List.getElem?_set_ne e, List.getElem?_set_ne e, h.2 j hj]

/-- Nothing is dead: the locals are the same, and a replacement for every state is one up to this
relation. -/
theorem replacesUpTo {σ : Type} {M : Machine σ} {n : Nesting} {ops ops' : List Op}
    (h : M.Replaces n ops ops') : M.ReplacesUpTo (AgreeOff fun _ => False) n ops ops' := by
  intro labels hl stack st st' hs hw
  obtain ⟨l, w⟩ := st
  obtain ⟨l', w'⟩ := st'
  obtain rfl : l = l' := List.ext_getElem? fun i => hs.2 i id
  obtain rfl : w = w' := hw
  rcases h labels hl stack ⟨l, w⟩ with h | h
  · exact .inl h
  · rw [h]
    exact .inr ⟨rfl, .refl _, rfl⟩

/-- A value that passes through two dead locals stays on the stack. -/
theorem replaces_shuffle {σ : Type} (M : Machine σ) (n : Nesting) {x y : Nat} (h : x ≠ y)
    (hx : dead x) (hy : dead y) :
    M.ReplacesUpTo (AgreeOff dead) n [.localSet x, .localTee y, .localGet x] [] := by
  intro labels _ stack st st' hl hw
  match stack with
  | [] => exact .inl rfl
  | [v] =>
    by_cases hlx : x < st.locals.length <;>
      exact .inl (by simp [Machine.performAll, Outcome.andThen, hlx])
  | v :: u :: stack =>
    by_cases hlx : x < st.locals.length
    · by_cases hly : y < st.locals.length
      · have hget : ((st.locals.set x v).set y u)[x]? = some v := by
          rw [List.getElem?_set_ne (Ne.symm h), List.getElem?_set_self hlx]
        refine .inr ⟨?_, ?_, ?_⟩ <;>
          simp only [Machine.performAll, Machine.perform_localSet, Machine.perform_localTee,
            Machine.perform_localGet, Outcome.andThen, hlx, if_true, List.length_set, hly, hget]
        · exact (hl.set_left hx v).set_left hy u
        · exact hw
      · exact .inl (by simp [Machine.performAll, Outcome.andThen, hlx, hly])
    · exact .inl (by simp [Machine.performAll, Outcome.andThen, hlx])

/-- A store to a dead local only takes the value off the stack. -/
theorem replaces_deadSet {σ : Type} (M : Machine σ) (n : Nesting) {l : Nat} (h : dead l) :
    M.ReplacesUpTo (AgreeOff dead) n [.localSet l] [.drop] := by
  intro labels _ stack st st' hl hw
  match stack with
  | [] => exact .inl rfl
  | v :: stack =>
    by_cases hlt : l < st.locals.length
    · refine .inr ⟨?_, ?_, ?_⟩ <;>
        simp only [Machine.performAll, Machine.perform_localSet, Machine.perform_drop,
          Outcome.andThen, hlt, if_true]
      · exact hl.set_left h v
      · exact hw
    · exact .inl (by simp [Machine.performAll, Outcome.andThen, hlt])

/-- A store that keeps its value does nothing if the local is dead, and can be left out without a
replacement. -/
theorem replaces_deadTee {σ : Type} (M : Machine σ) (n : Nesting) {l : Nat} (h : dead l) :
    M.ReplacesUpTo (AgreeOff dead) n [.localTee l] [] := by
  intro labels _ stack st st' hl hw
  match stack with
  | [] => exact .inl rfl
  | v :: stack =>
    by_cases hlt : l < st.locals.length
    · refine .inr ⟨?_, ?_, ?_⟩ <;>
        simp only [Machine.performAll, Machine.perform_localTee, Outcome.andThen, hlt, if_true]
      · exact hl.set_left h v
      · exact hw
    · exact .inl (by simp [Machine.performAll, Outcome.andThen, hlt])

end AgreeOff

/-! ## 4. Blocks that nothing branches out of

A `return` or an exception leaves the block in either case; only branches count regions. -/

namespace Setting

variable {σ : Type}

/-- A code that is moved out of a block: it runs under one label less, on top of the operands
that lay below the block. -/
def outOfBlock (M : Machine σ) (result : ResultType) (labels : List Label) (stack : List Value) :
    Setting σ where
  left := M
  right := M
  under := ⟨⟨.block, result⟩, none⟩ :: labels
  under' := labels
  below := stack
  locals := Eq
  shares _ := False
  returns := True
  wraps := False
  skips := False
  leftBounded := False
  rightBounded := False

theorem outOfBlock_lawful {M : Machine σ} {result : ResultType} {labels : List Label}
    {stack : List Value} : (outOfBlock M result labels stack).Lawful where
  floats := rfl
  tags := rfl
  fuel_lt h := absurd h (Nat.lt_irrefl _)
  fuel_gt h := absurd h (Nat.lt_irrefl _)
  results _ := rfl
  insideTry _ := rfl
  arity _ h := h.elim
  caught _ h := h.elim

/-- Outside of the block the two codes end in the same way. -/
theorem Outcomes.outOfBlock {M : Machine σ} {result : ResultType} {labels : List Label}
    {stack : List Value} {o o' : Outcome σ}
    (h : (Setting.outOfBlock M result labels stack).Outcomes 0 o o') :
    o.1 = .stuck ∨ (o.1.leave result.arity stack, o.2) = o' ∨
      o.1.leave result.arity stack = .stuck := by
  obtain ⟨s, l, w⟩ := o
  obtain ⟨s', l', w'⟩ := o'
  rcases h with (e | h | h) | ⟨he, hl, hw⟩
  · exact .inl e
  · exact h.1.elim
  · exact h.1.elim
  · obtain rfl : l = l' := hl
    obtain rfl : w = w' := hw
    cases he with
    | next values =>
      by_cases hv : values.length = result.arity
      · exact .inr (.inl (by simp [Signal.leave, hv, Setting.outOfBlock, belowAt]))
      · exact .inr (.inr (by simp [Signal.leave, hv]))
    | inner values h => exact absurd h (Nat.not_lt_zero _)
    | outer values h => exact h.elim
    | wrapped values h => exact h.elim
    | @raise skip e h =>
      obtain rfl : skip = 0 := h.resolve_right id
      exact .inr (.inl rfl)
    | _ => exact .inr (.inl rfl)

/-- **A block that nothing branches out of** may be replaced by its contents. Labels in the contents
would have to be counted anew without the block, and there are none. -/
theorem sim_outOfBlock {M : Machine σ} {n : Nesting} {result : ResultType} {b : Code}
    (hb : b.WellFormed) (hlabels : ∀ o ∈ b.ops, o.referencesLabel = false) {c c' : Code}
    (hc : (plain M M Eq).Sim n c c') :
    (plain M M Eq).Sim n (.region .block result b .close c) (b.append c') := by
  intro labels hl stack st st' hs
  obtain ⟨l, w⟩ := st
  obtain ⟨l', w'⟩ := st'
  obtain rfl : l = l' := hs.1
  obtain rfl : w = w' := hs.2
  have hself : (outOfBlock M result labels stack).Sim [] b b := by
    refine outOfBlock_lawful.sim_self hb (fun label hm => ?_) fun o ho _ n => ?_
    · exact absurd (hlabels _ hm) (by simp [Op.referencesLabel])
    · have h : (outOfBlock M result labels stack).Admits n.length (fun i => i) (fun i => i) o := by
        refine ⟨fun i _ => readsAs_eq i, fun i _ => writesAs_eq i,
          fun t _ s h => ⟨h, fun _ _ _ => .inr (.inr (.inr rfl))⟩, fun label hm => ?_,
          fun _ => trivial, fun _ h => h⟩
        have := hlabels o ho
        cases o <;> simp [Op.labels, Op.referencesLabel] at hm this
      simpa using outOfBlock_lawful.opSim h
  have hrun : _ ∨ _ ∨ _ := (hself [] rfl [] ⟨l, w⟩ ⟨l, w⟩ ⟨rfl, rfl⟩).outOfBlock
  have hfirst : (plain M M Eq).Outcomes n.length
      (M.region ⟨.block, result⟩ (b.eval M (⟨⟨.block, result⟩, none⟩ :: labels) [])
        (Arms.eval M ⟨.block, result⟩ labels .close) stack ⟨l, w⟩)
      (b.eval M labels stack ⟨l, w⟩) := by
    rcases hrun with h | h | h
    · exact .stuck ((congrArg (Signal.leave result.arity stack) h).trans rfl)
    · exact h ▸ .refl_of_bounded n.length ⟨rfl, rfl⟩
    · exact .stuck h
  have e : stack ++ (plain M M Eq).belowAt n.length = stack := by simp [plain, bounded, belowAt]
  have e' : labels ++ (plain M M Eq).under = labels := List.append_nil labels
  have e'' : labels ++ (plain M M Eq).under' = labels := List.append_nil labels
  rw [e, e', e'', Code.eval_append]
  simp only [Code.eval]
  refine hfirst.andThen fun stack st st' hs => ?_
  have h := hc labels hl stack st st' hs
  rwa [e', e''] at h

end Setting

/-! ## 5. Functions

Every rewrite at once, and with it every step. -/

namespace Function

variable {signatures : List Signature} {f f' : Function}

/-- A piece of straight-line code may be replaced by one that does the same up to dead locals, as
long as nothing else in the body reads these. -/
theorem refines_of_replaces {before after ops ops' : List Op} (dead : Nat → Prop)
    (hf : f' = { f with body := f'.body })
    (hbody : f.body.ops = before ++ (ops ++ after))
    (hbody' : f'.body.ops = before ++ (ops' ++ after))
    (hops : ∀ o ∈ ops, o.isPlain) (hops' : ∀ o ∈ ops', o.isPlain)
    (hdead : ∀ l, dead l → .localGet l ∉ before ++ after)
    (h : ∀ {σ : Type} (M : Machine σ), M.signatures = signatures → M.results = f.result.arity →
      M.ReplacesUpTo (AgreeOff dead) (Nesting.observeAll [] before) ops ops') :
    f.Refines signatures f' := by
  have hparams : f'.params = f.params := by rw [hf]
  have hresult : f'.result = f.result := by rw [hf]
  have htypes : f'.localTypes = f.localTypes := by rw [hf]; rfl
  refine refines_of_piece (AgreeOff dead) _ _ hparams hresult (fun args _ => ?_)
    (Code.wellFormed_ofOps hops) (Code.wellFormed_ofOps hops') (by simpa using hbody)
    (by simpa using hbody') (fun l hm => ?_) (fun o _ l _ => AgreeOff.writesAs l)
    fun M hM hr c c' hc => (h M hM hr).sim hc
  · rw [htypes]
    exact .refl _
  · exact AgreeOff.readsAs fun hl => hdead l hl hm

/-- **Every rewrite refines the function**, in a program whose signatures are those that the
rewrite knows.  The only rewrite that looks at them is the one to a tail call. -/
theorem refines_of_rewritesTo {s : Surround} (hf : f' = { f with body := f'.body })
    (hresults : s.results = f.result.arity)
    (hsignatures : ∀ t count, s.resultsOf t = some count → ∀ signature,
      signatures[t]? = some signature → signature.result.arity = count)
    (h : RewritesTo s f.body.ops f'.body.ops) : f.Refines signatures f' := by
  obtain ⟨before, after, w, w', hbody, hbody', hr⟩ := h
  -- a piece that does the same in every state, with plain operations on both sides
  have same : ∀ {ops ops' : List Op}, f.body.ops = before ++ (ops ++ after) →
      f'.body.ops = before ++ (ops' ++ after) → (ops ++ ops').all Op.isPlain →
      (∀ {σ : Type} (M : Machine σ), M.signatures = signatures → M.results = f.result.arity →
        M.Replaces (Nesting.observeAll [] before) ops ops') → f.Refines signatures f' := by
    intro ops ops' hb hb' hp h
    rw [List.all_eq_true] at hp
    exact refines_of_replaces (fun _ => False) hf hb hb'
      (fun o ho => hp o (List.mem_append_left _ ho)) (fun o ho => hp o (List.mem_append_right _ ho))
      (fun _ h => h.elim) fun M hM hr => AgreeOff.replacesUpTo (h M hM hr)
  cases hr with
  | setGet l => exact same hbody hbody' rfl fun M _ _ => M.replaces_setGet _ l
  | getDrop l => exact same hbody hbody' rfl fun M _ _ => M.replaces_getDrop _ l
  | globalDrop g => exact same hbody hbody' rfl fun M _ _ => M.replaces_globalDrop _ g
  | teeDrop l => exact same hbody hbody' rfl fun M _ _ => M.replaces_teeDrop _ l
  | constDrop v => exact same hbody hbody' rfl fun M _ _ => M.replaces_constDrop _ v
  | eqz32 => exact same hbody hbody' rfl fun M _ _ => M.replaces_eqz32 _
  | eqz64 => exact same hbody hbody' rfl fun M _ _ => M.replaces_eqz64 _
  | extendWrap h => exact same hbody hbody' rfl fun M _ _ => M.replaces_extendWrap _ h
  | convertTrunc h => exact same hbody hbody' rfl fun M _ _ => M.replaces_convertTrunc _ h
  | foldTrunc h => exact same hbody hbody' rfl fun M _ _ => M.replaces_foldTrunc _ h
  | foldConvert h => exact same hbody hbody' rfl fun M _ _ => M.replaces_foldConvert _ h
  | foldArith h => exact same hbody hbody' rfl fun M _ _ => M.replaces_foldArith _ h
  | tailCall hout hcount =>
    refine same hbody hbody' rfl fun M hM hr => M.replaces_tailCall hout fun sg hs => ?_
    rw [hM] at hs
    rw [hsignatures _ _ hcount sg hs, hresults, hr]
  | increment l v h => exact same hbody hbody' rfl fun M _ _ => M.replaces_increment _ l v h
  | incrementBranch l v h harity =>
    refine same hbody hbody' rfl fun M _ hr => M.replaces_incrementBranch l v h ?_
    rw [hr, ← hresults]
    exact harity
  | @shuffle x y hne hx hy =>
    refine refines_of_replaces (fun l => l = x ∨ l = y) hf hbody hbody'
      (List.all_eq_true.mp rfl) (by simp) ?_
      fun M _ _ => AgreeOff.replaces_shuffle M _ hne (.inl rfl) (.inr rfl)
    rintro l (rfl | rfl)
    · exact hx
    · exact hy
  | @deadSet l h =>
    refine refines_of_replaces (· = l) hf hbody hbody' (List.all_eq_true.mp rfl)
      (by decide) ?_
      fun M _ _ => AgreeOff.replaces_deadSet M _ rfl
    rintro _ rfl
    exact h
  | @deadTee l h =>
    refine refines_of_replaces (· = l) hf hbody hbody' (List.all_eq_true.mp rfl)
      (by simp) ?_
      fun M _ _ => AgreeOff.replaces_deadTee M _ rfl
    rintro _ rfl
    exact h
  | @block result c hc hlabels =>
    have hparams : f'.params = f.params := by rw [hf]
    have hresult : f'.result = f.result := by rw [hf]
    have htypes : f'.localTypes = f.localTypes := by rw [hf]; rfl
    refine refines_of_piece Eq (.region .block result c .close .done) c hparams hresult
      (fun args _ => by rw [htypes]) ⟨rfl, hc, trivial, trivial⟩ hc
      (by simpa [Code.ops, Arms.ops] using hbody) hbody' ?_ ?_
      fun M _ _ d d' hd => Setting.sim_outOfBlock hc hlabels hd
    · exact fun i _ => Setting.readsAs_eq i
    · exact fun o _ i _ => Setting.writesAs_eq i

end Function

end WasmTrim
