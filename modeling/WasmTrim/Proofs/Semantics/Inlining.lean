/-
# Inlining

A call frame and the code spliced in its place run side by side.  Where the callee has locals of
its own, the spliced code uses locals behind those of the caller, in which the arguments were
stored before (`Inline.Bound`).  Where the callee leaves by a `return`, the spliced code leaves the
block around it (`Inline.spliced`).  The machines differ in depth: the call uses up one level of
nested calls that the spliced code does not need.  So neither side can be bounded like the other,
and the two directions of the equivalence have bounds of their own (`Paced`).

What is shown here is about one call, on any two machines: the code that inlining puts in place of
a call simulates the call (`Inline.sim_callCode`).  That the machines of the two programs are such
that this can be used at every call of every function is `Proofs/Semantics/Inlined`.

**How the two sides differ.**

* *Locals.*  On the left a frame of the callee with the arguments as its first locals, on the right
  the locals of the caller, with the arguments behind those it had before.  Nothing the callee does
  touches the others.
* *Stack.*  On the left it is empty at the start, on the right the operands of the caller lie below.
  A `return`, a branch to the block and the end of the body all leave exactly the results on the
  right as well: the block sees to it, or the height of the stack was found to be right.
* *Labels.*  On the left there are none, on the right those of the caller.  A label past all regions
  of the callee, which on the left is that of the function, is on the right that of the block, which
  is there exactly if such labels or a `return` are.

**Bounds.**  The call uses up one level that the spliced code does not.  If the left side has a
result within some bound, the right side has it within the same bound.  If the right side has one,
the left side needs more, but twice as much is enough, because a spliced call can be at most every
second level.
-/
import WasmTrim.Proofs.Semantics.Height

namespace WasmTrim

/-! ## 1. Bounds

A call that has been inlined takes nothing off the bound on calls.  So the two programs are run with
bounds of their own, and what is said of them depends on which of the two may run out. -/

/-- How the bounds of the two sides may be related: either the first side is at most as generous
and may time out alone, or the second side is at most half as generous and may. -/
def Paced (leftBounded rightBounded : Prop) (n m : Nat) : Prop :=
  (leftBounded ∧ n ≤ m) ∨ (rightBounded ∧ 2 * m ≤ n)

namespace Paced

variable {leftBounded rightBounded : Prop} {n m : Nat}

/-- One level deeper on both sides, as for a call that is a call in either program. -/
theorem pred (h : Paced leftBounded rightBounded (n + 1) (m + 1)) :
    Paced leftBounded rightBounded n m := by
  rcases h with ⟨h, hle⟩ | ⟨h, hle⟩
  · exact .inl ⟨h, by omega⟩
  · exact .inr ⟨h, by omega⟩

/-- One more level deeper on the first side, as for the call that the second program no longer
makes. -/
theorem pred_nested (h : Paced leftBounded rightBounded (n + 1) (m + 1)) :
    Paced leftBounded rightBounded (n - 1) m := by
  rcases h with ⟨h, hle⟩ | ⟨h, hle⟩
  · exact .inl ⟨h, by omega⟩
  · exact .inr ⟨h, by omega⟩

theorem leftBounded_of_lt (h : Paced leftBounded rightBounded n m) (hlt : n < m) :
    leftBounded := by
  rcases h with ⟨h, -⟩ | ⟨-, hle⟩
  · exact h
  · omega

theorem rightBounded_of_lt (h : Paced leftBounded rightBounded n m) (hlt : m < n) :
    rightBounded := by
  rcases h with ⟨-, hle⟩ | ⟨h, -⟩
  · omega
  · exact h

end Paced

namespace Inline

/-! ## 2. Locals

The caller has more locals than before, and the callee has its parameters among them.  Each side of
the simulation reads and writes its own locals under its own numbers. -/

/-- The second side has some more locals than the first. -/
def Extended (size extra : Nat) (l l' : List Value) : Prop :=
  l.length = size ∧ ∃ more : List Value, l' = l ++ more ∧ more.length = extra

theorem Extended.readsAs {size extra : Nat} (i : Nat) :
    Setting.ReadsAs (Extended size extra) i i := by
  rintro l _ ⟨hl, more, rfl, hm⟩ v hv
  rw [List.getElem?_append_left (List.getElem?_eq_some_iff.mp hv).1, hv]

theorem Extended.writesAs {size extra : Nat} (i : Nat) :
    Setting.WritesAs (Extended size extra) i i := by
  rintro l _ ⟨hl, more, rfl, hm⟩ hi
  refine ⟨by rw [List.length_append]; omega, fun v => ⟨by rw [List.length_set, hl], more, ?_, hm⟩⟩
  rw [List.set_append_left _ _ hi]

/-- Writing behind the locals of the first side, which the first side does not notice. -/
theorem Extended.set_right {size extra a : Nat} {l l' : List Value} (h : Extended size extra l l')
    (ha : size ≤ a) (v : Value) : Extended size extra l (l'.set a v) := by
  obtain ⟨hl, more, rfl, hm⟩ := h
  refine ⟨hl, more.set (a - l.length) v, ?_, by rw [List.length_set, hm]⟩
  rw [List.set_append_right _ _ (by omega)]

/-- Where the arguments are stored: at different places behind the locals of the caller. -/
structure Slots (arguments : List Nat) (size extra : Nat) : Prop where
  nodup : arguments.Nodup
  lower : ∀ a ∈ arguments, size ≤ a
  upper : ∀ a ∈ arguments, a < size + extra

/-- The locals of the callee are found where its arguments were stored, and those of the caller
are as they were. -/
structure Bound (arguments : List Nat) (size extra : Nat) (caller l l' : List Value) : Prop where
  length : l.length = arguments.length
  stored : ∀ (j a : Nat), arguments[j]? = some a → l'[a]? = l[j]?
  caller : Extended size extra caller l'

theorem Bound.rename {arguments : List Nat} {i : Nat} (hi : i < arguments.length) :
    arguments[i]? = some (renameLocal arguments i) := by
  rw [renameLocal, List.getElem?_eq_getElem hi]
  rfl

theorem Bound.readsAs {arguments : List Nat} {size extra : Nat} {caller : List Value} (i : Nat) :
    Setting.ReadsAs (Bound arguments size extra caller) i (renameLocal arguments i) := by
  intro l l' h v hv
  have hi : i < arguments.length := h.length ▸ (List.getElem?_eq_some_iff.mp hv).1
  rw [h.stored i _ (Bound.rename hi), hv]

theorem Bound.writesAs {arguments : List Nat} {size extra : Nat} {caller : List Value}
    (hs : Slots arguments size extra) (i : Nat) :
    Setting.WritesAs (Bound arguments size extra caller) i (renameLocal arguments i) := by
  intro l l' h hi
  have hi' : i < arguments.length := h.length ▸ hi
  have hren := Bound.rename hi'
  have hmem : renameLocal arguments i ∈ arguments := List.mem_of_getElem? hren
  have hlt : renameLocal arguments i < l'.length := by
    obtain ⟨hl, more, rfl, hm⟩ := h.caller
    have := hs.upper _ hmem
    rw [List.length_append]
    omega
  refine ⟨hlt, fun v => ⟨by rw [List.length_set, h.length], fun j a ha => ?_,
    h.caller.set_right (hs.lower _ hmem) v⟩⟩
  by_cases e : j = i
  · subst e
    obtain rfl := Option.some.inj (ha.symm.trans hren)
    rw [List.getElem?_set_self hlt, List.getElem?_set_self hi]
  · -- another argument is stored elsewhere
    have hne : renameLocal arguments i ≠ a := by
      rintro rfl
      exact e ((List.getElem?_inj (List.getElem?_eq_some_iff.mp ha).1 hs.nodup).mp
        (ha.trans hren.symm))
    rw [List.getElem?_set_ne hne, List.getElem?_set_ne (Ne.symm e)]
    exact h.stored j a ha

/-! ## 3. Storing the arguments

All arguments are stored before the body is entered.  The places are different, so no store
overwrites another. -/

/-- The locals after values have been stored, one after the other, as the code in front of a spliced
body stores the arguments. -/
def storeAll : List Nat → List Value → List Value → List Value
  | a :: as, v :: vs, l => storeAll as vs (l.set a v)
  | _, _, l => l

theorem performAll_stores {σ : Type} (M : Machine σ) (labels : List Label) (rest : List Value) :
    ∀ (as : List Nat) (vs : List Value) (st : State σ), as.length = vs.length →
      (∀ a ∈ as, a < st.locals.length) →
      M.performAll labels (as.map Op.localSet) (vs ++ rest) st
        = (.next rest, { st with locals := storeAll as vs st.locals })
  | [], [], st, _, _ => rfl
  | a :: as, v :: vs, st, hl, ha => by
    have h : M.perform labels (.localSet a) ((v :: vs) ++ rest) st
        = (.next (vs ++ rest), { st with locals := st.locals.set a v }) := by
      simp only [Machine.perform, Op.stackEffect?, Machine.apply, Machine.act, List.cons_append,
        List.length_cons, List.take_succ_cons, List.take_zero, if_pos (ha a List.mem_cons_self),
        List.drop_succ_cons, List.drop_zero, List.nil_append]
      rw [if_pos (by omega)]
    rw [List.map_cons, Machine.performAll, h, Outcome.andThen,
      performAll_stores M labels rest as vs { st with locals := st.locals.set a v }
        (by simpa using hl) (fun b hb => by simpa using ha b (List.mem_cons_of_mem _ hb))]
    rfl

theorem getElem?_storeAll_of_notMem {b : Nat} : ∀ {as : List Nat} {vs l : List Value}, b ∉ as →
    (storeAll as vs l)[b]? = l[b]?
  | [], _, _, _ => rfl
  | _ :: _, [], _, _ => rfl
  | a :: as, v :: vs, l, h => by
    have hne : a ≠ b := by
      rintro rfl
      exact h List.mem_cons_self
    rw [storeAll, getElem?_storeAll_of_notMem fun hm => h (List.mem_cons_of_mem _ hm),
      List.getElem?_set_ne hne]

theorem getElem?_storeAll : ∀ {as : List Nat} {vs l : List Value}, as.Nodup →
    as.length = vs.length → (∀ a ∈ as, a < l.length) →
      ∀ (j a : Nat), as[j]? = some a → (storeAll as vs l)[a]? = vs[j]?
  | a :: as, v :: vs, l, hn, hl, hlt, j, b, hb => by
    obtain ⟨ha, hn⟩ := List.nodup_cons.mp hn
    rw [storeAll]
    cases j with
    | zero =>
      obtain rfl : a = b := by simpa using hb
      rw [getElem?_storeAll_of_notMem ha, List.getElem?_set_self (hlt a List.mem_cons_self)]
      rfl
    | succ j =>
      exact getElem?_storeAll hn (by simpa using hl)
        (fun c hc => by simpa using hlt c (List.mem_cons_of_mem _ hc)) j b (by simpa using hb)

theorem extended_storeAll {size extra : Nat} {caller : List Value} : ∀ {as : List Nat}
    {vs l : List Value}, (∀ a ∈ as, size ≤ a) → Extended size extra caller l →
      Extended size extra caller (storeAll as vs l)
  | [], _, _, _, h => h
  | _ :: _, [], _, _, h => h
  | a :: as, v :: vs, l, hlo, h => by
    rw [storeAll]
    exact extended_storeAll (fun b hb => hlo b (List.mem_cons_of_mem _ hb))
      (h.set_right (hlo a List.mem_cons_self) v)

/-- **The stores bind the arguments.**  The last argument is on top of the stack, and stored
first. -/
theorem bound_stores {arguments : List Nat} {size extra : Nat} (hs : Slots arguments size extra)
    {caller l : List Value} (hc : Extended size extra caller l) {vs : List Value}
    (hl : arguments.length = vs.length) :
    Bound arguments size extra caller vs.reverse (storeAll arguments.reverse vs l) where
  length := by rw [List.length_reverse, hl]
  stored := by
    intro j a ha
    have hj := (List.getElem?_eq_some_iff.mp ha).1
    have hlen : l.length = size + extra := by
      obtain ⟨hl, more, rfl, hm⟩ := hc
      rw [List.length_append, hl, hm]
    have hrev : arguments.reverse[arguments.length - 1 - j]? = some a := by
      rw [List.getElem?_reverse (by omega), ← ha]
      congr 1
      omega
    rw [getElem?_storeAll (List.pairwise_reverse.mpr (hs.nodup.imp Ne.symm))
      (by rw [List.length_reverse, hl]) (fun b hb => hlen ▸ hs.upper b (List.mem_reverse.mp hb)) _ a
      hrev, List.getElem?_reverse (by omega), hl]
  caller := extended_storeAll (fun a ha => hs.lower a (List.mem_reverse.mp ha)) hc

/-! ## 4. The spliced code

The body of the callee on the one side, run by a call, and its copy in the caller on the other.  The
copy lies on top of the stack of the caller and under its labels, and touches neither. -/

/-- What an operation of the callee becomes under the given regions: its local and its callee are
renumbered, and in a block a `return` leaves the block. -/
def spliced (wrapped : Bool) (f g : Nat → Nat) (n : Nesting) (o : Op) : Op :=
  if wrapped && o = .ret then .br n.length else (o.mapLocal f).mapCall g

theorem spliced_of_not_isPlain (wrapped : Bool) (f g : Nat → Nat) (n : Nesting) {o : Op}
    (h : ¬ o.isPlain) : spliced wrapped f g n o = o := by
  cases o with
  | enter _ _ | elseArm | close | catchTag _ | catchAll | delegate _ =>
    simp [spliced, Op.mapLocal, Op.mapCall]
  | _ => exact absurd rfl h

theorem isPlain_spliced (wrapped : Bool) (f g : Nat → Nat) (n : Nesting) {o : Op}
    (h : o.isPlain) : (spliced wrapped f g n o).isPlain := by
  unfold spliced
  split
  · rfl
  · cases o <;> exact h

/-- The prepared body is the body of the callee with its operations replaced one by one. -/
theorem substitute_spliced (wrapped : Bool) (f g : Nat → Nat) : ∀ (n : Nesting) (b : Body),
    Congruence.substitute (fun n o => .op (spliced wrapped f g n o) .done) n b.ops
      = Body.ops (((if wrapped then b.branchReturns n else b).map (Instr.mapLocal f)).map
          (Instr.mapCall g))
  | n, [] => by cases wrapped <;> rfl
  | n, i :: b => by
    have ih := substitute_spliced wrapped f g (n.observe i.op) b
    have hhead : (if i.op.isPlain then (Code.op (spliced wrapped f g n i.op) .done).ops else [i.op])
        = [spliced wrapped f g n i.op] := by
      split
      · rfl
      · rename_i h
        rw [spliced_of_not_isPlain _ _ _ _ h]
    rw [Body.ops_cons, Congruence.substitute, hhead, ih]
    cases wrapped with
    | false => rfl
    | true =>
      simp only [if_true, Body.branchReturns, List.map_cons, Body.ops_cons, List.singleton_append,
        Instr.op_mapCall, Instr.op_mapLocal]
      by_cases hr : i.op = .ret
      · simp only [hr, spliced, Bool.true_and, decide_true, if_true, Op.mapLocal, Op.mapCall]
        rfl
      · simp only [hr, spliced, Bool.true_and, decide_false, Bool.false_eq_true, if_false]

/-- What does not leave the function stays inside of the open regions. -/
theorem leaves_of_exitsEarly : ∀ {n : Nesting} {b : Body}, b.exitsEarly n = false →
    ∀ {before after : List Op} {o : Op}, b.ops = before ++ o :: after →
      o.leaves (n.observeAll before).length = false
  | n, [], _, before, after, o, e => by cases before <;> cases e
  | n, i :: b, h, before, after, o, e => by
    rw [Body.exitsEarly, Bool.or_eq_false_iff] at h
    cases before with
    | nil =>
      obtain ⟨rfl, -⟩ := List.cons.inj e
      exact h.1
    | cons o' before =>
      obtain ⟨rfl, e'⟩ := List.cons.inj e
      exact leaves_of_exitsEarly h.2 e'

theorem lt_of_leaves {o : Op} {depth label : Nat} (h : o.leaves depth = false)
    (hx : o.isException = false) (hl : label ∈ o.labels) : label < depth := by
  cases o <;> simp only [Op.labels, List.mem_cons, List.not_mem_nil, or_false] at hl
  case br => simpa [Op.leaves, ← hl] using h
  case brIf => simpa [Op.leaves, ← hl] using h
  case rethrow => cases hx
  case brTable targets fallback =>
    simp only [Op.leaves, Bool.or_eq_false_iff, decide_eq_false_iff_not, List.any_eq_false,
      decide_eq_true_eq, Nat.not_le] at h
    rcases hl with rfl | hl
    · exact h.1
    · exact h.2 label hl

section

variable {σ : Type}

/-- A call frame beside the spliced code: the frame has no surroundings, the spliced code has
those of the caller and, in a block of its own, the block. -/
def calleeSetting (M M' : Machine σ) (labels : List Label) (wrapped : Bool) (result : ResultType)
    (rest : List Value) (locals : List Value → List Value → Prop)
    (leftBounded rightBounded : Prop) : Setting σ where
  left := M
  right := M'
  under := []
  under' := if wrapped then ⟨⟨.block, result⟩, none⟩ :: labels else labels
  below := if wrapped then [] else rest
  locals := locals
  shares _ := wrapped
  returns := False
  wraps := wrapped
  skips := False
  leftBounded := leftBounded
  rightBounded := rightBounded

variable {M M' : Machine σ} {labels : List Label} {wrapped : Bool} {result : ResultType}
  {rest : List Value} {locals : List Value → List Value → Prop} {leftBounded rightBounded : Prop}

theorem calleeSetting_lawful (hf : M.floats = M'.floats) (ht : M.tags = M'.tags)
    (hl : M.fuel < M'.fuel → leftBounded) (hg : M'.fuel < M.fuel → rightBounded)
    (hr : M.results = result.arity) :
    (calleeSetting M M' labels wrapped result rest locals leftBounded rightBounded).Lawful where
  floats := hf
  tags := ht
  fuel_lt := hl
  fuel_gt := hg
  results h := h.elim
  insideTry h := h.elim
  arity := by
    intro k hw n h
    obtain rfl : wrapped = true := hw
    -- the callee has only the label of the function, which is the block of the spliced code
    simp only [calleeSetting, Machine.labelArity?, List.length_nil, Nat.le_zero] at h
    split at h
    · subst k
      simpa [calleeSetting, Machine.labelArity?, regionsOf, Nesting.labelArity, Region.labelArity,
        hr] using h
    · cases h
  caught := by
    intro k _ e h
    simp [calleeSetting] at h

/-- A `return` of the callee leaves the block: in its place stands a branch to the label of the
block, with as many values as the callee returns. -/
theorem opSim_ret (hr : M.results = result.arity) (n : Nesting) :
    (calleeSetting M M' labels true result rest locals leftBounded rightBounded).OpSim n .ret
      (.br n.length) := by
  intro inner hi stack st st' hs
  subst hi
  have hlen : (regionsOf inner).length = inner.length := List.length_map _
  have harity : M'.labelArity? (inner ++ (⟨⟨.block, result⟩, none⟩ :: labels)) inner.length
      = some result.arity := by
    have h := Setting.labelArity?_outer M' inner (⟨⟨.block, result⟩, none⟩ :: labels) 0
    rw [Nat.add_zero] at h
    rw [h]
    simp [Machine.labelArity?, regionsOf, Nesting.labelArity, Region.labelArity]
  have hbelow : (calleeSetting M M' labels true result rest locals leftBounded
      rightBounded).belowAt (regionsOf inner).length = [] := by
    simp [calleeSetting, Setting.belowAt]
  have hleft : M.perform (inner ++ []) .ret stack st
      = (if result.arity ≤ stack.length then .ret (stack.take result.arity) else .stuck, st) := by
    simp only [Machine.perform, hr]
  have hright :
      M'.perform (inner ++ (⟨⟨.block, result⟩, none⟩ :: labels)) (.br inner.length) stack st'
      = (if result.arity ≤ stack.length then .branch inner.length (stack.take result.arity)
          else .stuck, st') := by
    simp only [Machine.perform, Machine.branch, harity]
  rw [hbelow, List.append_nil, hlen]
  change (calleeSetting M M' labels true result rest locals leftBounded rightBounded).Outcomes
    inner.length (M.perform (inner ++ []) .ret stack st)
    (M'.perform (inner ++ (⟨⟨.block, result⟩, none⟩ :: labels)) (.br inner.length) stack st')
  rw [hleft, hright]
  by_cases hc : result.arity ≤ stack.length
  · simp only [if_pos hc]
    exact .inr ⟨.wrapped _ rfl, hs⟩
  · simp only [if_neg hc]
    exact .stuck rfl

/-- **The spliced code simulates the body of the callee.** Its locals are those of the caller under
which the parameters now go, its calls have the new numbers of the functions, and a `return` in it
is a branch to the block that was put around it. -/
theorem exists_spliced {f g : Nat → Nat} {b : Body} {c : Code} (hc : Code.parse b.ops = some c)
    (H : (calleeSetting M M' labels wrapped result rest locals leftBounded rightBounded).Lawful)
    (hr : M.results = result.arity)
    (hx : ∀ o ∈ b.ops, o.isException = false ∧ o.tailCallTarget? = none)
    (hw : wrapped = b.exitsEarly [])
    (hcalls : ∀ t, .call t ∈ b.ops →
      (calleeSetting M M' labels wrapped result rest locals leftBounded rightBounded).Calls t (g t))
    (hreads : ∀ i, Setting.ReadsAs locals i (f i)) (hwrites : ∀ i, Setting.WritesAs locals i (f i))
    (hmemory : ∀ o ∈ b.ops,
      (calleeSetting M M' labels wrapped result rest locals leftBounded rightBounded).Provides o) :
    ∃ d, Code.parse (Body.ops (((if wrapped then b.branchReturns [] else b).map
        (Instr.mapLocal f)).map (Instr.mapCall g))) = some d ∧
      (calleeSetting M M' labels wrapped result rest locals leftBounded rightBounded).Sim []
        c d := by
  rw [← substitute_spliced]
  refine H.congruence.parse_substitute (fun o ho _ label e => ?_)
    (fun o _ hp n => ⟨isPlain_spliced _ _ _ _ hp, trivial⟩)
    (fun before o after e hp c c' h => ?_) hc
  · exact absurd (hx o ho).1 (by rw [e]; simp [Op.isException])
  · have hm : o ∈ b.ops := e ▸ List.mem_append_right _ List.mem_cons_self
    refine Setting.OpSim.cons ?_ h
    by_cases hret : wrapped = true ∧ o = .ret
    · obtain ⟨rfl, rfl⟩ := hret
      exact opSim_ret hr _
    · have hs : spliced wrapped f g (Nesting.observeAll [] before) o
          = (o.mapLocal f).mapCall g := by
        unfold spliced
        rw [if_neg]
        simpa using hret
      rw [hs]
      refine H.opSim ⟨fun i _ => hreads i, fun i _ => hwrites i, fun t ht => ?_, fun label hl => ?_,
        fun hreturns => ?_, hmemory o hm⟩
      · have hcall : o = .call t := by
          have := (hx o hm).2
          cases o <;> simp [Op.callTarget?, Op.tailCallTarget?] at ht this
          rw [ht]
        exact hcalls t (hcall ▸ hm)
      · cases hwr : wrapped with
        | true =>
          by_cases hlt : label < (Nesting.observeAll [] before).length
          · exact .inl hlt
          · exact .inr ⟨label - (Nesting.observeAll [] before).length, by omega, rfl⟩
        | false =>
          have hleaves := leaves_of_exitsEarly (hw.symm.trans hwr) e
          exact .inl (lt_of_leaves hleaves (hx o hm).1 hl)
      · -- neither a tail call nor a `return` is left
        have htail := (hx o hm).2
        cases o <;> simp [Op.returns, Op.tailCallTarget?] at hreturns htail
        cases hwr : wrapped with
        | true => exact absurd ⟨hwr, rfl⟩ hret
        | false =>
          have hleaves := leaves_of_exitsEarly (hw.symm.trans hwr) e
          cases hleaves

/-! ## 5. A call and the code in its place

How the callee ends is seen by the caller as an answer, and how the spliced code ends as a signal.
Each way of ending is one case. -/

/-- The code that stands for a call: the arguments are stored, and the spliced code follows, in a
block if it has to be wrapped. -/
def callCodeOf (arguments : List Nat) (wrapped : Bool) (result : ResultType) (d : Code) : Code :=
  (Code.ofOps (arguments.reverse.map Op.localSet)).append
    (if wrapped then .region .block result d .close .done else d)

theorem callCodeOf_wellFormed {arguments : List Nat} {wrapped : Bool} {result : ResultType}
    {d : Code} (hd : d.WellFormed) : (callCodeOf arguments wrapped result d).WellFormed := by
  refine (Code.wellFormed_ofOps fun o ho => ?_).append ?_
  · obtain ⟨a, -, rfl⟩ := List.mem_map.mp ho
    rfl
  · cases wrapped with
    | true => exact ⟨rfl, hd, trivial, trivial⟩
    | false => exact hd

variable {size extra : Nat} {arguments : List Nat} {caller : List Value}

/-- How the end of the callee is seen by the caller, and how the end of the spliced code is seen
there. -/
theorem outcomes_of_callee {ML MR : Machine σ} {depth : Nat} {st : State σ} {o o' : Outcome σ}
    (h : (calleeSetting M M' labels wrapped result rest (Bound arguments size extra st.locals)
      leftBounded rightBounded).Outcomes 0 o o') :
    (Setting.bounded ML MR (Extended size extra) leftBounded rightBounded).Outcomes depth
      ((o.1.answer result.arity).signal
        (fun values => if values.length = result.arity then .next (values ++ rest) else .stuck)
        (.raise 0), { st with world := o.2.world })
      (if wrapped then (o'.1.leave result.arity rest, o'.2) else o') := by
  obtain ⟨s, l, w⟩ := o
  obtain ⟨s', l', w'⟩ := o'
  -- both sides go on with the same signal
  have same : ∀ {s₁ s₂ : Signal}, Bound arguments size extra st.locals l l' → w = w' →
      (s₁ = .stuck ∨ s₂ = s₁) →
      (Setting.bounded ML MR (Extended size extra) leftBounded rightBounded).Outcomes depth
        (s₁, { st with world := w }) (s₂, ⟨l', w'⟩) := by
    intro s₁ s₂ hb hw hs
    rcases hs with rfl | rfl
    · exact .stuck rfl
    · exact .refl_of_bounded depth ⟨hb.caller, hw⟩
  have hreturn : ∀ {values : List Value} {s₂ : Signal}, Bound arguments size extra st.locals l l' →
      w = w' → s₂ = .next (values ++ rest) →
      (Setting.bounded ML MR (Extended size extra) leftBounded rightBounded).Outcomes depth
        (if values.length = result.arity then .next (values ++ rest) else .stuck,
          { st with world := w }) (s₂, ⟨l', w'⟩) := by
    intro values s₂ hb hw hs
    refine same hb hw ?_
    split
    · exact .inr hs
    · exact .inl rfl
  have hright : (if wrapped then ((s', (⟨l', w'⟩ : State σ)).1.leave result.arity rest,
      (s', (⟨l', w'⟩ : State σ)).2) else (s', ⟨l', w'⟩))
        = (if wrapped then s'.leave result.arity rest else s', (⟨l', w'⟩ : State σ)) := by
    cases wrapped <;> rfl
  rw [hright]
  rcases h with (e | ⟨hb, e⟩ | ⟨hb, e⟩) | ⟨he, hb, hw⟩
  · obtain rfl : s = .stuck := e
    exact .stuck rfl
  · obtain rfl : s = .timeout := e
    exact .inl (.inr (.inl ⟨hb, rfl⟩))
  · obtain rfl : s' = .timeout := e
    refine .inl (.inr (.inr ⟨hb, ?_⟩))
    cases wrapped <;> rfl
  · cases he with
    | next values =>
      by_cases hv : values.length = result.arity
      · simp only [Signal.answer, if_pos hv, Answer.signal]
        refine same hb hw (.inr ?_)
        cases wrapped <;> simp [Signal.leave, hv, Setting.belowAt, calleeSetting]
      · simp only [Signal.answer, if_neg hv, Answer.signal]
        exact .stuck rfl
    | inner values h => exact absurd h (Nat.not_lt_zero _)
    | @outer label values h =>
      obtain rfl : wrapped = true := h
      cases label with
      | zero => exact hreturn hb hw rfl
      | succ label => exact .stuck (by simp [Signal.answer, Answer.signal])
    | ret values h => exact h.elim
    | wrapped values h =>
      obtain rfl : wrapped = true := h
      exact hreturn hb hw rfl
    | @raise skip e h =>
      obtain rfl : skip = 0 := h.resolve_right id
      refine same hb hw (.inr ?_)
      cases wrapped <;> rfl
    | escape e h => exact h.elim
    | trap =>
      refine same hb hw (.inr ?_)
      cases wrapped <;> rfl
    | timeout =>
      refine same hb hw (.inr ?_)
      cases wrapped <;> rfl

/-- The code in place of a call first stores the arguments, the last of which is on top. -/
theorem eval_callCodeOf (M : Machine σ) (labels : List Label) (wrapped : Bool)
    (result : ResultType) (d : Code) (hslots : Slots arguments size extra) {l l' : List Value}
    (hext : Extended size extra l l') {args : List Value} (hlen : arguments.length = args.length)
    (rest : List Value) (w : World σ) :
    (callCodeOf arguments wrapped result d).eval M labels (args ++ rest) ⟨l', w⟩
      = if wrapped then
          Code.eval M labels (.region .block result d .close .done) rest
            ⟨storeAll arguments.reverse args l', w⟩
        else d.eval M labels rest ⟨storeAll arguments.reverse args l', w⟩ := by
  have hbelow : ∀ a ∈ arguments.reverse, a < l'.length := by
    intro a ha
    have hu := hslots.upper a (List.mem_reverse.mp ha)
    obtain ⟨hl, more, rfl, hm⟩ := hext
    simp only [List.length_append]
    omega
  have hstores := performAll_stores M labels rest arguments.reverse args ⟨l', w⟩
    (by rw [List.length_reverse, hlen]) hbelow
  unfold callCodeOf
  rw [Code.eval_append, Code.eval_ofOps, hstores, Outcome.andThen]
  cases wrapped <;> rfl

/-- **The code in place of a call simulates the call.**  The call either runs the body of the
callee in a frame of its own, or has no time left for it. -/
theorem sim_callCode {ML MR : Machine σ} {target : Nat} {signature : Signature} {c d : Code}
    (hsig : ML.signatures[target]? = some signature)
    (hslots : Slots arguments size extra) (hlen : arguments.length = signature.params.length)
    (hcall : ∀ args w, args.length = signature.params.length →
      (leftBounded ∧ (ML.call target args w).1 = .timeout) ∨
        ML.call target args w = ((c.eval M [] [] ⟨args, w⟩).1.answer signature.result.arity,
          (c.eval M [] [] ⟨args, w⟩).2.world))
    (hsim : ∀ labels rest caller,
      (calleeSetting M MR labels wrapped signature.result rest (Bound arguments size extra caller)
        leftBounded rightBounded).Sim [] c d)
    {n : Nesting} {k k' : Code}
    (hk : (Setting.bounded ML MR (Extended size extra) leftBounded rightBounded).Sim n k k') :
    (Setting.bounded ML MR (Extended size extra) leftBounded rightBounded).Sim n
      (.op (.call target) k) ((callCodeOf arguments wrapped signature.result d).append k') := by
  intro labels hl stack st st' hs
  obtain ⟨l, w⟩ := st
  obtain ⟨l', w'⟩ := st'
  have hext : Extended size extra l l' := hs.1
  obtain rfl : w = w' := hs.2
  have e : stack ++ (Setting.bounded ML MR (Extended size extra) leftBounded
      rightBounded).belowAt n.length = stack := by
    simp [Setting.bounded, Setting.belowAt]
  rw [e, Code.eval_append]
  simp only [Code.eval]
  refine Setting.Outcomes.andThen ?_ fun stack st st' hs => hk labels hl stack st st' hs
  change (Setting.bounded ML MR (Extended size extra) leftBounded rightBounded).Outcomes n.length
    (ML.perform (labels ++ []) (.call target) stack ⟨l, w⟩)
    ((callCodeOf arguments wrapped signature.result d).eval MR (labels ++ []) stack ⟨l', w⟩)
  rw [List.append_nil]
  simp only [Machine.perform, Machine.invokeWith, hsig]
  by_cases hc : signature.params.length ≤ stack.length
  · rw [if_pos hc]
    -- the arguments are on the stack, the last one on top
    have htake : (stack.take signature.params.length).length = signature.params.length := by
      rw [List.length_take, Nat.min_eq_left hc]
    have hbound := bound_stores hslots hext (hlen.trans htake.symm)
    have hcode : (callCodeOf arguments wrapped signature.result d).eval MR labels stack ⟨l', w⟩
        = (if wrapped then
            Code.eval MR labels (.region .block signature.result d .close .done)
              (stack.drop signature.params.length)
              ⟨storeAll arguments.reverse (stack.take signature.params.length) l', w⟩
          else d.eval MR labels (stack.drop signature.params.length)
              ⟨storeAll arguments.reverse (stack.take signature.params.length) l', w⟩) := by
      have hrun := eval_callCodeOf MR labels wrapped signature.result d hslots hext
        (hlen.trans htake.symm) (stack.drop signature.params.length) w
      rwa [List.take_append_drop] at hrun
    rw [hcode]
    rcases hcall (stack.take signature.params.length).reverse w
      (by rw [List.length_reverse, htake]) with ⟨hb, ht⟩ | hrun
    · refine .inl (.inr (.inl ⟨hb, ?_⟩))
      simp only [ht, Answer.signal]
    · rw [hrun]
      have hcallee := hsim labels (stack.drop signature.params.length) l [] rfl []
        ⟨(stack.take signature.params.length).reverse, w⟩
        ⟨storeAll arguments.reverse (stack.take signature.params.length) l', w⟩ ⟨hbound, rfl⟩
      have hout := @outcomes_of_callee _ _ _ _ _ _ _ _ _ _ _ _ ML MR n.length ⟨l, w⟩ _ _ hcallee
      cases wrapped with
      | false => exact hout
      | true =>
        simp only [if_true, Code.eval, Machine.region, Outcome.andThen_next] at hout ⊢
        exact hout
  · rw [if_neg hc]
    exact .stuck rfl

end

end Inline

end WasmTrim
