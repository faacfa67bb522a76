/-
# The height of the stack at run time

`Machine.region_rule` says what a property of all parts of a region says about the region.  With
it follows what the machine guarantees of every code, typed or not: a branch carries as many
values as its label takes (`Code.branchFits`), and a code whose height is computed ends at
that height, if it runs to its end (`Code.length_of_next`).

For this reason a `return` at the end of a body may be left out when the height says that exactly
the results are on the stack (`Function.refines_withoutFinalReturn`).

No types are needed for that.  The computed height (`stack_height`) is compared with the height at
run time and not with what a checker thinks: if control gets to the end at all, then every
operation has taken and left what its effect says, every region has left its results, and every
call has given as many results as the callee has.  What happens when control does not get there is
of no interest, since a `return` is not reached then either.

A branch is the one thing that could put the wrong number of values behind a region.  That it
cannot is a property of the machine, which takes as many values along as the label has.

The rule on regions is stated once for a property of outcomes and used twice, for branches and for
heights: it says what has to be known of a round, of an arm and of the first part, and gives the
same of the region.
-/
import WasmTrim.Proofs.Inline.Prepared
import WasmTrim.Proofs.Semantics.Passes

namespace WasmTrim

/-! ## 1. Regions

What a region does, by what its parts may do: it ends as one of them does, apart from the branches
and exceptions that it takes itself. -/

namespace Machine

variable {σ : Type} (M : Machine σ)

/-- What holds of every round holds of a loop, which never ends by starting again. -/
theorem iterate_rule {I : State σ → Prop} {Q : Outcome σ → Prop} {round : State σ → Outcome σ}
    (hround : ∀ st, I st → Q (round st)) (hagain : ∀ values st, Q (.branch 0 values, st) → I st)
    (htimeout : ∀ st, I st → Q (.timeout, st)) : ∀ (rounds : Nat) (st : State σ), I st →
      Q (iterate round rounds st) ∧ ∀ values, (iterate round rounds st).1 ≠ .branch 0 values
  | 0, st, h => ⟨htimeout st h, by simp [iterate]⟩
  | rounds + 1, st, h => by
    have hq := hround st h
    by_cases hb : ∃ values, (round st).1 = .branch 0 values
    · obtain ⟨values, e⟩ := hb
      rw [Setting.iterate_of_eq e]
      refine iterate_rule hround hagain htimeout rounds _ (hagain values _ ?_)
      rw [← e]
      exact hq
    · have hn : ∀ values, (round st).1 ≠ .branch 0 values := fun values e => hb ⟨values, e⟩
      rw [Setting.iterate_of_ne hn]
      exact ⟨hq, hn⟩

/-- **What holds of the parts of a region.**  If `Q` holds of the outcome of every part that is
run, then the region ends with a signal of which `Q` holds, seen from outside. -/
theorem region_rule {I : State σ → Prop} {Q : Outcome σ → Prop} {r : Region}
    (first : State σ → Outcome σ) (other : Option Exception → State σ → Outcome σ)
    (stack : List Value) (st : State σ) (hfirst : ∀ st, I st → Q (first st))
    (helse : r.kind = .ifThen → ∀ st, I st → Q (other none st))
    (hcatch : r.kind = .tryCatch → ∀ e st, Q (.raise 0 e, st) → Q (other (some e) st))
    (hagain : r.kind = .loop → ∀ values st, Q (.branch 0 values, st) → I st)
    (htimeout : ∀ st, I st → Q (.timeout, st)) (h : I st) :
    (r.kind = .ifThen ∧ (∀ c rest, stack ≠ .i32 c :: rest) ∧
        M.region r first other stack st = (.stuck, st)) ∨
      ∃ s st', M.region r first other stack st
          = (s.leave r.result.arity (stack.drop r.kind.operandCount), st') ∧ Q (s, st') ∧
        (r.kind = .loop → ∀ values, s ≠ .branch 0 values) ∧
        (r.kind = .ifThen → ∃ c rest, stack = .i32 c :: rest) := by
  obtain ⟨kind, result⟩ := r
  cases kind with
  | block => exact .inr ⟨(first st).1, (first st).2, rfl, hfirst st h, by simp, by simp⟩
  | loop =>
    obtain ⟨hq, hn⟩ := iterate_rule hfirst (hagain rfl) htimeout M.fuel st h
    exact .inr ⟨_, _, rfl, hq, fun _ => hn, by simp⟩
  | ifThen =>
    match stack with
    | .i32 c :: rest =>
      refine .inr ?_
      by_cases hc : c = 0
      · exact ⟨(other none st).1, (other none st).2, by simp only [region, if_pos hc]; rfl,
          helse rfl st h, by simp, fun _ => ⟨c, rest, rfl⟩⟩
      · exact ⟨(first st).1, (first st).2, by simp only [region, if_neg hc]; rfl,
          hfirst st h, by simp, fun _ => ⟨c, rest, rfl⟩⟩
    | [] | .i64 _ :: _ | .f64 _ :: _ => exact .inl ⟨rfl, by simp, rfl⟩
  | tryCatch =>
    have hq := hfirst st h
    by_cases hr : ∃ e, (first st).1 = .raise 0 e
    · obtain ⟨e, he⟩ := hr
      have hf : first st = (.raise 0 e, (first st).2) := Prod.ext he rfl
      have hc : (first st).caughtBy other = other (some e) (first st).2 := by
        rw [hf]
        rfl
      refine .inr ⟨(other (some e) (first st).2).1, (other (some e) (first st).2).2, ?_, ?_,
        by simp, by simp⟩
      · simp only [region, hc]
        rfl
      · exact hcatch rfl e (first st).2 (hf ▸ hq)
    · have hc : (first st).caughtBy other = first st :=
        Setting.caughtBy_of_ne fun e he => hr ⟨e, he⟩
      refine .inr ⟨(first st).1, (first st).2, ?_, hq, by simp, by simp⟩
      simp only [region, hc]
      rfl

end Machine

/-! ## 2. Branches

How many values a branch carries is settled where it is made.  So a region that is left by its own
label ends with as many values as its block type says. -/

/-- A branch carries what its label takes, no more and no fewer values. Other signals fit whatever
they are. -/
def Signal.BranchFits {σ : Type} (M : Machine σ) (labels : List Label) (s : Signal) : Prop :=
  ∀ label values, s = .branch label values → M.labelArity? labels label = some values.length

namespace Machine

variable {σ : Type} (M : Machine σ) (labels : List Label)

theorem branchFits_branch (label : Nat) (stack : List Value) :
    (M.branch labels label stack).BranchFits M labels := by
  intro l values h
  unfold branch at h
  split at h
  · rename_i n hn
    split at h
    · rename_i hle
      obtain ⟨rfl, rfl⟩ := Signal.branch.inj h
      rw [hn, List.length_take, Nat.min_eq_left hle]
    · cases h
  · cases h

theorem branchFits_invokeWith {target : Nat} {stack : List Value} {st : State σ}
    {onReturn : ResultType → List Value → List Value → Signal} {onRaise : Exception → Signal}
    (hreturn : ∀ result values rest, (onReturn result values rest).BranchFits M labels)
    (hraise : ∀ e, (onRaise e).BranchFits M labels) :
    (M.invokeWith target stack st onReturn onRaise).1.BranchFits M labels := by
  unfold invokeWith
  split
  · exact fun _ _ h => by cases h
  · split
    · rename_i s _ _
      simp only
      generalize M.call target (stack.take s.params.length).reverse st.world = a
      obtain ⟨answer, w⟩ := a
      cases answer with
      | returned values => exact hreturn _ _ _
      | raised e => exact hraise e
      | trapped | stuck | timeout => exact fun _ _ h => by cases h
    · exact fun _ _ h => by cases h

theorem branchFits_perform (o : Op) (stack : List Value) (st : State σ) :
    (M.perform labels o stack st).1.BranchFits M labels := by
  have none : ∀ s : Signal, (∀ label values, s ≠ .branch label values) →
      s.BranchFits M labels := fun s h label values e => absurd e (h label values)
  have hplain : ∀ count more, o.stackEffect? = some (count, more) →
      (M.perform labels o stack st).1.BranchFits M labels := by
    intro count more he
    rw [Setting.perform_of_stackEffect? M he]
    refine none _ fun label values => ?_
    unfold apply
    split
    · split <;> simp
    · simp
  cases o with
  | br label => exact M.branchFits_branch labels label stack
  | brIf label =>
    rcases stack with _ | ⟨c | _ | _, stack⟩
    case cons.i32 =>
      simp only [perform]
      split
      · exact none _ (by simp)
      · exact M.branchFits_branch labels label stack
    all_goals exact none _ (by simp [perform])
  | brTable targets fallback =>
    rcases stack with _ | ⟨c | _ | _, stack⟩
    case cons.i32 => exact M.branchFits_branch labels _ stack
    all_goals exact none _ (by simp [perform])
  | call target =>
    refine M.branchFits_invokeWith labels (fun result values rest => none _ ?_) fun e => none _ ?_
    · intro label vs
      split <;> simp
    · simp
  | returnCall target =>
    refine M.branchFits_invokeWith labels (fun result values rest => none _ ?_) fun e => none _ ?_
    · intro label vs
      split <;> simp
    · intro label vs
      split <;> simp
  | ret =>
    refine none _ fun label vs => ?_
    simp only [perform]
    split <;> simp
  | throwTag tag =>
    refine none _ fun label vs => ?_
    simp only [perform]
    split
    · split <;> simp
    · simp
  | rethrow label =>
    refine none _ fun label vs => ?_
    simp only [perform]
    split <;> simp
  | unreachable | enter _ _ | elseArm | close | catchTag _ | catchAll | delegate _ =>
    exact none _ (by simp [perform, Op.stackEffect?])
  | nop | drop | select | localGet _ | localSet _ | localTee _ | globalGet _ | globalSet _
  | load _ _ | store _ _ | memorySize | memoryGrow | const _ | num _ => exact hplain _ _ rfl

end Machine

/-- Outside of a region a branch still fits, with its label counted from there and one less. -/
theorem Signal.BranchFits.leave {σ : Type} {M : Machine σ} {labels : List Label} {x : Label}
    {s : Signal} (h : s.BranchFits M (x :: labels)) (arity : Nat) (below : List Value) :
    (s.leave arity below).BranchFits M labels := by
  intro label values e
  cases s with
  | branch l vs =>
    cases l with
    | zero => cases e
    | succ l =>
      obtain ⟨rfl, rfl⟩ := Signal.branch.inj e
      have hfit := h (l + 1) vs rfl
      have houter := Setting.labelArity?_outer M [x] labels l
      rw [← houter, List.length_singleton, Nat.add_comm]
      exact hfit
  | next vs =>
    simp only [Signal.leave] at e
    split at e <;> cases e
  | raise skip ex => cases skip <;> cases e
  | ret _ | escape _ | trap | stuck | timeout => cases e

theorem Signal.BranchFits.andThen {σ : Type} {M : Machine σ} {labels : List Label}
    {o : Outcome σ} {k : List Value → State σ → Outcome σ} (h : o.1.BranchFits M labels)
    (hk : ∀ stack st, (k stack st).1.BranchFits M labels) :
    (o.andThen k).1.BranchFits M labels := by
  obtain ⟨s, st⟩ := o
  cases s with
  | next stack => exact hk stack st
  | _ => exact h

mutual

/-- **Every branch of a code carries what its label takes**, in number. A branch that finds fewer
values on the stack gets stuck and is no branch. -/
theorem Code.branchFits {σ : Type} (M : Machine σ) : ∀ (c : Code) (labels : List Label)
    (stack : List Value) (st : State σ), (c.eval M labels stack st).1.BranchFits M labels
  | .done, _, _, _ => by
    intro _ _ h
    simp only [Code.eval] at h
    cases h
  | .op o rest, labels, stack, st => by
    simp only [Code.eval]
    exact (M.branchFits_perform labels o stack st).andThen fun stack st =>
      Code.branchFits M rest labels stack st
  | .region kind result body arms rest, labels, stack, st => by
    simp only [Code.eval]
    refine Signal.BranchFits.andThen ?_ fun stack st => Code.branchFits M rest labels stack st
    rcases M.region_rule (r := ⟨kind, result⟩) (I := fun _ => True)
        (Q := fun o => o.1.BranchFits M (⟨⟨kind, result⟩, none⟩ :: labels))
        (body.eval M (⟨⟨kind, result⟩, none⟩ :: labels) []) (arms.eval M ⟨kind, result⟩ labels)
        stack st
        (fun st _ => Code.branchFits M body _ [] st)
        (fun _ st _ => Arms.branchFits M arms ⟨kind, result⟩ labels none st)
        (fun _ e st _ => Arms.branchFits M arms ⟨kind, result⟩ labels (some e) st)
        (fun _ _ _ _ => trivial) (fun _ _ _ _ h => by cases h) trivial with
      ⟨-, -, e⟩ | ⟨s, st', e, hs, -, -⟩
    · rw [e]
      exact fun _ _ h => by cases h
    · rw [e]
      exact hs.leave _ _

theorem Arms.branchFits {σ : Type} (M : Machine σ) : ∀ (a : Arms) (r : Region)
    (labels : List Label) (trigger : Option Exception) (st : State σ),
    (a.eval M r labels trigger st).1.BranchFits M (⟨r, none⟩ :: labels)
  | .close, r, labels, trigger, st => by
    intro _ _ h
    cases trigger <;> simp only [Arms.eval] at h <;> cases h
  | .delegate _, r, labels, trigger, st => by
    intro _ _ h
    cases trigger <;> simp only [Arms.eval] at h <;> cases h
  | .arm head body more, r, labels, trigger, st => by
    simp only [Arms.eval]
    cases armStack? trigger head with
    | none => exact Arms.branchFits M more r labels trigger st
    | some stack => exact Code.branchFits M body (⟨r, trigger⟩ :: labels) stack st

end

/-! ## 3. Heights

The height is computed from the body and the machine runs the code.  So it is first shown that the
search for the end of a region finds the end of the parsed region. -/

namespace Body

/-- Only the operations of a body decide where a region ends. -/
theorem closeOffset_ops : ∀ (body : Body) (n : Nat),
    closeOffset n (body.ops.map Op.plain) = closeOffset n body
  | [], _ => rfl
  | i :: body, n => by
    simp only [ops_cons, List.map_cons, closeOffset, Op.op_plain]
    simp only [closeOffset_ops body]

/-- Only the operations of a body decide about its height. -/
theorem heightFrom_ops (signatureOf : Nat → Option Signature) (height : Nat) (body : Body) :
    heightFrom signatureOf height (body.ops.map Op.plain) = heightFrom signatureOf height body := by
  induction hl : body.length using Nat.strongRecOn generalizing height body with
  | ind n ih =>
    cases body with
    | nil => rfl
    | cons i rest =>
      simp only [List.length_cons] at hl
      rw [ops_cons, List.map_cons, heightFrom, heightFrom]
      simp only [Op.op_plain]
      split
      · rw [closeOffset_ops]
        refine congrArg _ (funext fun k => congrArg _ (funext fun height => ?_))
        have e : (List.map Op.plain (ops rest)).drop (k + 1)
            = (ops (rest.drop (k + 1))).map Op.plain := by
          simp [ops, List.map_drop]
        rw [e]
        exact ih _ (by rw [List.length_drop]; omega) _ _ rfl
      · exact congrArg _ (funext fun s => congrArg _ (funext fun height =>
          ih _ (by omega) _ _ rfl))
      · exact congrArg _ (funext fun s => congrArg _ (funext fun height =>
          ih _ (by omega) _ _ rfl))

theorem closeOffset_cons_plain {o : Op} (h : o.isPlain) (n : Nat) (rest : Body) :
    closeOffset n (o.plain :: rest) = (closeOffset n rest).map (· + 1) := by
  cases o with
  | enter _ _ | close | delegate _ => cases h
  | _ => rfl

theorem closeOffset_cons_arm {o : Op} (h : o.startsArm) (n : Nat) (rest : Body) :
    closeOffset n (o.plain :: rest) = (closeOffset n rest).map (· + 1) := by
  cases o with
  | enter _ _ | close | delegate _ => cases h
  | _ => rfl

end Body

mutual

/-- The search for the end of a region passes over whole codes. -/
theorem Code.closeOffset_ops : ∀ {c : Code}, c.WellFormed → ∀ (n : Nat) (rest : Body),
    Body.closeOffset (n + 1) (c.ops.map Op.plain ++ rest)
      = (Body.closeOffset (n + 1) rest).map (· + c.ops.length)
  | .done, _, n, rest => by simp [Code.ops]
  | .op o c, h, n, rest => by
    rw [Code.WellFormed] at h
    rw [Code.ops, List.map_cons, List.cons_append, Body.closeOffset_cons_plain h.1,
      Code.closeOffset_ops h.2, Option.map_map, List.length_cons]
    rfl
  | .region kind result body arms c, h, n, rest => by
    rw [Code.WellFormed] at h
    rw [Code.ops, List.map_cons, List.map_append, List.map_append, List.cons_append]
    simp only [Body.closeOffset, Op.op_plain, Op.opensRegion, if_true, List.append_assoc]
    rw [Code.closeOffset_ops h.2.1, Arms.closeOffset_ops h.2.2.1, Code.closeOffset_ops h.2.2.2]
    simp only [Option.map_map, List.length_cons, List.length_append]
    refine congrArg (Option.map · _) (funext fun k => ?_)
    simp only [Function.comp_apply]
    omega

/-- The search leaves a region at the end of its arms. -/
theorem Arms.closeOffset_ops : ∀ {a : Arms}, a.WellFormed → ∀ (n : Nat) (rest : Body),
    Body.closeOffset (n + 2) (a.ops.map Op.plain ++ rest)
      = (Body.closeOffset (n + 1) rest).map (· + a.ops.length)
  | .close, _, n, rest => rfl
  | .delegate _, _, n, rest => rfl
  | .arm head body more, h, n, rest => by
    rw [Arms.WellFormed] at h
    rw [Arms.ops, List.map_cons, List.map_append, List.cons_append, Body.closeOffset_cons_arm h.1,
      List.append_assoc, Code.closeOffset_ops h.2.1, Arms.closeOffset_ops h.2.2]
    simp only [Option.map_map, List.length_cons, List.length_append]
    refine congrArg (Option.map · _) (funext fun k => ?_)
    simp only [Function.comp_apply]
    omega

end

/-- The search that starts inside of a region ends with its arms. -/
theorem Arms.closeOffset_one : ∀ {a : Arms}, a.WellFormed → ∀ rest : Body,
    ∃ k, Body.closeOffset 1 (a.ops.map Op.plain ++ rest) = some k ∧ k + 1 = a.ops.length
  | .close, _, rest => ⟨0, rfl, rfl⟩
  | .delegate _, _, rest => ⟨0, rfl, rfl⟩
  | .arm head body more, h, rest => by
    rw [Arms.WellFormed] at h
    obtain ⟨k, hk, hl⟩ := Arms.closeOffset_one h.2.2 rest
    refine ⟨k + body.ops.length + 1, ?_, ?_⟩
    · rw [Arms.ops, List.map_cons, List.map_append, List.cons_append,
        Body.closeOffset_cons_arm h.1, List.append_assoc, Code.closeOffset_ops h.2.1, hk]
      rfl
    · rw [Arms.ops, List.length_cons, List.length_append]
      omega

/-- What is pushed, if anything is, has the given length. -/
def Effect.Pushes (count : Nat) (e : Effect) : Prop :=
  ∀ values, e = .push values → values.length = count

namespace Machine

variable {σ : Type} (M : Machine σ)

theorem pushes_onMemory {count : Nat} {act : Memory → Effect × Memory}
    (h : ∀ m, (act m).1.Pushes count) (w : World σ) : (M.onMemory w act).1.Pushes count := by
  unfold onMemory
  split
  · exact h w.memory
  · exact fun _ e => by cases e

/-- An operation that uses no locals pushes as many values as its effect says. -/
theorem pushes_actOnWorld {o : Op} {pops pushes : Nat} (he : o.stackEffect? = some (pops, pushes))
    (args : List Value) (w : World σ) : (M.actOnWorld o args w).1.Pushes pushes := by
  have pushed : ∀ values : List Value, (Effect.push values).Pushes values.length :=
    fun _ _ e => by rw [Effect.push.inj e]
  have trapped : ∀ count, Effect.trap.Pushes count := fun _ _ e => by cases e
  have stuck : ∀ count, Effect.stuck.Pushes count := fun _ _ e => by cases e
  unfold actOnWorld
  split
  · cases he
    exact pushed []
  · cases he
    exact pushed []
  · cases he
    exact pushed [_]
  · cases he
    split
    · exact pushed [_]
    · exact stuck _
  · cases he
    split
    · exact pushed []
    · exact stuck _
  · cases he
    refine M.pushes_onMemory (fun m => ?_) w
    split
    · exact pushed [_]
    · exact trapped _
  · cases he
    refine M.pushes_onMemory (fun m => ?_) w
    split
    · exact pushed []
    · exact trapped _
  · cases he
    exact M.pushes_onMemory (fun m => pushed [_]) w
  · cases he
    exact M.pushes_onMemory (fun m => pushed [_]) w
  · cases he
    exact pushed [_]
  · cases he
    split
    · exact pushed [_]
    · exact trapped _
    · exact stuck _
  · exact stuck _

/-- An operation on operands pushes as many values as its effect says. -/
theorem length_of_act {o : Op} {pops pushes : Nat} (he : o.stackEffect? = some (pops, pushes))
    {args values : List Value} {st st' : State σ}
    (h : M.act o args st = (.push values, st')) : values.length = pushes := by
  have heff := congrArg Prod.fst h
  cases o with
  | localGet i =>
    cases he
    rcases args with _ | ⟨v, args⟩
    · simp only [act] at heff
      split at heff
      · rw [← Effect.push.inj heff]
        rfl
      · cases heff
    · cases heff
  | localSet i | localTee i =>
    cases he
    rcases args with _ | ⟨v, _ | ⟨v', args⟩⟩
    · cases heff
    · simp only [act] at heff
      split at heff
      · rw [← Effect.push.inj heff]
        rfl
      · cases heff
    · cases heff
  | _ => exact M.pushes_actOnWorld he args st.world values heff

theorem length_of_apply {o : Op} {pops pushes : Nat} (he : o.stackEffect? = some (pops, pushes))
    {stack stack' : List Value} {st st' : State σ}
    (h : M.apply o pops stack st = (.next stack', st')) :
    stack'.length = stack.length - pops + pushes := by
  unfold apply at h
  split at h
  · split at h
    · rename_i values st₂ hact
      obtain ⟨e, -⟩ := Prod.mk.inj h
      obtain rfl := Signal.next.inj e
      rw [List.length_append, List.length_drop, M.length_of_act he hact, Nat.add_comm]
    · cases congrArg Prod.fst h
    · cases congrArg Prod.fst h
  · cases congrArg Prod.fst h

theorem length_of_call {labels : List Label} {t : Nat} {s : Signature}
    (hs : M.signatures[t]? = some s) {stack stack' : List Value} {st st' : State σ}
    (h : M.perform labels (.call t) stack st = (.next stack', st')) :
    stack'.length = stack.length - s.params.length + s.result.arity := by
  replace h := congrArg Prod.fst h
  simp only [perform, invokeWith, hs] at h
  split at h
  · generalize M.call t (stack.take s.params.length).reverse st.world = a at h
    obtain ⟨answer, w⟩ := a
    cases answer with
    | returned values =>
      simp only [Answer.signal] at h
      split at h
      · rename_i hv
        obtain rfl := Signal.next.inj h
        rw [List.length_append, List.length_drop, hv, Nat.add_comm]
      · cases h
    | raised e => cases h
    | trapped => cases h
    | stuck => cases h
    | timeout => cases h
  · cases h

end Machine

/-- Behind a region stand its results, if a branch to its end carries as many as these. -/
theorem Signal.length_of_leave {arity : Nat} {below stack : List Value} : ∀ {s : Signal},
    (∀ values, s = .branch 0 values → values.length = arity) →
    s.leave arity below = .next stack → stack.length = below.length + arity
  | .next values, _, h => by
    simp only [Signal.leave] at h
    split at h
    · rename_i hv
      obtain rfl := Signal.next.inj h
      rw [List.length_append, hv, Nat.add_comm]
    · cases h
  | .branch 0 values, hbranch, h => by
    obtain rfl := Signal.next.inj h
    rw [List.length_append, hbranch values rfl, Nat.add_comm]
  | .branch (_ + 1) _, _, h => by cases h
  | .raise 0 _, _, h => by cases h
  | .raise (_ + 1) _, _, h => by cases h
  | .ret _, _, h => by cases h
  | .escape _, _, h => by cases h
  | .trap, _, h => by cases h
  | .stuck, _, h => by cases h
  | .timeout, _, h => by cases h

/-- A branch to a region that is not a loop carries the region's results. -/
theorem Signal.BranchFits.length_zero {σ : Type} {M : Machine σ} {x : Label}
    {labels : List Label} {values : List Value}
    (h : (Signal.branch 0 values).BranchFits M (x :: labels)) (hloop : x.region.kind ≠ .loop) :
    values.length = x.region.result.arity := by
  have hfit := h 0 values rfl
  simp only [Machine.labelArity?, Nat.zero_le, if_true, regionsOf, List.map_cons,
    Nesting.labelArity, List.getElem?_cons_zero, Option.some.injEq] at hfit
  rw [← hfit]
  obtain ⟨⟨kind, result⟩, caught⟩ := x
  cases kind with
  | loop => exact absurd rfl hloop
  | _ => rfl

theorem Outcome.andThen_eq_next {σ : Type} {o : Outcome σ} {k : List Value → State σ → Outcome σ}
    {stack' : List Value} {st' : State σ} (h : o.andThen k = (.next stack', st')) :
    ∃ stack st, o = (.next stack, st) ∧ k stack st = (.next stack', st') := by
  obtain ⟨s, st⟩ := o
  cases s with
  | next stack => exact ⟨stack, st, rfl, h⟩
  | _ => cases congrArg Prod.fst h

/-- What the height behind a plain operation is: the operands are taken off and the results put on,
where the operation has a known effect or calls something whose signature is known. -/
theorem Body.heightFrom_cons_plain {signatureOf : Nat → Option Signature} {height height' : Nat}
    {o : Op} (hp : o.isPlain) {rest : Body}
    (h : heightFrom signatureOf height (o.plain :: rest) = some height') :
    ∃ pops pushes next, shiftHeight height (pops, pushes) = some next ∧
      heightFrom signatureOf next rest = some height' ∧
      ((∃ t s, o = .call t ∧ signatureOf t = some s ∧ pops = s.params.length ∧
          pushes = s.result.arity) ∨ o.stackEffect? = some (pops, pushes)) := by
  rw [heightFrom] at h
  simp only [Op.op_plain] at h
  split at h
  · cases hp
  · obtain ⟨s, hs, h⟩ := Option.bind_eq_some_iff.mp h
    obtain ⟨next, hn, h⟩ := Option.bind_eq_some_iff.mp h
    exact ⟨_, _, next, hn, h, .inl ⟨_, s, rfl, hs, rfl, rfl⟩⟩
  · obtain ⟨⟨pops, pushes⟩, he, h⟩ := Option.bind_eq_some_iff.mp h
    obtain ⟨next, hn, h⟩ := Option.bind_eq_some_iff.mp h
    exact ⟨pops, pushes, next, hn, h, .inr he⟩

theorem shiftHeight_eq_some {height pops pushes next : Nat}
    (h : shiftHeight height (pops, pushes) = some next) :
    pops ≤ height ∧ next = height - pops + pushes := by
  unfold shiftHeight at h
  split at h
  · exact ⟨‹_›, (Option.some.inj h).symm⟩
  · cases h

/-- The height behind a region: its operands are gone, its results are there. -/
theorem Code.heightFrom_region {signatureOf : Nat → Option Signature} {height height' : Nat}
    {kind : RegionKind} {result : ResultType} {body : Code} {arms : Arms} {rest : Code}
    (hwf : (Code.region kind result body arms rest).WellFormed)
    (h : Body.heightFrom signatureOf height
      ((Code.region kind result body arms rest).ops.map Op.plain) = some height') :
    Body.heightFrom signatureOf (height - kind.operandCount + result.arity)
      (rest.ops.map Op.plain) = some height' := by
  rw [Code.WellFormed] at hwf
  rw [Code.ops, List.map_cons, List.map_append, List.map_append, Body.heightFrom] at h
  simp only [Op.op_plain] at h
  -- the search for the end of the region finds what the structure says
  obtain ⟨k, hk, hkl⟩ := Arms.closeOffset_one hwf.2.2.1 (rest.ops.map Op.plain)
  rw [Code.closeOffset_ops hwf.2.1, hk] at h
  obtain ⟨k', hk', h⟩ := Option.bind_eq_some_iff.mp h
  obtain rfl := Option.some.inj hk'
  obtain ⟨next, hshift, h⟩ := Option.bind_eq_some_iff.mp h
  obtain ⟨-, rfl⟩ := shiftHeight_eq_some hshift
  rwa [← List.append_assoc, List.drop_left' (by simp; omega)] at h

/-- **The computed height is the height at run time**, if control reaches the end. Nothing is
assumed about types, so a region may leave on the stack only what its block type says, whatever went
on inside. -/
theorem Code.length_of_next {σ : Type} (M : Machine σ) {signatureOf : Nat → Option Signature}
    (hsignature : ∀ t, signatureOf t = M.signatures[t]?) : ∀ {c : Code}, c.WellFormed →
    ∀ {labels : List Label} {stack : List Value} {st : State σ} {height : Nat},
      Body.heightFrom signatureOf stack.length (c.ops.map Op.plain) = some height →
      ∀ {stack' : List Value} {st' : State σ},
        c.eval M labels stack st = (.next stack', st') → stack'.length = height
  | .done, _, labels, stack, st, height, hh, stack', st', h => by
    rw [Code.eval] at h
    obtain ⟨e, -⟩ := Prod.mk.inj h
    obtain rfl := Signal.next.inj e
    simpa [Code.ops, Body.heightFrom] using hh
  | .op o rest, hwf, labels, stack, st, height, hh, stack', st', h => by
    rw [Code.WellFormed] at hwf
    rw [Code.ops, List.map_cons] at hh
    rw [Code.eval] at h
    obtain ⟨s₁, st₁, hperform, h⟩ := Outcome.andThen_eq_next h
    obtain ⟨pops, pushes, next, hshift, hrest, hcase⟩ := Body.heightFrom_cons_plain hwf.1 hh
    obtain ⟨-, rfl⟩ := shiftHeight_eq_some hshift
    suffices hlength : s₁.length = stack.length - pops + pushes from
      Code.length_of_next M hsignature hwf.2 (hlength ▸ hrest) h
    rcases hcase with ⟨t, s, rfl, hs, rfl, rfl⟩ | he
    · exact M.length_of_call (hsignature t ▸ hs) hperform
    · rw [Setting.perform_of_stackEffect? M he] at hperform
      exact M.length_of_apply he hperform
  | .region kind result body arms rest, hwf, labels, stack, st, height, hh, stack', st', h => by
    replace hh := Code.heightFrom_region hwf hh
    rw [Code.WellFormed] at hwf
    rw [Code.eval] at h
    obtain ⟨s₁, st₁, hregion, h⟩ := Outcome.andThen_eq_next h
    suffices hlength : s₁.length = stack.length - kind.operandCount + result.arity from
      Code.length_of_next M hsignature hwf.2.2.2 (hlength ▸ hh) h
    rcases M.region_rule (r := ⟨kind, result⟩) (I := fun _ => True)
        (Q := fun o => o.1.BranchFits M (⟨⟨kind, result⟩, none⟩ :: labels))
        (body.eval M (⟨⟨kind, result⟩, none⟩ :: labels) []) (arms.eval M ⟨kind, result⟩ labels)
        stack st
        (fun st _ => Code.branchFits M body _ [] st)
        (fun _ st _ => Arms.branchFits M arms ⟨kind, result⟩ labels none st)
        (fun _ e st _ => Arms.branchFits M arms ⟨kind, result⟩ labels (some e) st)
        (fun _ _ _ _ => trivial) (fun _ _ _ _ h => by cases h) trivial with
      ⟨-, -, e⟩ | ⟨s, st₂, e, hs, hloop, -⟩
    · rw [e] at hregion
      cases congrArg Prod.fst hregion
    · rw [e] at hregion
      rw [← List.length_drop]
      refine Signal.length_of_leave (fun values hb => ?_) (congrArg Prod.fst hregion)
      subst hb
      exact hs.length_zero fun hk => hloop hk values rfl

/-! ## 4. The last return

The operations of a body ending in a `return` are those of a code with the `return` in its last
place, at the outermost level or inside of a region; the height is known only in the first case. -/

theorem Arms.exists_last : ∀ a : Arms, ∃ init last, a.ops = init ++ [last] ∧ last.closesRegion
  | .close => ⟨[], .close, rfl, rfl⟩
  | .delegate label => ⟨[], .delegate label, rfl, rfl⟩
  | .arm head body more => by
    obtain ⟨init, last, e, hl⟩ := Arms.exists_last more
    exact ⟨head :: (body.ops ++ init), last, by simp [Arms.ops, e], hl⟩

/-- A plain operation at the end of a body stands behind a code of its own. -/
theorem Code.exists_append_of_ops {o : Op} (ho : o.isPlain) : ∀ {c : Code} {ops : List Op},
    c.WellFormed → c.ops = ops ++ [o] → ∃ d : Code, d.WellFormed ∧ d.ops = ops ∧
      c = d.append (.op o .done)
  | .done, ops, _, h => by simp [Code.ops] at h
  | .op o' rest, ops, hwf, h => by
    rw [Code.WellFormed] at hwf
    rw [Code.ops] at h
    cases ops with
    | nil =>
      obtain ⟨rfl, hr⟩ := List.cons.inj h
      have hd : rest = .done := by
        cases rest <;> simp [Code.ops] at hr
        rfl
      exact ⟨.done, trivial, rfl, by rw [hd, Code.append]⟩
    | cons o'' ops =>
      obtain ⟨rfl, hr⟩ := List.cons.inj h
      obtain ⟨d, hd, hops, rfl⟩ := Code.exists_append_of_ops ho hwf.2 hr
      exact ⟨.op o' d, ⟨hwf.1, hd⟩, by rw [Code.ops, hops], by rw [Code.append]⟩
  | .region kind result body arms rest, ops, hwf, h => by
    rw [Code.WellFormed] at hwf
    rw [Code.ops] at h
    rcases List.eq_nil_or_concat rest.ops with hr | ⟨init, last, hr⟩
    · -- the last operation would close the region
      obtain ⟨before, closer, ha, hcloses⟩ := Arms.exists_last arms
      have h' : (.enter kind result :: (body.ops ++ before)) ++ [closer] = ops ++ [o] := by
        rw [← h, hr, ha]
        simp
      obtain ⟨-, e⟩ := List.append_inj' h' rfl
      obtain rfl : closer = o := by simpa using e
      simp [Op.isPlain, hcloses] at ho
    · rw [hr, List.concat_eq_append] at h
      have h' : (.enter kind result :: (body.ops ++ (arms.ops ++ init))) ++ [last]
          = ops ++ [o] := by
        rw [← h]
        simp
      obtain ⟨rfl, e⟩ := List.append_inj' h' rfl
      obtain rfl : last = o := by simpa using e
      obtain ⟨d, hd, hops, e⟩ := Code.exists_append_of_ops ho hwf.2.2.2
        (hr.trans (List.concat_eq_append ..))
      exact ⟨.region kind result body arms d, ⟨hwf.1, hwf.2.1, hwf.2.2.1, hd⟩,
        by rw [Code.ops, hops], by rw [e, Code.append]⟩

/-- The last operation of a body stands behind the others. -/
theorem Body.ops_of_getLast? {body : Body} {o : Op} (h : body.getLast?.map Instr.op = some o) :
    body.ops = Body.ops body.dropLast ++ [o] := by
  obtain ⟨i, hi, rfl⟩ := Option.map_eq_some_iff.mp h
  have hne : body ≠ [] := by
    rintro rfl
    cases hi
  rw [List.getLast?_eq_some_getLast hne] at hi
  conv => lhs; rw [← List.dropLast_concat_getLast hne, Option.some.inj hi]
  simp

/-- **A last `return` that does nothing may be left out.** Where the computed height is that of the
results, the stack holds exactly the results, and ending the body returns them as the `return` did.
-/
theorem Function.refines_withoutFinalReturn {signatures : List Signature}
    {signatureOf : Nat → Option Signature} (hsignature : ∀ t, signatureOf t = signatures[t]?)
    (f : Function) : f.Refines signatures { f with body := f.withoutFinalReturn signatureOf } := by
  unfold withoutFinalReturn
  split
  · rename_i hlast
    obtain ⟨hret, hheight⟩ := hlast
    -- the body is another one with a `return` behind it
    have hbody := Body.ops_of_getLast? hret
    cases hc : Code.parse f.body.ops with
    | none =>
      refine ⟨rfl, rfl, fun h => by simp [hc] at h, fun M _ args w _ => .inl ?_⟩
      simp only [run, hc]
    | some c =>
      obtain ⟨hops, hwf⟩ := Code.ops_of_parse hc
      obtain ⟨d, hd, hdops, rfl⟩ := Code.exists_append_of_ops (o := .ret) rfl hwf (hops.trans hbody)
      have hparse : Code.parse (Body.ops f.body.dropLast) = some d := hdops ▸ Code.parse_ops hd
      refine ⟨rfl, rfl, fun _ => by simp [hparse], fun M hM args w _ => ?_⟩
      simp only [run, hc, hparse, Code.eval_append]
      have hent : Function.entryState { f with body := f.body.dropLast } args w
          = f.entryState args w := rfl
      rw [hent]
      generalize hM' : ({ M with results := f.result.arity } : Machine _) = M'
      have hsig' : ∀ t, signatureOf t = M'.signatures[t]? := by
        intro t
        rw [hsignature, ← hM', hM]
      have hres : M'.results = f.result.arity := by rw [← hM']
      cases ho : d.eval M' [] [] (f.entryState args w) with
      | mk s st =>
        cases s with
        | next stack =>
          have hlen : stack.length = f.result.arity := by
            have hh : Body.heightFrom signatureOf ([] : List Value).length (d.ops.map Op.plain)
                = some f.result.arity := by
              rw [hdops, Body.heightFrom_ops]
              exact hheight
            exact Code.length_of_next M' hsig' hd hh ho
          have htake : stack.take f.result.arity = stack := by rw [← hlen, List.take_length]
          refine .inr ?_
          simp only [Outcome.andThen, Code.eval, Machine.perform, hres,
            if_pos (Nat.le_of_eq hlen.symm), htake, Signal.answer, if_pos hlen]
        | _ => exact .inr rfl
  · exact .refl _ f

end WasmTrim
