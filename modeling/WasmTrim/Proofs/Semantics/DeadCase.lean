/-
# Removing a dead case

A dispatch over runtime types tests for one type after the other.  Where a type is never
constructed its test always fails, and `Peephole.deadTypeCase` takes the case out: the guard,
which is straight-line code up to an `if`, and the arm of that `if` which never runs.  If there is
an `else`, its arm is left in a block.

* The rule searches the body for the end and for the `else` of the `if`, and finds those of this
  `if` and of no other (`Conditional`, `Conditional.Proper.deadTypeCase_eq`).
* Every label in the code that is left names the region it has named before
  (`Conditional.Proper.keepsLabels`).
* A run in which the guard gives zero, every time that control comes by, ends as before
  (`deadTypeCase_sound`).

That the guard gives zero is what the record of constructed types promises: no value of the type
exists, so the comparison with its tag fails.  The promise is about the whole program and cannot
be read off the body.  It is therefore a hypothesis, stated of a run and of the place of the guard
in it: whenever control comes to the guard, running the guard leaves a zero on the stack and
changes nothing else (`Function.YieldsZero`).  The places of a run are those of
`Proofs/Semantics/Visits`.

The arm that stays moves from an arm of an `if` into a block.  Both are regions that a branch
leaves with the result, and neither handles exceptions, so the labels inside keep their numbers
and their meaning.  Where there is no `else`, the arm that would run is empty, and so is what is
left: the `if` has no result then, because a body with one would not be well typed.
-/
import WasmTrim.Proofs.Labels
import WasmTrim.Proofs.Semantics.Height
import WasmTrim.Proofs.Semantics.Outcomes
import WasmTrim.Proofs.Semantics.Visits

namespace WasmTrim

variable {σ : Type}

/-! ## 1. A block in place of an `if`

The setting of the simulation has one label more on each side, of two different kinds. -/

namespace Setting

/-- A code that is moved from an arm of an `if` into a block with the same result. -/
def intoBlock (M : Machine σ) (result : ResultType) (labels : List Label) : Setting σ where
  left := M
  right := M
  under := ⟨⟨.ifThen, result⟩, none⟩ :: labels
  under' := ⟨⟨.block, result⟩, none⟩ :: labels
  below := []
  locals := Eq
  shares _ := True
  returns := True
  wraps := False
  skips := True
  leftBounded := False
  rightBounded := False

theorem intoBlock_lawful {M : Machine σ} {result : ResultType} {labels : List Label} :
    (intoBlock M result labels).Lawful where
  floats := rfl
  tags := rfl
  fuel_lt h := absurd h (Nat.lt_irrefl _)
  fuel_gt h := absurd h (Nat.lt_irrefl _)
  results _ := rfl
  insideTry _ := rfl
  arity k _ n h := by cases k <;> exact h
  caught k _ e h := by cases k <;> exact h

/-- In the block the code ends as in the arm. -/
theorem Outcomes.intoBlock {M : Machine σ} {result : ResultType} {labels : List Label}
    {o o' : Outcome σ} (h : (Setting.intoBlock M result labels).Outcomes 0 o o') :
    Outcome.Covers o o' := by
  obtain ⟨s, l, w⟩ := o
  obtain ⟨s', l', w'⟩ := o'
  rcases h with (hs | hs | hs) | ⟨he, hl, hw⟩
  · exact .inl hs
  · exact hs.1.elim
  · exact hs.1.elim
  · obtain rfl : l = l' := hl
    obtain rfl : w = w' := hw
    exact .inr (Prod.ext (he.eq_of_alike rfl id) rfl)

end Setting

/-- A code does the same in a block as in an arm of an `if`: both take the same values with a
branch, and neither handles exceptions. -/
theorem Code.covers_intoBlock {M : Machine σ} {c : Code} (hc : c.WellFormed) (result : ResultType)
    (labels : List Label) (stack : List Value) (st : State σ) :
    Outcome.Covers (c.eval M (⟨⟨.ifThen, result⟩, none⟩ :: labels) stack st)
      (c.eval M (⟨⟨.block, result⟩, none⟩ :: labels) stack st) := by
  have hself : (Setting.intoBlock M result labels).Sim [] c c := by
    refine Setting.intoBlock_lawful.sim_self hc (fun _ _ => trivial) fun o _ _ n => ?_
    have h : (Setting.intoBlock M result labels).Admits n.length (fun i => i) (fun i => i) o := by
      refine ⟨fun i _ => Setting.readsAs_eq i, fun i _ => Setting.writesAs_eq i,
        fun t _ s h => ⟨h, fun _ _ _ => .inr (.inr (.inr rfl))⟩, fun label _ => ?_,
        fun _ => trivial, fun _ h => h⟩
      by_cases hl : label < n.length
      · exact .inl hl
      · exact .inr ⟨label - n.length, by omega, trivial⟩
    simpa using Setting.intoBlock_lawful.opSim h
  have hrun := hself [] rfl stack st st ⟨rfl, rfl⟩
  have e : stack ++ (Setting.intoBlock M result labels).belowAt 0 = stack := List.append_nil stack
  rw [List.length_nil, e] at hrun
  exact hrun.intoBlock

/-! ## 2. An `if` whose condition does not hold

Zero on the stack selects the second arm, or ends the region if there is none.  What is left in its
place has the same label, in a block, and does what the second arm does. -/

/-- An `if` has an `else` or no further arm. The handlers of exceptions cannot stand in it, and a
second `else` cannot either. -/
theorem Arms.cases_of_ifThen {a : Arms} (h : RegionKind.ifThen.admits a.skeleton) :
    a = .close ∨ ∃ other, a = .arm .elseArm other .close := by
  rcases Bool.or_eq_true_iff.mp h with h | h
  · have e := of_decide_eq_true h
    cases a with
    | close => exact .inl rfl
    | delegate label => simp [Arms.skeleton] at e
    | arm head body more => cases more <;> simp [Arms.skeleton] at e
  · have e := of_decide_eq_true h
    cases a with
    | close => simp [Arms.skeleton] at e
    | delegate label => simp [Arms.skeleton] at e
    | arm head body more =>
      simp only [Arms.skeleton, List.cons.injEq] at e
      obtain ⟨rfl, e⟩ := e
      cases more with
      | close => exact .inr ⟨body, rfl⟩
      | delegate label => simp [Arms.skeleton] at e
      | arm head body more => cases more <;> simp [Arms.skeleton] at e

/-- What is left of an `if` whose condition never holds, and of what follows it. -/
def Arms.remainder (result : ResultType) : Arms → Code → Code
  | .arm _ other _, rest => .region .block result other .close rest
  | _, rest => rest

theorem Arms.wellFormed_remainder {result : ResultType} {a : Arms} {rest : Code}
    (ha : a.WellFormed) (hr : rest.WellFormed) : (a.remainder result rest).WellFormed := by
  cases a with
  | close | delegate _ => exact hr
  | arm head other more =>
    rw [Arms.WellFormed] at ha
    rw [Arms.remainder, Code.WellFormed]
    exact ⟨rfl, ha.2.1, trivial, hr⟩

/-- **An `if` on zero is what is left of it**: its other arm in a block, or nothing if it has none.
The block has the label of the `if`, so a branch out of the arm goes where it went. -/
theorem Code.covers_remainder {M : Machine σ} {result : ResultType} {body rest : Code} {a : Arms}
    (hk : RegionKind.ifThen.admits a.skeleton) (ha : a.WellFormed) (labels : List Label)
    (stack : List Value) (st : State σ) :
    Outcome.Covers
      ((Code.region .ifThen result body a rest).eval M labels (.i32 0 :: stack) st)
      ((a.remainder result rest).eval M labels stack st) := by
  rcases Arms.cases_of_ifThen hk with rfl | ⟨other, rfl⟩
  · -- without an `else` the `if` gives nothing, so it has no result
    by_cases hr : result.arity = 0
    · refine .inr ?_
      simp [Arms.remainder, Code.eval, Arms.eval, Machine.region, Signal.leave, hr, Outcome.andThen]
    · refine .inl ?_
      have hr' : ¬ 0 = result.arity := fun e => hr e.symm
      simp [Code.eval, Arms.eval, Machine.region, Signal.leave, hr', Outcome.andThen]
  · rw [Arms.WellFormed] at ha
    simp only [Arms.remainder, Code.eval, Arms.eval, Machine.region, armStack?, if_true]
    exact ((Code.covers_intoBlock ha.2.1 result labels [] st).leave _ _).andThen
      fun _ _ _ => .refl _

/-- Plain operations in front of a region are the beginning of its sequence. -/
theorem Code.exists_region {kind : RegionKind} {result : ResultType} {inside after : List Op}
    (hends : EndsSequence after) : ∀ {guard : List Op} {d : Code}, d.WellFormed →
      (∀ o ∈ guard, o.isPlain) → d.ops ++ after = guard ++ .enter kind result :: inside →
        ∃ body arms rest, d = (ofOps guard).append (.region kind result body arms rest) ∧
          (Code.region kind result body arms rest).WellFormed ∧
            inside = body.ops ++ (arms.ops ++ (rest.ops ++ after))
  | guard, .done, _, hg, e => by
    rw [Code.ops, List.nil_append] at e
    cases guard with
    | nil => rcases hends _ _ e with h | h <;> cases h
    | cons o guard =>
      have ho := hg o List.mem_cons_self
      rcases hends _ _ e with h | h <;> simp [Op.isPlain, h] at ho
  | [], .op p rest, hd, _, e => by
    rw [Code.WellFormed] at hd
    rw [Code.ops] at e
    obtain ⟨rfl, -⟩ := List.cons.inj e
    exact absurd hd.1 (by simp [Op.isPlain, Op.opensRegion])
  | o :: guard, .op p rest, hd, hg, e => by
    rw [Code.WellFormed] at hd
    rw [Code.ops] at e
    obtain ⟨rfl, et⟩ := List.cons.inj e
    obtain ⟨body, arms, rest', rfl, hr⟩ := exists_region hends hd.2
      (fun x hx => hg x (List.mem_cons_of_mem _ hx)) et
    exact ⟨body, arms, rest', rfl, hr⟩
  | [], .region kind' result' body arms rest, hd, _, e => by
    rw [Code.ops] at e
    obtain ⟨he, ei⟩ := List.cons.inj e
    obtain ⟨rfl, rfl⟩ := Op.enter.inj he
    exact ⟨body, arms, rest, rfl, hd, by simpa using ei.symm⟩
  | o :: guard, .region kind' result' body arms rest, _, hg, e => by
    rw [Code.ops] at e
    obtain ⟨rfl, -⟩ := List.cons.inj e
    exact absurd (hg _ List.mem_cons_self) (by simp [Op.isPlain, Op.opensRegion])

/-! ## 3. The two searches

Both searches count regions, and neither looks at their kinds.  On well-nested code in front of what
is searched for, the count comes back to what it was. -/

namespace Peephole

variable {i : Instr} {rest : Body}

theorem afterElse_of_isPlain (h : i.op.isPlain) (depth : Nat) :
    afterElse depth (i :: rest) = afterElse depth rest := by
  obtain ⟨o, m⟩ := i
  cases o with
  | enter _ _ | elseArm | close | delegate _ => cases h
  | _ => rfl

theorem afterElse_of_opens (h : i.op.opensRegion) (depth : Nat) :
    afterElse depth (i :: rest) = afterElse (depth + 1) rest := by
  rw [afterElse, if_pos h]

theorem afterElse_of_closes (h : i.op.closesRegion) (depth : Nat) :
    afterElse (depth + 1) (i :: rest) = afterElse depth rest := by
  obtain ⟨o, m⟩ := i
  cases o with
  | close | delegate _ => rfl
  | _ => cases h

/-- The head of an arm of an inner region is passed over. -/
theorem afterElse_of_startsArm (h : i.op.startsArm) (depth : Nat) :
    afterElse (depth + 1) (i :: rest) = afterElse (depth + 1) rest := by
  obtain ⟨o, m⟩ := i
  cases o with
  | elseArm | catchTag _ | catchAll => rfl
  | _ => cases h

end Peephole

open Peephole (afterElse)

mutual

/-- The search for an `else` passes over whole codes, at any depth: it counts each of their regions
in and out again. -/
theorem Code.afterElse_append : ∀ {c : Code}, c.WellFormed → ∀ {x : Body}, x.ops = c.ops →
    ∀ (depth : Nat) (y : Body), afterElse depth (x ++ y) = afterElse depth y
  | .done, _, x, hx, depth, y => by
    rw [Code.ops] at hx
    rw [List.map_eq_nil_iff.mp hx, List.nil_append]
  | .op o rest, h, x, hx, depth, y => by
    rw [Code.WellFormed] at h
    rw [Code.ops] at hx
    obtain ⟨i, x, rfl, rfl, hr⟩ := List.map_eq_cons_iff.mp hx
    rw [List.cons_append, Peephole.afterElse_of_isPlain h.1]
    exact Code.afterElse_append h.2 hr depth y
  | .region kind result body arms rest, h, x, hx, depth, y => by
    rw [Code.WellFormed] at h
    rw [Code.ops] at hx
    obtain ⟨i, x, rfl, hi, hx⟩ := List.map_eq_cons_iff.mp hx
    obtain ⟨x₁, x, rfl, h₁, hx⟩ := List.map_eq_append_iff.mp hx
    obtain ⟨x₂, x₃, rfl, h₂, h₃⟩ := List.map_eq_append_iff.mp hx
    rw [List.cons_append, Peephole.afterElse_of_opens (by rw [hi]; rfl), List.append_assoc,
      List.append_assoc, Code.afterElse_append h.2.1 h₁, Arms.afterElse_append h.2.2.1 h₂,
      Code.afterElse_append h.2.2.2 h₃]

/-- The search leaves an inner region with its arms, one level further out than before. -/
theorem Arms.afterElse_append : ∀ {a : Arms}, a.WellFormed → ∀ {x : Body}, x.ops = a.ops →
    ∀ (depth : Nat) (y : Body), afterElse (depth + 1) (x ++ y) = afterElse depth y
  | .close, _, x, hx, depth, y => by
    rw [Arms.ops] at hx
    obtain ⟨i, rfl, hi⟩ := List.map_eq_singleton_iff.mp hx
    exact Peephole.afterElse_of_closes (by rw [hi]; rfl) depth
  | .delegate label, _, x, hx, depth, y => by
    rw [Arms.ops] at hx
    obtain ⟨i, rfl, hi⟩ := List.map_eq_singleton_iff.mp hx
    exact Peephole.afterElse_of_closes (by rw [hi]; rfl) depth
  | .arm head body more, h, x, hx, depth, y => by
    rw [Arms.WellFormed] at h
    rw [Arms.ops] at hx
    obtain ⟨i, x, rfl, rfl, hr⟩ := List.map_eq_cons_iff.mp hx
    obtain ⟨x₁, x₂, rfl, h₁, h₂⟩ := List.map_eq_append_iff.mp hr
    rw [List.cons_append, Peephole.afterElse_of_startsArm h.1, List.append_assoc,
      Code.afterElse_append h.2.1 h₁, Arms.afterElse_append h.2.2 h₂]

end

/-- The search for an `else` passes over well-nested code, and goes on behind it as if it had not
been there. -/
theorem Peephole.afterElse_append {x : Body} (hx : (Code.parse x.ops).isSome) (depth : Nat)
    (y : Body) : afterElse depth (x ++ y) = afterElse depth y := by
  obtain ⟨c, hc, e⟩ := Body.exists_code hx
  exact Code.afterElse_append hc e depth y

/-- The search for the end of a region passes over well-nested code. -/
theorem Body.closeOffset_append {x : Body} (hx : (Code.parse x.ops).isSome) (n : Nat) (y : Body) :
    closeOffset (n + 1) (x ++ y) = (closeOffset (n + 1) y).map (· + x.length) := by
  obtain ⟨c, hc, e⟩ := exists_code hx
  rw [← closeOffset_ops (x ++ y), ops_append, List.map_append, e, Code.closeOffset_ops hc,
    closeOffset_ops, ← e, length_ops]

/-! ## 4. The arms of an `if`

A body is cut into the parts that the rule speaks of.  The cut is unique, so it does not matter that
the rule finds it by counting and the parse by structure. -/

/-- What follows the opener of an `if`: the arm for a condition that holds, the `else` and the
other arm if there are any, the closer, and the code behind. -/
structure Conditional where
  thenArm : Body
  otherwise : Option (Instr × Body)
  close : Instr
  after : Body

namespace Conditional

/-- What stands between the opener and the closer: one arm, or two with an `else` between them. -/
def arms (c : Conditional) : Body :=
  match c.otherwise with
  | none => c.thenArm
  | some (head, arm) => c.thenArm ++ head :: arm

/-- All that follows the opener, as it stands in the body before the rule is applied. -/
def inside (c : Conditional) : Body := c.arms ++ c.close :: c.after

/-- The parts are what they are said to be: each of the two arms is a well-nested code of its own,
with nothing but the `else` between them, and the closer is that of the `if`. -/
structure Proper (c : Conditional) : Prop where
  thenArm : (Code.parse c.thenArm.ops).isSome
  otherwise : ∀ head arm, c.otherwise = some (head, arm) →
    head.op = .elseArm ∧ (Code.parse arm.ops).isSome
  close : c.close.op = .close

/-- What goes when the condition never holds, from the opener on. -/
def cut (c : Conditional) : Body :=
  match c.otherwise with
  | none => c.thenArm ++ [c.close]
  | some (head, _) => c.thenArm ++ [head]

/-- What comes in its place: the opener of a block, if an arm is left. -/
def opening (c : Conditional) (result : ResultType) : Body :=
  match c.otherwise with
  | none => []
  | some _ => [(Op.enter .block result).plain]

/-- What stays: the other arm with its closer, if there is one, and the code behind either way. -/
def kept (c : Conditional) : Body :=
  match c.otherwise with
  | none => c.after
  | some (_, arm) => arm ++ c.close :: c.after

theorem cut_append_kept (c : Conditional) : c.cut ++ c.kept = c.inside := by
  obtain ⟨thenArm, _ | ⟨head, arm⟩, close, after⟩ := c <;> simp [cut, kept, inside, arms]

/-- The body that is left, with the code in front of the case. -/
def remains (c : Conditional) (before : Body) (result : ResultType) : Body :=
  before ++ (c.opening result ++ c.kept)

variable {c : Conditional}

/-- **The first search ends at the closer of the `if`.** -/
theorem Proper.closeOffset_inside (hc : c.Proper) :
    Body.closeOffset 1 c.inside = some c.arms.length := by
  obtain ⟨thenArm, otherwise, close, after⟩ := c
  have hthen : (Code.parse thenArm.ops).isSome := hc.thenArm
  have hclose : ∀ rest, Body.closeOffset 1 (close :: rest) = some 0 := by
    intro rest
    have e : close.op = .close := hc.close
    simp [Body.closeOffset, e, Op.opensRegion, Op.closesRegion]
  cases otherwise with
  | none => simp [inside, arms, Body.closeOffset_append hthen, hclose]
  | some p =>
    obtain ⟨head, arm⟩ := p
    obtain ⟨hhead, harm⟩ := hc.otherwise head arm rfl
    have hstep : ∀ rest, Body.closeOffset 1 (head :: rest)
        = (Body.closeOffset 1 rest).map (· + 1) := by
      intro rest
      simp [Body.closeOffset, hhead, Op.opensRegion, Op.closesRegion]
    simp only [inside, arms, List.append_assoc, List.cons_append, Body.closeOffset_append hthen,
      hstep, Body.closeOffset_append harm, hclose, Option.map_some, List.length_append,
      List.length_cons, Option.some.injEq]
    omega

/-- **The second search finds the `else` of the `if`**, and not that of a region inside of it. -/
theorem Proper.afterElse_arms (hc : c.Proper) : afterElse 0 c.arms = c.otherwise.map Prod.snd := by
  obtain ⟨thenArm, otherwise, close, after⟩ := c
  have hthen : (Code.parse thenArm.ops).isSome := hc.thenArm
  cases otherwise with
  | none =>
    have h := Peephole.afterElse_append hthen 0 []
    rw [List.append_nil] at h
    exact h
  | some p =>
    obtain ⟨head, arm⟩ := p
    obtain ⟨hhead, -⟩ := hc.otherwise head arm rfl
    simp only [arms, Peephole.afterElse_append hthen, Option.map_some]
    rw [afterElse, if_neg (by simp [hhead, Op.opensRegion]),
      if_neg (by simp [hhead, Op.closesRegion]), if_pos ⟨hhead, rfl⟩]

/-- An `if` has its arms in one way only, so the arm that the rule removes is the one that the parse
speaks of. -/
theorem Proper.eq_of_inside {c' : Conditional} (hc : c.Proper) (hc' : c'.Proper)
    (h : c'.inside = c.inside) : c' = c := by
  have hlength : c'.arms.length = c.arms.length :=
    Option.some.inj (hc'.closeOffset_inside.symm.trans (h ▸ hc.closeOffset_inside))
  obtain ⟨harms, hrest⟩ := List.append_inj h hlength
  have hother : c'.otherwise.map Prod.snd = c.otherwise.map Prod.snd :=
    hc'.afterElse_arms.symm.trans (harms ▸ hc.afterElse_arms)
  obtain ⟨thenArm, otherwise, close, after⟩ := c
  obtain ⟨thenArm', otherwise', close', after'⟩ := c'
  obtain ⟨rfl, rfl⟩ := List.cons.inj hrest
  cases otherwise with
  | none =>
    obtain rfl := Option.map_eq_none_iff.mp hother
    obtain rfl : thenArm' = thenArm := harms
    rfl
  | some p =>
    obtain ⟨⟨head', arm⟩, rfl, harm⟩ := Option.map_eq_some_iff.mp hother
    obtain rfl : arm = p.2 := harm
    obtain ⟨rfl, e⟩ := List.append_inj' harms (by simp)
    obtain ⟨rfl, -⟩ := List.cons.inj e
    rfl

/-- **What the rule does.**  It takes the guard, the `if` and the arm that never runs out. -/
theorem Proper.deadTypeCase_eq (hc : c.Proper) {scope : Peephole.Scope} {t : RuntimeType}
    {focus opener : Instr} {seen guard : Body} {result : ResultType}
    (hmark : focus.marker = some (.typeCase t)) (htracked : t.isTracked)
    (hunused : scope.types.marked t = false) (hplain : ∀ i ∈ focus :: guard, i.op.isPlain)
    (hopener : opener.op = .enter .ifThen result) :
    Peephole.deadTypeCase scope ⟨focus :: seen, guard ++ opener :: c.inside⟩
      = some ⟨seen, c.opening result ++ c.kept⟩ := by
  have hconstructed : scope.types.isConstructed t = false := by
    simp [TypeUsage.isConstructed, htracked, hunused]
  have hguard : (focus :: (guard ++ opener :: c.inside)).dropWhile
      (fun i => !Peephole.stopsGuard i) = opener :: c.inside := by
    have hstops : ∀ i ∈ focus :: guard, Peephole.stopsGuard i = false := by
      intro i hi
      have hp := hplain i hi
      obtain ⟨o, m⟩ := i
      cases o with
      | enter _ _ | elseArm | close => cases hp
      | _ => rfl
    rw [← List.cons_append, List.dropWhile_append_of_pos (by simpa using hstops),
      List.dropWhile_cons_of_neg (by simp [Peephole.stopsGuard, hopener, Op.opensRegion])]
  obtain ⟨o, m⟩ := opener
  obtain rfl : o = .enter .ifThen result := hopener
  have htake : c.inside.take c.arms.length = c.arms := by simp [inside]
  simp only [Peephole.deadTypeCase, hmark, hconstructed, Bool.false_eq_true, if_false, hguard,
    hc.closeOffset_inside, Option.bind_eq_bind, Option.bind_some, htake, hc.afterElse_arms]
  obtain ⟨thenArm, _ | ⟨head, arm⟩, close, after⟩ := c <;> simp [inside, arms, opening, kept]

end Conditional

/-! ## 5. The rule

The guard of the case is plain, so it runs to its end, and whether it leaves zero is the condition
under which the rule is sound: on one run for the result of that run, on all runs for all outcomes.
-/

namespace Conditional

/-- The inside of an `if` of a well-nested body has arms of its own. -/
theorem exists_proper {result : ResultType} {inside : Body} {b rest : Code} {a : Arms}
    {after : List Op} (hb : b.WellFormed) (hk : RegionKind.ifThen.admits a.skeleton)
    (ha : a.WellFormed) (hops : inside.ops = b.ops ++ (a.ops ++ (rest.ops ++ after))) :
    ∃ c : Conditional, c.Proper ∧ c.inside = inside ∧
      (c.opening result ++ c.kept).ops = (a.remainder result rest).ops ++ after := by
  obtain ⟨thenArm, x, rfl, hthen, hx⟩ := List.map_eq_append_iff.mp hops
  obtain ⟨y, z, rfl, hy, hz⟩ := List.map_eq_append_iff.mp hx
  have hparse : ∀ {c : Code} {x : Body}, c.WellFormed → x.map Instr.op = c.ops →
      (Code.parse x.ops).isSome := by
    intro c x hc hx
    rw [Body.ops, hx, Code.parse_ops hc]
    rfl
  rcases Arms.cases_of_ifThen hk with rfl | ⟨other, rfl⟩
  · rw [Arms.ops] at hy
    obtain ⟨close, rfl, hclose⟩ := List.map_eq_singleton_iff.mp hy
    refine ⟨⟨thenArm, none, close, z⟩, ⟨hparse hb hthen, by simp, hclose⟩, ?_, ?_⟩
    · simp [Conditional.inside, arms]
    · exact hz
  · rw [Arms.WellFormed] at ha
    rw [Arms.ops, Arms.ops] at hy
    obtain ⟨head, y, rfl, hhead, hy⟩ := List.map_eq_cons_iff.mp hy
    obtain ⟨arm, y, rfl, harm, hy⟩ := List.map_eq_append_iff.mp hy
    obtain ⟨close, rfl, hclose⟩ := List.map_eq_singleton_iff.mp hy
    refine ⟨⟨thenArm, some (head, arm), close, z⟩, ⟨hparse hb hthen, ?_, hclose⟩, ?_, ?_⟩
    · rintro _ _ ⟨⟩
      exact ⟨hhead, hparse ha.2.1 harm⟩
    · simp [Conditional.inside, arms]
    · have hz' : Body.ops z = rest.ops ++ after := hz
      have ha' : Body.ops arm = other.ops := harm
      simp [opening, kept, Arms.remainder, Code.ops, Arms.ops, hz', ha', hclose]

variable {c : Conditional} {result : ResultType} {before guard : Body} {opener : Instr}

/-- **Taking out the arm of an `if` keeps every label**: those of the arm that is kept, because a
block stands where the `if` stood, and those around it, because nothing around it has changed. -/
theorem Proper.keepsLabels (hc : c.Proper) (hplain : ∀ i ∈ guard, i.op.isPlain)
    (hopener : opener.op = .enter .ifThen result) :
    KeepsLabels before (guard ++ opener :: c.cut) (c.opening result) c.kept
      (before.length + guard.length) := by
  obtain ⟨thenArm, otherwise, close, after⟩ := c
  have hthen : (Code.parse thenArm.ops).isSome := hc.thenArm
  have hguard : (Code.parse guard.ops).isSome := by
    have h := Code.parse_ops (Code.wellFormed_ofOps (List.forall_mem_map.mpr hplain))
    rw [Code.ops_ofOps] at h
    exact Option.isSome_of_eq_some h
  -- the guard and the first arm are balanced, so only the `if` and what ends the cut count
  have hcut : ∀ last : Instr, openersFrom before.length (openersFrom 0 [] before.ops)
      (Body.ops (guard ++ opener :: (thenArm ++ [last])))
        = last.op.trackOpener (before.length + guard.length + 1 + thenArm.length)
            ((before.length + guard.length) :: openersFrom 0 [] before.ops) := by
    intro last
    simp only [Body.ops_append, Body.ops_cons, Body.ops_nil, openersFrom_append, openersFrom,
      Body.openersFrom_ops hguard, Body.openersFrom_ops hthen, hopener, Op.trackOpener,
      Body.length_ops]
  refine .of_cut ?_
  cases otherwise with
  | none =>
    have hclose : close.op = .close := hc.close
    simp only [cut, opening, hcut, hclose, Op.trackOpener, List.tail_cons, Body.ops_nil,
      openersFrom]
    exact KeepsLabels.map_movedTo (Nat.le_of_eq before.length_ops)
  | some p =>
    obtain ⟨head, arm⟩ := p
    obtain ⟨hhead, -⟩ := hc.otherwise head arm rfl
    have hif : movedTo before (guard ++ opener :: (thenArm ++ [head]))
        [(Op.enter .block result).plain] (before.length + guard.length)
          (before.length + guard.length) = some before.length := by
      rw [movedTo, if_neg (by omega), if_neg (by simp), if_pos (by simp)]
    simp only [cut, opening, hcut, hhead, Op.trackOpener, List.map_cons, hif, Body.ops_cons,
      Op.op_plain, Body.ops_nil, openersFrom, List.cons.injEq, true_and]
    exact KeepsLabels.map_movedTo (Nat.le_of_eq before.length_ops)

end Conditional

/-- In a run, the given operations at a place of the body leave nothing behind but a zero on the
stack, every time that control comes by. -/
def Function.YieldsZero (f : Function) (k : Nat) (ops : List Op) (M : Machine σ)
    (args : List Value) (w : World σ) : Prop :=
  ∀ v ∈ f.visits M args w k,
    Machine.performAll { M with results := f.result.arity } v.labels ops v.stack v.state
      = (.next (.i32 0 :: v.stack), v.state)

namespace Peephole

open Validation Typing

/-- **Removing a dead case is sound.**  In a well-typed function, an instruction marks the case of
a tracked type that is not constructed, and straight-line code leads from there to an `if`.  Then
the rule applies, and the `if` has arms of its own such that

* the guard, the `if` and its first arm go, and exactly its other arm stays, in a block; without an
  `else` nothing of it stays;
* the new body is well nested, and every label in it names the region that it has named before;
* every run in which the guard gives zero ends with the same answer in the same world, and if all
  runs are such, the outcomes of the function are the same. -/
theorem deadTypeCase_sound {s : Surroundings} {f : Function} (hf : f.Typed s) {scope : Scope}
    {t : RuntimeType} {before guard inside : Body} {focus opener : Instr} {result : ResultType}
    (hbody : f.body = before ++ (focus :: guard ++ opener :: inside))
    (hmark : focus.marker = some (.typeCase t)) (htracked : t.isTracked)
    (hunused : scope.types.marked t = false) (hplain : ∀ i ∈ focus :: guard, i.op.isPlain)
    (hopener : opener.op = .enter .ifThen result) :
    ∃ c : Conditional, c.Proper ∧ c.inside = inside ∧ c.cut ++ c.kept = inside ∧
      (∀ c' : Conditional, c'.Proper → c'.inside = inside → c' = c) ∧
      deadTypeCase scope ⟨focus :: before.reverse, guard ++ opener :: inside⟩
        = some ⟨before.reverse, c.opening result ++ c.kept⟩ ∧
      (Code.parse (c.remains before result).ops).isSome ∧
      KeepsLabels before (focus :: guard ++ opener :: c.cut) (c.opening result) c.kept
        (before.length + (focus :: guard).length) ∧
      (∀ {σ : Type} (M : Machine σ), Offers s M → ∀ (args : List Value) (w : World σ),
        args.map Value.type = f.params → w.globals.map Value.type = s.globals.map Global.type →
          f.YieldsZero before.length (Body.ops (focus :: guard)) M args w →
            Function.run { f with body := c.remains before result } M args w
                = f.run M args w ∧
              AnswerFits s.tags f.result (f.run M args w).1) ∧
      ((∀ {σ : Type} (M : Machine σ), Offers s M → ∀ (args : List Value) (w : World σ),
        args.map Value.type = f.params → w.globals.map Value.type = s.globals.map Global.type →
          f.YieldsZero before.length (Body.ops (focus :: guard)) M args w) →
            f.SameOutcomes s { f with body := c.remains before result }) := by
  obtain ⟨d, hd⟩ := Option.isSome_iff_exists.mp hf.parses
  obtain ⟨hops, hwf⟩ := Code.ops_of_parse hd
  have hplain' : ∀ o ∈ Body.ops (focus :: guard), o.isPlain := List.forall_mem_map.mpr hplain
  -- the guard stands in a sequence, and so does the region that it leads to
  have hsplit : d.ops = before.ops ++ focus.op :: (guard.ops ++ opener.op :: inside.ops) := by
    rw [hops, hbody]
    simp
  obtain ⟨seq, inner, after, hopens, hseq⟩ :=
    Code.exists_opens hwf hsplit (hplain focus List.mem_cons_self)
  have hrest : seq.ops ++ after
      = Body.ops (focus :: guard) ++ .enter .ifThen result :: inside.ops := by
    have e := List.append_cancel_left (hopens.ops.symm.trans hsplit)
    rw [e, hopener]
    simp
  obtain ⟨b, a, rest, rfl, hregion, hinside⟩ :=
    Code.exists_region hopens.ends hopens.wellFormed hplain' hrest
  rw [Code.WellFormed] at hregion
  obtain ⟨hk, hb, ha, hr⟩ := hregion
  obtain ⟨c, hc, rfl, hnew⟩ := Conditional.exists_proper hb hk ha hinside
  -- what is left of the `if` takes the place of the guard and of all that follows it
  obtain ⟨d', hx, hops', hwf'⟩ := hopens.exchange (a.remainder result rest)
  have hd' : Code.parse (c.remains before result).ops = some d' := by
    rw [Conditional.remains, Body.ops_append, hnew, ← hops']
    exact Code.parse_ops (hwf' (Arms.wellFormed_remainder ha hr))
  have hcovers : ∀ {σ : Type} {M : Machine σ} {args : List Value} {w : World σ},
      f.YieldsZero before.length (Body.ops (focus :: guard)) M args w →
        Covers (f.run M args w)
          (Function.run { f with body := c.remains before result } M args w) := by
    intro σ M args w hz
    refine Function.run_covers_of_visits hd hd' (before.length_ops ▸ hx) fun v hv => ?_
    rw [Code.eval_append, Code.eval_ofOps, hz v hv]
    exact Code.covers_remainder hk ha v.labels v.stack v.state
  refine ⟨c, hc, rfl, c.cut_append_kept, fun c' hc' h => hc.eq_of_inside hc' h,
    hc.deadTypeCase_eq hmark htracked hunused hplain hopener,
    Option.isSome_iff_exists.mpr ⟨d', hd'⟩, hc.keepsLabels hplain hopener, ?_, ?_⟩
  · intro σ M H args w hargs hw hz
    exact hf.eq_of_covers H hargs hw (hcovers hz)
  · intro h
    exact hf.sameOutcomes_of_covers rfl rfl fun M H args w hargs hw =>
      hcovers (h M H args w hargs hw)

/-- A function that sets its parameter to one type and then tests it for another one.  The arm that
never runs has an `else` of its own, and the arm that runs branches out of both of the regions
around it. -/
def recast : Function where
  index := 0
  name := "recast"
  params := [.i32]
  locals := ⟨[⟨"type", 0, .i32⟩], by decide +kernel⟩
  result := none
  body := [.const (.i32 5), .localSet 0, .enter .block none].map Op.plain
    ++ (⟨.localGet 0, some (.typeCase .array)⟩ :: [.const (.i32 16), .num .i32Eq].map Op.plain
    ++ (Op.enter .ifThen none).plain :: [.localGet 0, .enter .ifThen none, .nop, .elseArm, .br 1,
      .close, .elseArm, .localGet 0, .brIf 1, .br 0, .close, .br 0, .close].map Op.plain)
  throws := false
  usesMemory := false

theorem deadTypeCase_sound_recast :
    let s : Surroundings := ⟨[], [], [], [], false, []⟩
    let scope : Scope := ⟨false, .empty, fun _ => none, none, 0⟩
    let left : Body :=
      [.enter .block none, .localGet 0, .brIf 1, .br 0, .close, .br 0, .close].map Op.plain
    deadTypeCase scope ⟨(recast.body.take 4).reverse, recast.body.drop 4⟩
        = some ⟨(recast.body.take 3).reverse, left⟩ ∧
      recast.SameOutcomes s { recast with body := recast.body.take 3 ++ left } := by
  intro s scope left
  have ht : recast.Typed s := by decide +kernel
  obtain ⟨c, -, -, -, -, heq, -, -, -, hsame⟩ := @deadTypeCase_sound s recast ht scope .array
    (recast.body.take 3) ((recast.body.drop 4).take 2) (recast.body.drop 7)
    ⟨.localGet 0, some (.typeCase .array)⟩ (Op.enter .ifThen none).plain none rfl rfl rfl rfl
    (by decide) rfl
  have hrule : deadTypeCase scope ⟨(recast.body.take 4).reverse, recast.body.drop 4⟩
      = some ⟨(recast.body.take 3).reverse, left⟩ := rfl
  have hleft : c.opening none ++ c.kept = left :=
    (Cursor.mk.inj (Option.some.inj (heq.symm.trans hrule))).2
  rw [Conditional.remains, hleft] at hsame
  refine ⟨hrule, hsame fun M H args w ha hw => ?_⟩
  -- control comes by once, in the block, after the local has been set
  have hlength : args.length = 1 := by
    rw [← List.length_map, ha]
    rfl
  obtain ⟨a, rfl⟩ := List.length_eq_one_iff.mp hlength
  have hindex : recast.locals.byIndex = [⟨"type", 0, .i32⟩] :=
    LocalTable.byIndex_eq_of_perm (by decide +kernel) rfl
  have hentry : recast.entryState [a] w = ⟨[a], w⟩ := by
    rw [Function.entryState, Function.localTypes, hindex]
    rfl
  have hvisits : recast.visits M [a] w 3
      = [⟨[⟨⟨.block, none⟩, none⟩], [], ⟨[.i32 5], w⟩⟩] := by
    rw [Function.visits, hentry]
    rfl
  intro v hv
  obtain rfl := List.mem_singleton.mp (hvisits ▸ hv : v ∈ [_])
  rfl

end Peephole

end WasmTrim
