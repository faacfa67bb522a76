/-
# Simulations between codes

Every pass replaces a code by another one that does the same, and every argument for that has
one form: both codes are run side by side, from related states, and end in related states with
related signals.  `Setting` collects what may differ between the two sides:

* the machines, in particular what a call does;
* the regions around the two codes, and which of their labels the codes may branch to;
* operands that only the second stack has, below those of the first;
* the locals, by an arbitrary relation;
* whether a `return` of the first side may be a branch of the second, and whether exceptions may
  skip regions.

The first side may be stuck, in which case nothing is asked of the second, and a side whose
loops and calls are bounded more tightly may time out.  `Setting.Sim` is kept by every
constructor of codes (`Setting.Lawful.congruence`), so that only the places a pass has touched
remain to be looked at.

Four uses of the same development account for the number of things that may differ.

* The rules on instructions keep machine, labels and stack; at most a local differs.
* Removing locals renumbers them: the locals are related by the renumbering.
* Inlining puts a body that ran in a frame of its own among the regions and above the stack of the
  caller.  There the labels around the second side are more, operands lie below, and a `return`
  has become a branch.
* The program as a whole changes what is called: the machines differ in their calls, and the
  bound that one level of inlining saves makes one side time out before the other.

A setting must satisfy a few conditions for the congruence (`Setting.Lawful`): the regions that
may be branched to are the same on both sides, and the second side has the same operations on
doubles, tags and results.  An operation that both sides perform needs, besides, that the second
side has a memory if the operation uses one and the first side does (`Setting.Provides`).
-/
import WasmTrim.Proofs.Semantics.Machine

namespace WasmTrim

/-! ## 1. Settings

What may differ, and when two signals count as the same. -/

/-- Two machines side by side, with what is allowed to differ between them: labels, operands below,
locals, bounds. Each pass is an instance. -/
structure Setting (σ : Type) where
  left : Machine σ
  right : Machine σ
  /-- The labels around the first code. -/
  under : List Label
  /-- The labels around the second code. -/
  under' : List Label
  /-- The operands that only the second stack has. -/
  below : List Value
  /-- How the locals are related, from equality to agreement on some of them. -/
  locals : List Value → List Value → Prop
  /-- Which labels of the surroundings both sides may branch to. -/
  shares : Nat → Prop
  /-- Whether a `return` answers a `return`. -/
  returns : Prop
  /-- Whether a branch past the second code answers a `return`. -/
  wraps : Prop
  /-- Whether exceptions may skip regions. -/
  skips : Prop
  /-- Whether the first side may time out alone, as it does when it makes more calls than the
  second. -/
  leftBounded : Prop
  /-- Whether the second side may time out alone. -/
  rightBounded : Prop

namespace Setting

variable {σ : Type} (S : Setting σ)

/-- The additional operands of the second stack under the given number of regions: a region
starts with a stack of its own. -/
def belowAt (depth : Nat) : List Value := if depth = 0 then S.below else []

@[simp] theorem belowAt_succ (depth : Nat) : S.belowAt (depth + 1) = [] := rfl

/-- States are related when their locals are and the worlds are the same. -/
def States (st st' : State σ) : Prop := S.locals st.locals st'.locals ∧ st.world = st'.world

/-- Nothing is asked of the second side: the first is stuck, or a side whose bounds matter has
reached them. -/
def Waived (s s' : Signal) : Prop :=
  s = .stuck ∨ (S.leftBounded ∧ s = .timeout) ∨ (S.rightBounded ∧ s' = .timeout)

/-- Signals that answer each other under the given number of regions. Inside of these regions they
are the same; further out they may name the same place by different labels. -/
inductive Ends (depth : Nat) : Signal → Signal → Prop where
  | next (stack : List Value) : Ends depth (.next stack) (.next (stack ++ S.belowAt depth))
  | inner {label : Nat} (values : List Value) (h : label < depth) :
    Ends depth (.branch label values) (.branch label values)
  | outer {label : Nat} (values : List Value) (h : S.shares label) :
    Ends depth (.branch (depth + label) values) (.branch (depth + label) values)
  | ret (values : List Value) (h : S.returns) : Ends depth (.ret values) (.ret values)
  | wrapped (values : List Value) (h : S.wraps) :
    Ends depth (.ret values) (.branch depth values)
  | raise {skip : Nat} (e : Exception) (h : skip = 0 ∨ S.skips) :
    Ends depth (.raise skip e) (.raise skip e)
  | escape (e : Exception) (h : S.returns) : Ends depth (.escape e) (.escape e)
  | trap : Ends depth .trap .trap
  | timeout : Ends depth .timeout .timeout

/-- Outcomes that answer each other: the first is one of those for which nothing is promised, or the
signals and the states do. -/
def Outcomes (depth : Nat) (o o' : Outcome σ) : Prop :=
  S.Waived o.1 o'.1 ∨ (S.Ends depth o.1 o'.1 ∧ S.States o.2 o'.2)

/-- Answers of calls that answer each other: equal answers in equal worlds, unless nothing is asked.
-/
def Answers (a a' : Answer × World σ) : Prop :=
  a.1 = .stuck ∨ (S.leftBounded ∧ a.1 = .timeout) ∨ (S.rightBounded ∧ a'.1 = .timeout) ∨ a = a'

/-- **One code simulates another** inside of regions of the given kinds: from related states, with
the same labels inside and any operands, both end with outcomes that answer each other. -/
def Sim (n : Nesting) (c c' : Code) : Prop :=
  ∀ labels, regionsOf labels = n → ∀ stack st st', S.States st st' →
    S.Outcomes n.length (c.eval S.left (labels ++ S.under) stack st)
      (c'.eval S.right (labels ++ S.under') (stack ++ S.belowAt n.length) st')

/-- The same for the arms of the innermost region, whatever it is that selects one of them. -/
def ArmsSim (n : Nesting) (a a' : Arms) : Prop :=
  ∀ r n', n = r :: n' → ∀ labels, regionsOf labels = n' → ∀ trigger st st', S.States st st' →
    S.Outcomes n.length (a.eval S.left r (labels ++ S.under) trigger st)
      (a'.eval S.right r (labels ++ S.under') trigger st')

/-- The same for single operations. -/
def OpSim (n : Nesting) (o o' : Op) : Prop :=
  ∀ labels, regionsOf labels = n → ∀ stack st st', S.States st st' →
    S.Outcomes n.length (S.left.perform (labels ++ S.under) o stack st)
      (S.right.perform (labels ++ S.under') o' (stack ++ S.belowAt n.length) st')

/-- What the two sides have to agree on for the constructors of codes to keep the simulation.
Nothing in it is about a particular operation. -/
structure Lawful : Prop where
  floats : S.left.floats = S.right.floats
  tags : S.left.tags = S.right.tags
  fuel_lt : S.left.fuel < S.right.fuel → S.leftBounded
  fuel_gt : S.right.fuel < S.left.fuel → S.rightBounded
  results : S.returns → S.left.results = S.right.results
  insideTry : S.returns → (regionsOf S.under).insideTry = (regionsOf S.under').insideTry
  arity : ∀ k, S.shares k → ∀ n, S.left.labelArity? S.under k = some n →
    S.right.labelArity? S.under' k = some n
  caught : ∀ k, S.shares k → ∀ e, (S.under[k]?).bind Label.caught = some e →
    (S.under'[k]?).bind Label.caught = some e

variable {S}

/-! ## 2. Sequences

If an operation does the same on both sides, and what follows it does, so do both together.  What a
code does behind a branch or a trap does not matter. -/

theorem Outcomes.stuck {depth : Nat} {o o' : Outcome σ} (h : o.1 = .stuck) :
    S.Outcomes depth o o' := .inl (.inl h)

/-- What follows related outcomes goes on from related states, unless the code is left. -/
theorem Outcomes.andThen {depth : Nat} {o o' : Outcome σ}
    {k k' : List Value → State σ → Outcome σ} (h : S.Outcomes depth o o')
    (hk : ∀ stack st st', S.States st st' →
      S.Outcomes depth (k stack st) (k' (stack ++ S.belowAt depth) st')) :
    S.Outcomes depth (o.andThen k) (o'.andThen k') := by
  obtain ⟨s, st⟩ := o
  obtain ⟨s', st'⟩ := o'
  rcases h with h | ⟨he, hs⟩
  · -- neither a stuck nor a timed-out side goes on
    rcases h with h | ⟨hb, h⟩ | ⟨hb, h⟩
    · obtain rfl : s = .stuck := h
      exact .inl (.inl rfl)
    · obtain rfl : s = .timeout := h
      exact .inl (.inr (.inl ⟨hb, rfl⟩))
    · obtain rfl : s' = .timeout := h
      exact .inl (.inr (.inr ⟨hb, rfl⟩))
  · cases he with
    | next stack => exact hk stack st st' hs
    | inner values h => exact .inr ⟨.inner values h, hs⟩
    | outer values h => exact .inr ⟨.outer values h, hs⟩
    | ret values h => exact .inr ⟨.ret values h, hs⟩
    | wrapped values h => exact .inr ⟨.wrapped values h, hs⟩
    | raise e h => exact .inr ⟨.raise e h, hs⟩
    | escape e h => exact .inr ⟨.escape e h, hs⟩
    | trap => exact .inr ⟨.trap, hs⟩
    | timeout => exact .inr ⟨.timeout, hs⟩

theorem OpSim.cons {n : Nesting} {o o' : Op} {c c' : Code} (ho : S.OpSim n o o')
    (hc : S.Sim n c c') : S.Sim n (.op o c) (.op o' c') := by
  intro labels hl stack st st' hs
  simp only [Code.eval]
  exact (ho labels hl stack st st' hs).andThen fun stack st st' hs => hc labels hl stack st st' hs

/-! ## 3. Regions

Inside a region both stacks start anew, so nothing of what differs around it is seen there but
through branches, returns and exceptions.  A loop needs an induction on its rounds. -/

/-- Related signals inside of a region are related outside of it. -/
theorem Ends.leave {depth arity : Nat} {stack : List Value} {s s' : Signal}
    (h : S.Ends (depth + 1) s s') :
    s.leave arity stack = .stuck ∨
      S.Ends depth (s.leave arity stack) (s'.leave arity (stack ++ S.belowAt depth)) := by
  cases h with
  | next values =>
    by_cases hv : values.length = arity
    · right
      simp only [Signal.leave, belowAt_succ, List.append_nil, if_pos hv, ← List.append_assoc]
      exact .next _
    · left
      simp only [Signal.leave, if_neg hv]
  | @inner label values h =>
    right
    cases label with
    | zero =>
      simp only [Signal.leave, ← List.append_assoc]
      exact .next _
    | succ label => exact .inner values (by omega)
  | @outer label values h =>
    right
    rw [Nat.add_right_comm]
    exact .outer values h
  | ret values h => exact .inr (.ret values h)
  | wrapped values h => exact .inr (.wrapped values h)
  | @raise skip e h =>
    right
    cases skip with
    | zero => exact .raise e h
    | succ skip => exact .raise e (.inr (h.resolve_left (Nat.succ_ne_zero skip)))
  | escape e h => exact .inr (.escape e h)
  | trap => exact .inr .trap
  | timeout => exact .inr .timeout

theorem Outcomes.leave {depth arity : Nat} {stack : List Value} {o o' : Outcome σ}
    (h : S.Outcomes (depth + 1) o o') :
    S.Outcomes depth (o.1.leave arity stack, o.2)
      (o'.1.leave arity (stack ++ S.belowAt depth), o'.2) := by
  rcases h with h | ⟨he, hs⟩
  · rcases h with h | ⟨hb, h⟩ | ⟨hb, h⟩
    · exact .inl (.inl (by simp only [h, Signal.leave]))
    · exact .inl (.inr (.inl ⟨hb, by simp only [h, Signal.leave]⟩))
    · exact .inl (.inr (.inr ⟨hb, by simp only [h, Signal.leave]⟩))
  · rcases he.leave with h | h
    · exact .stuck h
    · exact .inr ⟨h, hs⟩

/-- A loop starts again on both sides or on neither. -/
theorem Ends.restarts {depth : Nat} {s s' : Signal} (h : S.Ends (depth + 1) s s') :
    (∃ values, s = .branch 0 values ∧ s' = .branch 0 values) ∨
      ((∀ values, s ≠ .branch 0 values) ∧ ∀ values, s' ≠ .branch 0 values) := by
  cases h with
  | @inner label values h =>
    cases label with
    | zero => exact .inl ⟨values, rfl, rfl⟩
    | succ label => exact .inr ⟨by simp, by simp⟩
  | @outer label values h =>
    refine .inr ⟨fun vs e => ?_, fun vs e => ?_⟩
    · injection e with e
      omega
    · injection e with e
      omega
  | _ => exact .inr ⟨by simp, by simp⟩

theorem iterate_of_ne {round : State σ → Outcome σ} {rounds : Nat} {st : State σ}
    (h : ∀ values, (round st).1 ≠ .branch 0 values) :
    Machine.iterate round (rounds + 1) st = round st := by
  simp only [Machine.iterate]
  split
  · rename_i e
    exact absurd (congrArg Prod.fst e) (h _)
  · rfl

theorem iterate_of_eq {round : State σ → Outcome σ} {rounds : Nat} {st : State σ}
    {values : List Value} (h : (round st).1 = .branch 0 values) :
    Machine.iterate round (rounds + 1) st = Machine.iterate round rounds (round st).2 := by
  rw [Machine.iterate]
  split
  · rename_i e
    rw [e]
  · rename_i hne
    exact absurd (Prod.ext h rfl : round st = (.branch 0 values, (round st).2)) (hne values _)

/-- Related rounds make related loops; the side with the tighter bound may time out. -/
theorem Outcomes.iterate {depth : Nat} {round round' : State σ → Outcome σ}
    (h : ∀ st st', S.States st st' → S.Outcomes (depth + 1) (round st) (round' st')) :
    ∀ {k k' : Nat}, (k < k' → S.leftBounded) → (k' < k → S.rightBounded) →
      ∀ {st st' : State σ}, S.States st st' →
        S.Outcomes (depth + 1) (Machine.iterate round k st) (Machine.iterate round' k' st')
  | 0, 0, _, _, _, _, hs => .inr ⟨.timeout, hs⟩
  | 0, k' + 1, hl, _, _, _, _ => .inl (.inr (.inl ⟨hl (by omega), rfl⟩))
  | k + 1, 0, _, hr, _, _, _ => .inl (.inr (.inr ⟨hr (by omega), rfl⟩))
  | k + 1, k' + 1, hl, hr, st, st', hs => by
    rcases h st st' hs with hw | ⟨he, hs'⟩
    · -- a side that is given up does not start again
      rcases hw with e | ⟨hb, e⟩ | ⟨hb, e⟩
      · rw [iterate_of_ne (by simp [e])]
        exact .stuck e
      · rw [iterate_of_ne (by simp [e])]
        exact .inl (.inr (.inl ⟨hb, e⟩))
      · rw [@iterate_of_ne _ round' _ _ (by simp [e])]
        exact .inl (.inr (.inr ⟨hb, e⟩))
    · rcases he.restarts with ⟨values, e, e'⟩ | ⟨hn, hn'⟩
      · rw [iterate_of_eq e, iterate_of_eq e']
        exact Outcomes.iterate h (fun h => hl (by omega)) (fun h => hr (by omega)) hs'
      · rw [iterate_of_ne hn, iterate_of_ne hn']
        exact .inr ⟨he, hs'⟩

theorem caughtBy_of_ne {handler : Option Exception → State σ → Outcome σ} {o : Outcome σ}
    (h : ∀ e, o.1 ≠ .raise 0 e) : o.caughtBy handler = o := by
  obtain ⟨s, st⟩ := o
  unfold Outcome.caughtBy
  split
  · rename_i e
    exact absurd (congrArg Prod.fst e) (h _)
  · rfl

/-- Related exceptions are handled by related handlers, and outcomes that raise none are left alone
by both. -/
theorem Outcomes.caughtBy {depth : Nat} {o o' : Outcome σ}
    {handler handler' : Option Exception → State σ → Outcome σ}
    (h : S.Outcomes (depth + 1) o o')
    (hh : ∀ trigger st st', S.States st st' →
      S.Outcomes (depth + 1) (handler trigger st) (handler' trigger st')) :
    S.Outcomes (depth + 1) (o.caughtBy handler) (o'.caughtBy handler') := by
  rcases h with h | ⟨he, hs⟩
  · rcases h with e | ⟨hb, e⟩ | ⟨hb, e⟩
    · rw [caughtBy_of_ne (by simp [e])]
      exact .stuck e
    · rw [caughtBy_of_ne (by simp [e])]
      exact .inl (.inr (.inl ⟨hb, e⟩))
    · rw [caughtBy_of_ne (o := o') (by simp [e])]
      exact .inl (.inr (.inr ⟨hb, e⟩))
  · obtain ⟨s, st⟩ := o
    obtain ⟨s', st'⟩ := o'
    by_cases hr : ∃ e, s = .raise 0 e
    · obtain ⟨e, rfl⟩ := hr
      cases he with
      | raise e h => exact hh (some e) st st' hs
    · have hn : ∀ e, s ≠ .raise 0 e := fun e h => hr ⟨e, h⟩
      have hn' : ∀ e, s' ≠ .raise 0 e := by
        intro e h
        subst h
        cases he
        exact hn e rfl
      rw [caughtBy_of_ne hn, caughtBy_of_ne hn']
      exact .inr ⟨he, hs⟩

/-- Related parts make related regions, of whatever kind: for a loop this takes an induction on the
rounds that are left. -/
theorem Lawful.region (H : S.Lawful) {depth : Nat} {r : Region}
    {first first' : State σ → Outcome σ} {other other' : Option Exception → State σ → Outcome σ}
    (hf : ∀ st st', S.States st st' → S.Outcomes (depth + 1) (first st) (first' st'))
    (ho : ∀ trigger st st', S.States st st' →
      S.Outcomes (depth + 1) (other trigger st) (other' trigger st'))
    {stack : List Value} {st st' : State σ} (hs : S.States st st') :
    S.Outcomes depth (S.left.region r first other stack st)
      (S.right.region r first' other' (stack ++ S.belowAt depth) st') := by
  obtain ⟨kind, result⟩ := r
  cases kind with
  | block => exact (hf st st' hs).leave
  | loop => exact (Outcomes.iterate hf H.fuel_lt H.fuel_gt hs).leave
  | ifThen =>
    match stack with
    | .i32 c :: stack =>
      simp only [Machine.region, List.cons_append]
      by_cases hc : c = 0
      · simpa only [if_pos hc] using (ho none st st' hs).leave
      · simpa only [if_neg hc] using (hf st st' hs).leave
    | [] | .i64 _ :: _ | .f64 _ :: _ => exact .stuck rfl
  | tryCatch => exact ((hf st st' hs).caughtBy ho).leave

/-- **Simulation is kept by every constructor of codes**, in any setting that obeys the laws. What a
pass has to show is then only about single operations and about the place where it changes
something. -/
theorem Lawful.congruence (H : S.Lawful) :
    Congruence (fun o => ∀ label, o = .delegate label → S.skips) S.Sim S.ArmsSim where
  done := by
    intro n labels _ stack st st' hs
    exact .inr ⟨.next stack, hs⟩
  region := by
    intro n kind result body body' arms arms' rest rest' _ _ _ hb ha hr labels hl stack st st' hs
    simp only [Code.eval]
    refine (H.region (fun st st' hs => ?_) (fun trigger st st' hs => ?_) hs).andThen
      fun stack st st' hs => hr labels hl stack st st' hs
    · have hl' : regionsOf (⟨⟨kind, result⟩, none⟩ :: labels) = ⟨kind, result⟩ :: n := by
        rw [← hl]
        rfl
      exact hb (⟨⟨kind, result⟩, none⟩ :: labels) hl' [] st st' hs
    · exact ha ⟨kind, result⟩ n rfl labels hl trigger st st' hs
  close := by
    intro n r n' e labels hl trigger st st' hs
    subst e
    cases trigger with
    | none => exact .inr ⟨.next [], hs⟩
    | some e => exact .inr ⟨.raise e (.inl rfl), hs⟩
  delegate := by
    intro n label hskips r n' e labels hl trigger st st' hs
    subst e
    cases trigger with
    | none => exact .stuck rfl
    | some e => exact .inr ⟨.raise e (.inr (hskips label rfl)), hs⟩
  arm := by
    intro n head body body' more more' _ hb hm r n' e labels hl trigger st st' hs
    subst e
    have hl' : regionsOf (⟨r, trigger⟩ :: labels) = r :: n' := by
      rw [← hl]
      rfl
    simp only [Arms.eval]
    cases armStack? trigger head with
    | none => exact hm r n' rfl labels hl trigger st st' hs
    | some stack => simpa using hb (⟨r, trigger⟩ :: labels) hl' stack st st' hs

/-! ## 4. Operations

An operation answers another one when it does the same to what is related.  On operands this is a
question about `act` alone. -/

/-- Reading a local of the first side is answered by reading another one of the second. -/
def ReadsAs (locals : List Value → List Value → Prop) (i i' : Nat) : Prop :=
  ∀ l l', locals l l' → ∀ v, l[i]? = some v → l'[i']? = some v

/-- Writing a local of the first side is answered by writing another one of the second. -/
def WritesAs (locals : List Value → List Value → Prop) (i i' : Nat) : Prop :=
  ∀ l l', locals l l' → i < l.length → i' < l'.length ∧ ∀ v, locals (l.set i v) (l'.set i' v)

theorem readsAs_eq (i : Nat) : ReadsAs Eq i i := fun _ _ e _ h => e ▸ h

theorem writesAs_eq (i : Nat) : WritesAs Eq i i :=
  fun _ _ e h => ⟨e ▸ h, fun v => congrArg (List.set · i v) e⟩

variable (S)

/-- A callable of the first side is answered by another one of the second. -/
def Calls (t t' : Nat) : Prop :=
  ∀ s, S.left.signatures[t]? = some s → S.right.signatures[t']? = some s ∧
    ∀ args w, args.length = s.params.length →
      S.Answers (S.left.call t args w) (S.right.call t' args w)

/-- Both sides may branch to a label: it belongs to one of the regions opened since, or to one of
those outside that the two sides share. -/
def Allows (depth label : Nat) : Prop := label < depth ∨ ∃ k, label = depth + k ∧ S.shares k

variable {S}

/-- An operation on operands does the same on both sides, from states that correspond, unless it
gets stuck on the first. -/
def ActSim (S : Setting σ) (o o' : Op) : Prop :=
  ∀ args st st', S.States st st' → (S.left.act o args st).1 = .stuck ∨
    ((S.right.act o' args st').1 = (S.left.act o args st).1 ∧
      S.States (S.left.act o args st).2 (S.right.act o' args st').2)

theorem perform_of_stackEffect? (M : Machine σ) {labels : List Label} {o : Op} {count more : Nat}
    (h : o.stackEffect? = some (count, more)) (stack : List Value) (st : State σ) :
    M.perform labels o stack st = M.apply o count stack st := by
  cases o <;> simp only [Op.stackEffect?, reduceCtorEq] at h <;>
    simp only [Machine.perform, Op.stackEffect?, h]

/-- Additional operands below do not matter to operations that take a known number from the top. -/
theorem ActSim.opSim {n : Nesting} {o o' : Op} {count more more' : Nat} (h : S.ActSim o o')
    (ho : o.stackEffect? = some (count, more)) (ho' : o'.stackEffect? = some (count, more')) :
    S.OpSim n o o' := by
  intro labels _ stack st st' hs
  rw [perform_of_stackEffect? _ ho, perform_of_stackEffect? _ ho']
  unfold Machine.apply
  by_cases hc : count ≤ stack.length
  · have hc' : count ≤ (stack ++ S.belowAt n.length).length := by
      rw [List.length_append]
      omega
    rw [if_pos hc, if_pos hc', List.take_append_of_le_length hc, List.drop_append_of_le_length hc]
    rcases h (stack.take count) st st' hs with h | ⟨he, hs'⟩
    · generalize S.left.act o (stack.take count) st = r at h
      obtain ⟨e, s⟩ := r
      subst h
      exact .stuck rfl
    · generalize S.left.act o (stack.take count) st = r at he hs'
      generalize S.right.act o' (stack.take count) st' = r' at he hs'
      obtain ⟨e, s⟩ := r
      obtain ⟨e', s'⟩ := r'
      obtain rfl : e' = e := he
      cases e' with
      | push values =>
        simp only [← List.append_assoc]
        exact .inr ⟨.next _, hs'⟩
      | trap => exact .inr ⟨.trap, hs'⟩
      | stuck => exact .stuck rfl
  · rw [if_neg hc]
    exact .stuck rfl

/-- Where there is no memory, a memory operation gets stuck. -/
theorem actOnWorld_of_noMemory {M : Machine σ} (hM : ¬ M.hasMemory) {o : Op}
    (ho : o.touchesMemory) (args : List Value) (w : World σ) :
    (M.actOnWorld o args w).1 = .stuck := by
  have hstuck : ∀ act, (M.onMemory w act).1 = .stuck := fun act => by
    rw [Machine.onMemory, if_neg hM]
  cases o with
  | load a arg =>
    match args with
    | [.i32 address] => exact hstuck _
    | [] | .i64 _ :: _ | .f64 _ :: _ | .i32 _ :: _ :: _ => rfl
  | store a arg =>
    match args with
    | [v, .i32 address] => exact hstuck _
    | [] | [_] | _ :: .i64 _ :: _ | _ :: .f64 _ :: _ | _ :: .i32 _ :: _ :: _ => rfl
  | memorySize =>
    match args with
    | [] => exact hstuck _
    | _ :: _ => rfl
  | memoryGrow =>
    match args with
    | [.i32 delta] => exact hstuck _
    | [] | .i64 _ :: _ | .f64 _ :: _ | .i32 _ :: _ :: _ => rfl
  | _ => cases ho

/-- Machines with the same operations on doubles do the same, provided that the second one has a
memory where the operation needs one. -/
theorem actOnWorld_congr {M M' : Machine σ} (hf : M.floats = M'.floats) {o : Op}
    (hm : o.touchesMemory → M.hasMemory → M'.hasMemory) (args : List Value) (w : World σ) :
    (M.actOnWorld o args w).1 = .stuck ∨ M'.actOnWorld o args w = M.actOnWorld o args w := by
  by_cases ho : o.touchesMemory
  · by_cases hM : M.hasMemory
    · have hon : M'.onMemory = M.onMemory := by
        funext w act
        rw [Machine.onMemory, Machine.onMemory, if_pos hM, if_pos (hm ho hM)]
      refine .inr ?_
      unfold Machine.actOnWorld
      rw [hon, hf]
    · exact .inl (actOnWorld_of_noMemory hM ho args w)
  · refine .inr ?_
    unfold Machine.actOnWorld
    rw [hf]
    split
    -- the four memory operations are out of the question, the others never ask for the memory
    case h_6 | h_7 | h_8 | h_9 => exact absurd rfl ho
    all_goals rfl

theorem act_of_localIndex? (M : Machine σ) {o : Op} (h : o.localIndex? = none) (args : List Value)
    (st : State σ) :
    M.act o args st
      = ((M.actOnWorld o args st.world).1,
        { st with world := (M.actOnWorld o args st.world).2 }) := by
  cases o with
  | localGet _ | localSet _ | localTee _ => cases h
  | _ => rfl

variable (S) in
/-- The second side has a memory for an operation that the first side has one for. -/
def Provides (o : Op) : Prop := o.touchesMemory → S.left.hasMemory → S.right.hasMemory

/-- An operation that uses no local does the same on both sides. -/
theorem Lawful.actSim (H : S.Lawful) {o : Op} (h : o.localIndex? = none) (hm : S.Provides o) :
    S.ActSim o o := by
  intro args st st' hs
  rw [act_of_localIndex? _ h, act_of_localIndex? _ h, ← hs.2]
  rcases actOnWorld_congr H.floats hm args st.world with e | e
  · exact .inl e
  · rw [e]
    exact .inr ⟨rfl, hs.1, rfl⟩

theorem ReadsAs.actSim {i i' : Nat} (h : ReadsAs S.locals i i') :
    S.ActSim (.localGet i) (.localGet i') := by
  intro args st st' hs
  match args with
  | [] =>
    simp only [Machine.act]
    cases hv : st.locals[i]? with
    | none => exact .inl rfl
    | some v =>
      rw [h _ _ hs.1 v hv]
      exact .inr ⟨rfl, hs⟩
  | _ :: _ => exact .inl rfl

theorem WritesAs.actSim {i i' : Nat} (h : WritesAs S.locals i i') :
    S.ActSim (.localSet i) (.localSet i') ∧ S.ActSim (.localTee i) (.localTee i') := by
  constructor <;>
  · intro args st st' hs
    match args with
    | [v] =>
      simp only [Machine.act]
      by_cases hi : i < st.locals.length
      · obtain ⟨hi', hw⟩ := h _ _ hs.1 hi
        rw [if_pos hi, if_pos hi']
        exact .inr ⟨rfl, hw v, hs.2⟩
      · rw [if_neg hi]
        exact .inl rfl
    | [] | _ :: _ :: _ => exact .inl rfl

/-! ## 5. Control

Branches, returns and calls, for which the labels, the results and the signatures of both sides
must agree. -/

theorem regionsOf_append (a b : List Label) : regionsOf (a ++ b) = regionsOf a ++ regionsOf b :=
  List.map_append

theorem labelArity?_inner (M M' : Machine σ) (labels under under' : List Label) {label : Nat}
    (h : label < labels.length) :
    M.labelArity? (labels ++ under) label = M'.labelArity? (labels ++ under') label := by
  have hr : label < (regionsOf labels).length := by rwa [regionsOf, List.length_map]
  simp only [Machine.labelArity?, List.length_append, regionsOf_append, Nesting.labelArity,
    List.getElem?_append_left hr, List.getElem?_eq_getElem hr]
  rw [if_pos (by omega), if_pos (by omega)]

theorem labelArity?_outer (M : Machine σ) (labels under : List Label) (k : Nat) :
    M.labelArity? (labels ++ under) (labels.length + k) = M.labelArity? under k := by
  have hr : (regionsOf labels).length ≤ labels.length + k := by
    rw [regionsOf, List.length_map]
    omega
  have e : labels.length + k - (regionsOf labels).length = k := by
    rw [regionsOf, List.length_map]
    omega
  simp only [Machine.labelArity?, List.length_append, regionsOf_append, Nesting.labelArity,
    List.getElem?_append_right hr, e, Nat.add_le_add_iff_left]

/-- A branch to an allowed label takes the same values on both sides. -/
theorem Lawful.branch (H : S.Lawful) {labels : List Label} {label : Nat}
    (h : S.Allows labels.length label) (stack : List Value) {st st' : State σ}
    (hs : S.States st st') :
    S.Outcomes labels.length (S.left.branch (labels ++ S.under) label stack, st)
      (S.right.branch (labels ++ S.under') label (stack ++ S.belowAt labels.length), st') := by
  have harity : ∀ arity, S.left.labelArity? (labels ++ S.under) label = some arity →
      S.right.labelArity? (labels ++ S.under') label = some arity := by
    intro arity ha
    rcases h with h | ⟨k, rfl, hk⟩
    · rwa [← labelArity?_inner S.left S.right labels S.under S.under' h]
    · rw [labelArity?_outer] at ha ⊢
      exact H.arity k hk arity ha
  unfold Machine.branch
  cases ha : S.left.labelArity? (labels ++ S.under) label with
  | none => exact .stuck rfl
  | some arity =>
    rw [harity arity ha]
    by_cases hc : arity ≤ stack.length
    · have hc' : arity ≤ (stack ++ S.belowAt labels.length).length := by
        rw [List.length_append]
        omega
      simp only [if_pos hc, if_pos hc', List.take_append_of_le_length hc]
      rcases h with h | ⟨k, rfl, hk⟩
      · exact .inr ⟨.inner _ h, hs⟩
      · exact .inr ⟨.outer _ hk, hs⟩
    · simp only [if_neg hc]
      exact .stuck rfl

/-- A call is answered by a call, if the answers are used alike. -/
theorem Calls.invokeWith {t t' depth : Nat} (h : S.Calls t t') {stack below : List Value}
    {st st' : State σ} (hs : S.States st st')
    {onReturn onReturn' : ResultType → List Value → List Value → Signal}
    {onRaise onRaise' : Exception → Signal}
    (hreturn : ∀ result values rest, onReturn result values rest = .stuck ∨
      S.Ends depth (onReturn result values rest) (onReturn' result values (rest ++ below)))
    (hraise : ∀ e, S.Ends depth (onRaise e) (onRaise' e)) :
    S.Outcomes depth (S.left.invokeWith t stack st onReturn onRaise)
      (S.right.invokeWith t' (stack ++ below) st' onReturn' onRaise') := by
  unfold Machine.invokeWith
  cases hsig : S.left.signatures[t]? with
  | none => exact .stuck rfl
  | some s =>
    obtain ⟨hsig', hcall⟩ := h s hsig
    rw [hsig']
    by_cases hc : s.params.length ≤ stack.length
    · have hc' : s.params.length ≤ (stack ++ below).length := by
        rw [List.length_append]
        omega
      simp only [if_pos hc, if_pos hc', List.take_append_of_le_length hc,
        List.drop_append_of_le_length hc, ← hs.2]
      have ha := hcall (stack.take s.params.length).reverse st.world (by simp [hc])
      generalize S.left.call t (stack.take s.params.length).reverse st.world = a at ha
      generalize S.right.call t' (stack.take s.params.length).reverse st.world = a' at ha
      obtain ⟨answer, w⟩ := a
      obtain ⟨answer', w'⟩ := a'
      rcases ha with e | ⟨hb, e⟩ | ⟨hb, e⟩ | e
      · obtain rfl : answer = .stuck := e
        exact .stuck rfl
      · obtain rfl : answer = .timeout := e
        exact .inl (.inr (.inl ⟨hb, rfl⟩))
      · obtain rfl : answer' = .timeout := e
        exact .inl (.inr (.inr ⟨hb, rfl⟩))
      · obtain ⟨rfl, rfl⟩ := Prod.mk.inj e
        have hs' : S.States { st with world := w } { st' with world := w } := ⟨hs.1, rfl⟩
        cases answer with
        | returned values =>
          rcases hreturn s.result values (stack.drop s.params.length) with e | he
          · exact .stuck e
          · exact .inr ⟨he, hs'⟩
        | raised x => exact .inr ⟨hraise x, hs'⟩
        | trapped => exact .inr ⟨.trap, hs'⟩
        | stuck => exact .stuck rfl
        | timeout => exact .inr ⟨.timeout, hs'⟩
    · simp only [if_neg hc]
      exact .stuck rfl

namespace Lawful

variable (H : S.Lawful) {n : Nesting}
include H

theorem opSim_br {label : Nat} (h : S.Allows n.length label) :
    S.OpSim n (.br label) (.br label) := by
  intro labels hl stack st st' hs
  subst hl
  rw [regionsOf, List.length_map] at h ⊢
  exact H.branch h stack hs

theorem opSim_brIf {label : Nat} (h : S.Allows n.length label) :
    S.OpSim n (.brIf label) (.brIf label) := by
  intro labels hl stack st st' hs
  subst hl
  rw [regionsOf, List.length_map] at h ⊢
  match stack with
  | .i32 c :: stack =>
    simp only [Machine.perform, List.cons_append]
    by_cases hc : c = 0
    · simp only [if_pos hc]
      exact .inr ⟨.next stack, hs⟩
    · simp only [if_neg hc]
      exact H.branch h stack hs
  | [] | .i64 _ :: _ | .f64 _ :: _ => exact .stuck rfl

theorem opSim_brTable {targets : List Nat} {fallback : Nat}
    (h : ∀ label ∈ fallback :: targets, S.Allows n.length label) :
    S.OpSim n (.brTable targets fallback) (.brTable targets fallback) := by
  intro labels hl stack st st' hs
  subst hl
  rw [regionsOf, List.length_map] at h ⊢
  match stack with
  | .i32 c :: stack =>
    have hm : targets.getD c.toNat fallback ∈ fallback :: targets := by
      rw [List.getD_eq_getElem?_getD]
      cases ht : targets[c.toNat]? with
      | none => exact List.mem_cons_self
      | some l => exact List.mem_cons_of_mem _ (List.mem_of_getElem? ht)
    exact H.branch (h _ hm) stack hs
  | [] | .i64 _ :: _ | .f64 _ :: _ => exact .stuck rfl

theorem opSim_ret (h : S.returns) : S.OpSim n .ret .ret := by
  intro labels hl stack st st' hs
  simp only [Machine.perform, ← H.results h]
  by_cases hc : S.left.results ≤ stack.length
  · have hc' : S.left.results ≤ (stack ++ S.belowAt n.length).length := by
      rw [List.length_append]
      omega
    rw [if_pos hc, if_pos hc', List.take_append_of_le_length hc]
    exact .inr ⟨.ret _ h, hs⟩
  · rw [if_neg hc]
    exact .stuck rfl

/-- An exception of a tail call finds the same handlers on both sides. -/
theorem opSim_returnCall {t t' : Nat} (hcalls : S.Calls t t') (h : S.returns) :
    S.OpSim n (.returnCall t) (.returnCall t') := by
  intro labels hl stack st st' hs
  refine hcalls.invokeWith hs (fun result values rest => ?_) fun e => ?_
  · simp only [← H.results h]
    by_cases hv : values.length = S.left.results
    · simp only [if_pos hv]
      exact .inr (.ret values h)
    · exact .inl (if_neg hv)
  · have hi : (regionsOf (labels ++ S.under)).insideTry
        = (regionsOf (labels ++ S.under')).insideTry := by
      simp only [Nesting.insideTry, regionsOf_append, List.any_append]
      exact congrArg _ (H.insideTry h)
    simp only [← hi]
    split
    · exact .escape e h
    · exact .raise e (.inl rfl)

theorem opSim_throwTag (tag : Nat) : S.OpSim n (.throwTag tag) (.throwTag tag) := by
  intro labels hl stack st st' hs
  simp only [Machine.perform, ← H.tags]
  cases S.left.tags[tag]? with
  | none => exact .stuck rfl
  | some t =>
    by_cases hc : t.params.length ≤ stack.length
    · have hc' : t.params.length ≤ (stack ++ S.belowAt n.length).length := by
        rw [List.length_append]
        omega
      simp only [if_pos hc, if_pos hc', List.take_append_of_le_length hc]
      exact .inr ⟨.raise _ (.inl rfl), hs⟩
    · simp only [if_neg hc]
      exact .stuck rfl

theorem opSim_rethrow {label : Nat} (h : S.Allows n.length label) :
    S.OpSim n (.rethrow label) (.rethrow label) := by
  intro labels hl stack st st' hs
  subst hl
  rw [regionsOf, List.length_map] at h
  have hcaught : ∀ e, ((labels ++ S.under)[label]?).bind Label.caught = some e →
      ((labels ++ S.under')[label]?).bind Label.caught = some e := by
    intro e
    rcases h with hlt | ⟨k, rfl, hk⟩
    · rw [List.getElem?_append_left hlt, List.getElem?_append_left hlt]
      exact id
    · rw [List.getElem?_append_right (by omega), List.getElem?_append_right (by omega),
        Nat.add_sub_cancel_left]
      exact H.caught k hk e
  simp only [Machine.perform]
  cases he : ((labels ++ S.under)[label]?).bind Label.caught with
  | none => exact .stuck rfl
  | some e =>
    rw [hcaught e he]
    exact .inr ⟨.raise e (.inl rfl), hs⟩

end Lawful

theorem Calls.opSim {t t' : Nat} (h : S.Calls t t') {n : Nesting} :
    S.OpSim n (.call t) (.call t') := by
  intro labels hl stack st st' hs
  refine h.invokeWith hs (fun result values rest => ?_) fun e => .raise e (.inl rfl)
  by_cases hv : values.length = result.arity
  · simp only [if_pos hv, ← List.append_assoc]
    exact .inr (.next _)
  · exact .inl (if_neg hv)

end Setting

/-- The labels that a plain operation refers to, if it is a branch; all others refer to none. -/
def Op.labels : Op → List Nat
  | .br label | .brIf label | .rethrow label => [label]
  | .brTable targets fallback => fallback :: targets
  | _ => []

/-- Leaves the function with results, from wherever it stands: a `return` or a tail call. -/
def Op.returns : Op → Bool
  | .ret | .returnCall _ => true
  | _ => false

namespace Setting

variable {σ : Type} {S : Setting σ}

variable (S) in
/-- An operation may stand on the first side, with its local and its callee renumbered on the
second. -/
structure Admits (depth : Nat) (f g : Nat → Nat) (o : Op) : Prop where
  reads : ∀ i, o = .localGet i → ReadsAs S.locals i (f i)
  writes : ∀ i, o.storedLocal? = some i → WritesAs S.locals i (f i)
  calls : ∀ t, o.callTarget? = some t → S.Calls t (g t)
  labels : ∀ label ∈ o.labels, S.Allows depth label
  returns : o.returns → S.returns
  memory : S.Provides o

/-- **A renumbered operation does the same**, when the setting relates the locals and the callables
that are renumbered, and allows the labels that the operation refers to. -/
theorem Lawful.opSim (H : S.Lawful) {n : Nesting} {f g : Nat → Nat} {o : Op}
    (h : S.Admits n.length f g o) : S.OpSim n o ((o.mapLocal f).mapCall g) := by
  have hsame : o.localIndex? = none → o.callTarget? = none → ∀ count more,
      o.stackEffect? = some (count, more) → S.OpSim n o ((o.mapLocal f).mapCall g) := by
    intro hl hc count more he
    have e : (o.mapLocal f).mapCall g = o := by
      cases o with
      | localGet _ | localSet _ | localTee _ => cases hl
      | call _ | returnCall _ => cases hc
      | _ => rfl
    rw [e]
    exact (H.actSim hl h.memory).opSim he he
  cases o with
  | localGet i => exact (h.reads i rfl).actSim.opSim rfl rfl
  | localSet i => exact (h.writes i rfl).actSim.1.opSim rfl rfl
  | localTee i => exact (h.writes i rfl).actSim.2.opSim rfl rfl
  | nop | drop | select | globalGet _ | globalSet _ | load _ _ | store _ _ | memorySize
  | memoryGrow | const _ | num _ => exact hsame rfl rfl _ _ rfl
  | unreachable => exact fun labels _ stack st st' hs => .inr ⟨.trap, hs⟩
  | enter _ _ | elseArm | close | catchTag _ | catchAll | delegate _ =>
    exact fun labels _ stack st st' hs => .stuck rfl
  | br label => exact H.opSim_br (h.labels label List.mem_cons_self)
  | brIf label => exact H.opSim_brIf (h.labels label List.mem_cons_self)
  | brTable targets fallback => exact H.opSim_brTable h.labels
  | ret => exact H.opSim_ret (h.returns rfl)
  | call t => exact (h.calls t rfl).opSim
  | returnCall t => exact H.opSim_returnCall (h.calls t rfl) (h.returns rfl)
  | throwTag tag => exact H.opSim_throwTag tag
  | rethrow label => exact H.opSim_rethrow (h.labels label List.mem_cons_self)

end Setting

end WasmTrim
