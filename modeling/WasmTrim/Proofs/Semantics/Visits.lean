/-
# The places that a run comes by

A place of a code is a number of operations from its start.  A run may come by a place once,
many times, as in a loop, or never.  `Code.visits` lists its visits: for every time that control
arrives at the place, the labels, the stack and the state it arrives with.  The list is computed
along the evaluation, so it holds neither more nor less than what the evaluation does
(`Code.visits_append`, `Code.Exchange.covers`).

The point of the list is to replace a code by another that does the same only where control
really arrives.  `Code.Exchange` relates two codes that differ from one place on, up to the end
of the sequence that the place is in.  If the two endings agree at every visit, so do the codes.

An exchange runs to the end of a sequence because that is what can be exchanged without touching
structure: the rest of a sequence is again a code, and what follows it in the body, an arm or the
closer of the region around, is the same before and after.  Every place at which a plain operation
stands is one where an exchange can be made (`Code.exists_opens`).

Visits are counted over a whole run, with its bounds.  A place inside of a loop is visited once in
every round that comes so far; a place behind a loop only if the loop ends.
-/
import WasmTrim.Proofs.Semantics.Refinement

namespace WasmTrim

variable {σ : Type}

/-! ## 1. Outcomes that cover each other

The order in which refinement is stated: a stuck outcome may become anything, and any other stays as
it is. -/

namespace Outcome

/-- The first outcome is stuck, or both are the same. For a code that does not get stuck this is
equality. -/
def Covers (o o' : Outcome σ) : Prop := o.1 = .stuck ∨ o' = o

namespace Covers

variable {o o' : Outcome σ}

theorem refl (o : Outcome σ) : Covers o o := .inr rfl

/-- What follows has to agree only where control runs on. -/
theorem andThen {k k' : List Value → State σ → Outcome σ} (h : Covers o o')
    (hk : ∀ stack st, o = (.next stack, st) → Covers (k stack st) (k' stack st)) :
    Covers (o.andThen k) (o'.andThen k') := by
  obtain ⟨s, st⟩ := o
  rcases h with h | rfl
  · obtain rfl : s = .stuck := h
    exact .inl rfl
  · cases s with
    | next stack => exact hk stack st rfl
    | _ => exact .refl _

theorem leave (h : Covers o o') (arity : Nat) (below : List Value) :
    Covers (o.1.leave arity below, o.2) (o'.1.leave arity below, o'.2) := by
  rcases h with h | rfl
  · exact .inl (by simp only [h, Signal.leave])
  · exact .refl _

/-- Handlers have to agree only on what is raised: on any other exception they may do as they like.
-/
theorem caughtBy {handler handler' : Option Exception → State σ → Outcome σ} (h : Covers o o')
    (hh : ∀ e st, o = (.raise 0 e, st) → Covers (handler (some e) st) (handler' (some e) st)) :
    Covers (o.caughtBy handler) (o'.caughtBy handler') := by
  obtain ⟨s, st⟩ := o
  rcases h with h | rfl
  · obtain rfl : s = .stuck := h
    exact .inl rfl
  · by_cases hr : ∃ e, s = .raise 0 e
    · obtain ⟨e, rfl⟩ := hr
      exact hh e st rfl
    · have hn : ∀ e, s ≠ .raise 0 e := fun e he => hr ⟨e, he⟩
      rw [Setting.caughtBy_of_ne hn, Setting.caughtBy_of_ne hn]
      exact .refl _

theorem answer (h : Covers o o') (arity : Nat) :
    WasmTrim.Covers (o.1.answer arity, o.2.world) (o'.1.answer arity, o'.2.world) := by
  rcases h with h | rfl
  · exact .inl (by simp only [h, Signal.answer])
  · exact .inr rfl

end Covers

end Outcome

/-! ## 2. Where the parts of a region begin

Rounds of a loop, the first part, the other arms: each begins in certain states, and agreement of
the parts is needed from these states only. -/

namespace Machine

/-- The states in which the rounds of a loop begin. -/
def rounds (round : State σ → Outcome σ) : Nat → State σ → List (State σ)
  | 0, _ => []
  | count + 1, st =>
    st :: match round st with
      | (.branch 0 _, st) => rounds round count st
      | _ => []

/-- The states in which the first part of a region begins. -/
def firstStates (M : Machine σ) (r : Region) (first : State σ → Outcome σ) (stack : List Value)
    (st : State σ) : List (State σ) :=
  match r.kind with
  | .block | .tryCatch => [st]
  | .loop => rounds first M.fuel st
  | .ifThen =>
    match stack with
    | .i32 c :: _ => if c = 0 then [] else [st]
    | _ => []

/-- The states in which the other arms of a region are tried, each with what selects among
them. -/
def otherStates (r : Region) (first : State σ → Outcome σ) (stack : List Value) (st : State σ) :
    List (Option Exception × State σ) :=
  match r.kind with
  | .block | .loop => []
  | .ifThen =>
    match stack with
    | .i32 c :: _ => if c = 0 then [(none, st)] else []
    | _ => []
  | .tryCatch =>
    match first st with
    | (.raise 0 e, st) => [(some e, st)]
    | _ => []

/-- Loops agree when their rounds do, from the states in which these begin. -/
theorem covers_iterate {round round' : State σ → Outcome σ} : ∀ {count : Nat} {st : State σ},
    (∀ s ∈ rounds round count st, Outcome.Covers (round s) (round' s)) →
      Outcome.Covers (iterate round count st) (iterate round' count st)
  | 0, _, _ => .refl _
  | count + 1, st, h => by
    have hround := h st List.mem_cons_self
    by_cases hr : ∃ values, (round st).1 = .branch 0 values
    · obtain ⟨values, hv⟩ := hr
      have he : round st = (.branch 0 values, (round st).2) := Prod.ext hv rfl
      rcases hround with hs | hs
      · rw [hv] at hs
        cases hs
      · rw [Setting.iterate_of_eq hv, Setting.iterate_of_eq (hs ▸ hv), hs]
        refine covers_iterate fun s hm => h s (List.mem_cons_of_mem _ ?_)
        rw [he]
        exact hm
    · have hn : ∀ values, (round st).1 ≠ .branch 0 values := fun values he => hr ⟨values, he⟩
      rw [Setting.iterate_of_ne hn]
      rcases hround with hs | hs
      · exact .inl hs
      · rw [Setting.iterate_of_ne (by rw [hs]; exact hn), hs]
        exact .refl _

/-- **Regions agree when their parts do**, from the states in which these begin. A loop begins its
first part once for every round, and an arm begins where an exception has been caught or a condition
did not hold. -/
theorem covers_region {M : Machine σ} {r : Region} {first first' : State σ → Outcome σ}
    {other other' : Option Exception → State σ → Outcome σ} {stack : List Value} {st : State σ}
    (hf : ∀ s ∈ M.firstStates r first stack st, Outcome.Covers (first s) (first' s))
    (ho : ∀ x ∈ otherStates r first stack st, Outcome.Covers (other x.1 x.2) (other' x.1 x.2)) :
    Outcome.Covers (M.region r first other stack st) (M.region r first' other' stack st) := by
  obtain ⟨kind, result⟩ := r
  cases kind with
  | block => exact (hf st List.mem_cons_self).leave _ _
  | loop => exact (covers_iterate hf).leave _ _
  | ifThen =>
    match stack with
    | .i32 c :: stack =>
      simp only [firstStates, otherStates] at hf ho
      simp only [region]
      by_cases hc : c = 0
      · rw [if_pos hc] at ho
        rw [if_pos hc, if_pos hc]
        exact (ho _ List.mem_cons_self).leave _ _
      · rw [if_neg hc] at hf
        rw [if_neg hc, if_neg hc]
        exact (hf _ List.mem_cons_self).leave _ _
    | [] => exact .refl _
    | .i64 _ :: _ => exact .refl _
    | .f64 _ :: _ => exact .refl _
  | tryCatch =>
    have hfirst : Outcome.Covers (first st) (first' st) := hf st List.mem_cons_self
    refine (hfirst.caughtBy fun e s he => ?_).leave _ _
    have hm : (some e, s) ∈ otherStates ⟨.tryCatch, result⟩ first stack st := by
      simp only [otherStates, he, List.mem_singleton]
    exact ho _ hm

end Machine

/-! ## 3. Visits

A visit is what control finds when it comes to a place: the labels, the stack and the state.  The
visits of a run are listed by going through the code as it is evaluated. -/

/-- What control arrives with at a place: the labels it may branch to, the operands, and the state.
-/
structure Visit (σ : Type) where
  labels : List Label
  stack : List Value
  state : State σ

/-- The visits behind an outcome: there are some only if control runs on. -/
def Outcome.onward (o : Outcome σ) (k : List Value → State σ → List (Visit σ)) : List (Visit σ) :=
  match o with
  | (.next stack, st) => k stack st
  | _ => []

mutual

/-- The visits to the place behind the given number of operations, in the order in which they
happen.  The openers of arms and the closers of regions are not visited. -/
def Code.visits (M : Machine σ) (labels : List Label) :
    Code → Nat → List Value → State σ → List (Visit σ)
  | _, 0, stack, st => [⟨labels, stack, st⟩]
  | .done, _ + 1, _, _ => []
  | .op o rest, k + 1, stack, st =>
    Outcome.onward (M.perform labels o stack st) (rest.visits M labels k)
  | .region kind result body arms rest, k + 1, stack, st =>
    let first := body.eval M (⟨⟨kind, result⟩, none⟩ :: labels) []
    if k < body.ops.length then
      (M.firstStates ⟨kind, result⟩ first stack st).flatMap fun s =>
        body.visits M (⟨⟨kind, result⟩, none⟩ :: labels) k [] s
    else if k < body.ops.length + arms.ops.length then
      (Machine.otherStates ⟨kind, result⟩ first stack st).flatMap fun x =>
        arms.visits M ⟨kind, result⟩ labels (k - body.ops.length) x.1 x.2
    else
      Outcome.onward
        (M.region ⟨kind, result⟩ first (arms.eval M ⟨kind, result⟩ labels) stack st)
        (rest.visits M labels (k - (body.ops.length + arms.ops.length)))

/-- The visits to a place in the arms of a region, when an exception, or its absence, selects
among them. -/
def Arms.visits (M : Machine σ) (r : Region) (labels : List Label) :
    Arms → Nat → Option Exception → State σ → List (Visit σ)
  | .close, _, _, _ => []
  | .delegate _, _, _, _ => []
  | .arm _ _ _, 0, _, _ => []
  | .arm head body more, k + 1, trigger, st =>
    match armStack? trigger head with
    | some stack =>
      if k < body.ops.length then body.visits M (⟨r, trigger⟩ :: labels) k stack st else []
    | none =>
      if k < body.ops.length then [] else more.visits M r labels (k - body.ops.length) trigger st

end

@[simp] theorem Code.visits_zero (M : Machine σ) (labels : List Label) (c : Code)
    (stack : List Value) (st : State σ) : c.visits M labels 0 stack st = [⟨labels, stack, st⟩] := by
  cases c <;> simp only [visits]

theorem Outcome.onward_andThen (o : Outcome σ) (k : List Value → State σ → Outcome σ)
    (k' : List Value → State σ → List (Visit σ)) :
    (o.andThen k).onward k' = o.onward fun stack st => (k stack st).onward k' := by
  obtain ⟨s, st⟩ := o
  cases s <;> rfl

/-- **A place is visited as often as control arrives there**: the places of a code that follows
another one are visited exactly if the first one runs through, from the stack and the state that
it ends with. -/
theorem Code.visits_append (M : Machine σ) (labels : List Label) (d : Code) (k : Nat) :
    ∀ (c : Code) (stack : List Value) (st : State σ),
      (c.append d).visits M labels (c.ops.length + k) stack st
        = (c.eval M labels stack st).onward (d.visits M labels k)
  | .done, stack, st => by
    simp only [append, ops, List.length_nil, Nat.zero_add, eval, Outcome.onward]
  | .op o rest, stack, st => by
    simp only [append, ops, List.length_cons, Nat.succ_add, visits, eval, Outcome.onward_andThen]
    exact congrArg _ (funext fun s => funext fun t => visits_append M labels d k rest s t)
  | .region kind result body arms rest, stack, st => by
    have hk : (Code.region kind result body arms rest).ops.length + k
        = (body.ops.length + arms.ops.length + (rest.ops.length + k)) + 1 := by
      simp only [ops, List.length_cons, List.length_append]
      omega
    have h₁ : ¬ body.ops.length + arms.ops.length + (rest.ops.length + k) < body.ops.length := by
      omega
    have h₂ : ¬ body.ops.length + arms.ops.length + (rest.ops.length + k)
        < body.ops.length + arms.ops.length := by
      omega
    rw [hk]
    simp only [append, visits, eval, Outcome.onward_andThen, if_neg h₁, if_neg h₂,
      Nat.add_sub_cancel_left]
    exact congrArg _ (funext fun s => funext fun t => visits_append M labels d k rest s t)

/-! ## 4. Exchanging what stands at a place

Two codes that are the same up to a place, and two endings from there on, at the same depth in both.
-/

mutual

/-- At the given place the first code goes on, to the end of the sequence that the place is in,
with `d`, and the second one with `d'`; otherwise they are the same. -/
inductive Code.Exchange (d d' : Code) : Nat → Code → Code → Prop where
  | here : Code.Exchange d d' 0 d d'
  | op {k : Nat} {rest rest' : Code} (o : Op) (h : Code.Exchange d d' k rest rest') :
    Code.Exchange d d' (k + 1) (.op o rest) (.op o rest')
  | first {k : Nat} {body body' : Code} (kind : RegionKind) (result : ResultType) (arms : Arms)
    (rest : Code) (hk : k < body.ops.length) (h : Code.Exchange d d' k body body') :
    Code.Exchange d d' (k + 1) (.region kind result body arms rest)
      (.region kind result body' arms rest)
  | arms {k : Nat} {arms arms' : Arms} (kind : RegionKind) (result : ResultType) (body rest : Code)
    (hk : k < arms.ops.length) (h : Arms.Exchange d d' k arms arms') :
    Code.Exchange d d' (body.ops.length + k + 1) (.region kind result body arms rest)
      (.region kind result body arms' rest)
  | rest {k : Nat} {rest rest' : Code} (kind : RegionKind) (result : ResultType) (body : Code)
    (arms : Arms) (h : Code.Exchange d d' k rest rest') :
    Code.Exchange d d' (body.ops.length + arms.ops.length + k + 1)
      (.region kind result body arms rest) (.region kind result body arms rest')

/-- The same for a place in the arms of a region.  The position counts the operations of the arms
that come before it. -/
inductive Arms.Exchange (d d' : Code) : Nat → Arms → Arms → Prop where
  | body {k : Nat} {body body' : Code} (head : Op) (more : Arms) (hk : k < body.ops.length)
    (h : Code.Exchange d d' k body body') :
    Arms.Exchange d d' (k + 1) (.arm head body more) (.arm head body' more)
  | more {k : Nat} {more more' : Arms} (head : Op) (body : Code)
    (h : Arms.Exchange d d' k more more') :
    Arms.Exchange d d' (body.ops.length + k + 1) (.arm head body more) (.arm head body more')

end

mutual

/-- **Endings that agree at every visit make codes that agree.** It is enough to compare the two
endings in the states in which the code comes to them, and these may be quite special. -/
theorem Code.Exchange.covers {M : Machine σ} {d d' : Code} : ∀ {k : Nat} {c c' : Code},
    Code.Exchange d d' k c c' → ∀ (labels : List Label) (stack : List Value) (st : State σ),
      (∀ v ∈ c.visits M labels k stack st,
        Outcome.Covers (d.eval M v.labels v.stack v.state) (d'.eval M v.labels v.stack v.state)) →
      Outcome.Covers (c.eval M labels stack st) (c'.eval M labels stack st)
  | _, _, _, .here, labels, stack, st, h => h ⟨labels, stack, st⟩ (by simp)
  | _, _, _, .op o hx, labels, stack, st, h => by
    simp only [Code.eval]
    refine (Outcome.Covers.refl _).andThen fun stack' st' e =>
      hx.covers labels stack' st' fun v hv => ?_
    exact h v (by rw [Code.visits, e]; exact hv)
  | _, _, _, .first kind result arms rest hk hx, labels, stack, st, h => by
    simp only [Code.eval]
    refine (Machine.covers_region (fun s hs => hx.covers _ _ _ fun v hv => ?_)
      fun _ _ => .refl _).andThen fun _ _ _ => .refl _
    refine h v ?_
    rw [Code.visits, if_pos hk]
    exact List.mem_flatMap.mpr ⟨s, hs, hv⟩
  | _, _, _, @Code.Exchange.arms _ _ k _ _ kind result body rest hk hx, labels, stack, st, h => by
    simp only [Code.eval]
    refine (Machine.covers_region (fun _ _ => .refl _) fun x hs =>
      hx.covers _ _ _ _ fun v hv => ?_).andThen fun _ _ _ => .refl _
    refine h v ?_
    rw [Code.visits, if_neg (by omega), if_pos (by omega), Nat.add_sub_cancel_left]
    exact List.mem_flatMap.mpr ⟨x, hs, hv⟩
  | _, _, _, .rest kind result body arms hx, labels, stack, st, h => by
    simp only [Code.eval]
    refine (Outcome.Covers.refl _).andThen fun stack' st' e =>
      hx.covers labels stack' st' fun v hv => ?_
    refine h v ?_
    rw [Code.visits, if_neg (by omega), if_neg (by omega), Nat.add_sub_cancel_left, e]
    exact hv

/-- The same for the arms of a region. -/
theorem Arms.Exchange.covers {M : Machine σ} {d d' : Code} : ∀ {k : Nat} {a a' : Arms},
    Arms.Exchange d d' k a a' → ∀ (r : Region) (labels : List Label)
      (trigger : Option Exception) (st : State σ),
      (∀ v ∈ a.visits M r labels k trigger st,
        Outcome.Covers (d.eval M v.labels v.stack v.state) (d'.eval M v.labels v.stack v.state)) →
      Outcome.Covers (a.eval M r labels trigger st) (a'.eval M r labels trigger st)
  | _, _, _, .body head more hk hx, r, labels, trigger, st, h => by
    simp only [Arms.eval]
    cases e : armStack? trigger head with
    | some stack =>
      refine hx.covers _ _ _ fun v hv => h v ?_
      simpa only [Arms.visits, e, if_pos hk] using hv
    | none => exact .refl _
  | _, _, _, @Arms.Exchange.more _ _ k more more' head body hx, r, labels, trigger, st, h => by
    simp only [Arms.eval]
    cases e : armStack? trigger head with
    | some stack => exact .refl _
    | none =>
      have hk : ¬ body.ops.length + k < body.ops.length := by omega
      refine hx.covers _ _ _ _ fun v hv => h v ?_
      simpa only [Arms.visits, e, if_neg hk, Nat.add_sub_cancel_left] using hv

end

/-! ## 5. Every place can be exchanged

One lemma says how a place that is open in a part of a code is open in the code, for each part that
a constructor has.  The theorem then only has to find the part. -/

/-- An element of two lists in a row is in the first or in the second one. -/
theorem split_append_cons {α : Type} {xs ys before tail : List α} {x : α}
    (h : xs ++ ys = before ++ x :: tail) :
    (∃ inner, xs = before ++ x :: inner ∧ tail = inner ++ ys) ∨
      ∃ gap, before = xs ++ gap ∧ ys = gap ++ x :: tail := by
  rcases List.append_eq_append_iff.mp h with ⟨gap, hb, hy⟩ | ⟨inner, hx, ht⟩
  · exact .inr ⟨gap, hb, hy⟩
  · cases inner with
    | nil => exact .inr ⟨[], by simpa using hx.symm, by simpa using ht.symm⟩
    | cons y inner =>
      obtain ⟨rfl, rfl⟩ := List.cons.inj ht
      exact .inl ⟨inner, hx, rfl⟩

/-- Behind a sequence the body is over, or an arm or a closer follows. -/
def EndsSequence (after : List Op) : Prop :=
  ∀ o rest, after = o :: rest → o.closesRegion ∨ o.startsArm

theorem EndsSequence.append_arms {after : List Op} (h : EndsSequence after) {a : Arms}
    (ha : a.WellFormed) (rest : List Op) : EndsSequence (after ++ (a.ops ++ rest)) := by
  intro o tail e
  cases after with
  | cons p after =>
    obtain ⟨rfl, -⟩ := List.cons.inj e
    exact h p after rfl
  | nil =>
    cases a with
    | close | delegate _ =>
      obtain ⟨rfl, -⟩ := List.cons.inj e
      exact .inl rfl
    | arm head body more =>
      rw [Arms.WellFormed] at ha
      rw [Arms.ops] at e
      obtain ⟨rfl, -⟩ := List.cons.inj e
      exact .inr ha.1

/-- What stands at a place of a code: the code up to the end of the sequence that the place is
in, and the operations behind that sequence. -/
structure Code.Opens (c : Code) (before : List Op) (d : Code) (after : List Op) : Prop where
  ops : c.ops = before ++ (d.ops ++ after)
  ends : EndsSequence after
  wellFormed : d.WellFormed
  exchange : ∀ d' : Code, ∃ c', Code.Exchange d d' before.length c c' ∧
    c'.ops = before ++ (d'.ops ++ after) ∧ (d'.WellFormed → c'.WellFormed)

/-- The same for a place in the arms of a region. -/
structure Arms.Opens (a : Arms) (before : List Op) (d : Code) (after : List Op) : Prop where
  ops : a.ops = before ++ (d.ops ++ after)
  ends : ∀ rest, EndsSequence (after ++ rest)
  wellFormed : d.WellFormed
  exchange : ∀ d' : Code, ∃ a', Arms.Exchange d d' before.length a a' ∧
    a'.ops = before ++ (d'.ops ++ after) ∧ a'.skeleton = a.skeleton ∧
      (d'.WellFormed → a'.WellFormed)

section

variable {c d rest : Code} {arms more : Arms} {before after : List Op} {kind : RegionKind}
  {result : ResultType}

/-- A well-formed code stands at its own beginning, with nothing before it and nothing behind. -/
theorem Code.opens_self (h : c.WellFormed) : c.Opens [] c [] where
  ops := by simp
  ends := by simp [EndsSequence]
  wellFormed := h
  exchange := fun d' => ⟨d', .here, by simp, id⟩

/-- A place behind an operation is one in the rest of the code. -/
theorem Code.Opens.op {p : Op} (hp : p.isPlain) (h : rest.Opens before d after) :
    (Code.op p rest).Opens (p :: before) d after where
  ops := by rw [Code.ops, h.ops, List.cons_append]
  ends := h.ends
  wellFormed := h.wellFormed
  exchange := by
    intro d'
    obtain ⟨c', hx, hc', hwf⟩ := h.exchange d'
    refine ⟨.op p c', .op p hx, by rw [Code.ops, hc', List.cons_append], fun hd' => ?_⟩
    rw [Code.WellFormed]
    exact ⟨hp, hwf hd'⟩

/-- A place in the first part of a region: what follows it there is the rest of the part, then the
arms and the code behind the region. -/
theorem Code.Opens.first (h : c.Opens before d after) (hk : before.length < c.ops.length)
    (hwf : (Code.region kind result c arms rest).WellFormed) :
    (Code.region kind result c arms rest).Opens (.enter kind result :: before) d
      (after ++ (arms.ops ++ rest.ops)) := by
  rw [Code.WellFormed] at hwf
  obtain ⟨hfits, -, harms, hrest⟩ := hwf
  refine ⟨?_, h.ends.append_arms harms _, h.wellFormed, fun d' => ?_⟩
  · rw [Code.ops, h.ops]
    simp
  · obtain ⟨c', hx, hc', hwf⟩ := h.exchange d'
    refine ⟨.region kind result c' arms rest, .first kind result arms rest hk hx, ?_,
      fun hd' => ?_⟩
    · rw [Code.ops, hc']
      simp
    · rw [Code.WellFormed]
      exact ⟨hfits, hwf hd', harms, hrest⟩

/-- A place in the arms of a region comes after the whole of the first part. -/
theorem Code.Opens.inArms (h : arms.Opens before d after) (hk : before.length < arms.ops.length)
    (hwf : (Code.region kind result c arms rest).WellFormed) :
    (Code.region kind result c arms rest).Opens (.enter kind result :: (c.ops ++ before)) d
      (after ++ rest.ops) := by
  rw [Code.WellFormed] at hwf
  obtain ⟨hfits, hc, -, hrest⟩ := hwf
  refine ⟨?_, h.ends _, h.wellFormed, fun d' => ?_⟩
  · rw [Code.ops, h.ops]
    simp
  · obtain ⟨a', hx, ha', hsk, hwf⟩ := h.exchange d'
    refine ⟨.region kind result c a' rest, ?_, ?_, fun hd' => ?_⟩
    · rw [List.length_cons, List.length_append]
      exact .arms kind result c rest hk hx
    · rw [Code.ops, ha']
      simp
    · rw [Code.WellFormed, hsk]
      exact ⟨hfits, hc, hwf hd', hrest⟩

/-- A place behind a region comes after all of it, the closer included. -/
theorem Code.Opens.behind (h : rest.Opens before d after)
    (hwf : (Code.region kind result c arms rest).WellFormed) :
    (Code.region kind result c arms rest).Opens
      (.enter kind result :: (c.ops ++ (arms.ops ++ before))) d after := by
  rw [Code.WellFormed] at hwf
  obtain ⟨hfits, hc, harms, -⟩ := hwf
  refine ⟨?_, h.ends, h.wellFormed, fun d' => ?_⟩
  · rw [Code.ops, h.ops]
    simp
  · obtain ⟨c', hx, hc', hwf⟩ := h.exchange d'
    refine ⟨.region kind result c arms c', ?_, ?_, fun hd' => ?_⟩
    · rw [List.length_cons, List.length_append, List.length_append, ← Nat.add_assoc]
      exact .rest kind result c arms hx
    · rw [Code.ops, hc']
      simp
    · rw [Code.WellFormed]
      exact ⟨hfits, hc, harms, hwf hd'⟩

/-- A place in the body of an arm: what follows it there is the rest of the body, then the other
arms. -/
theorem Arms.Opens.body {head : Op} (h : c.Opens before d after)
    (hk : before.length < c.ops.length) (hwf : (Arms.arm head c more).WellFormed) :
    (Arms.arm head c more).Opens (head :: before) d (after ++ more.ops) := by
  rw [Arms.WellFormed] at hwf
  obtain ⟨hhead, -, hmore⟩ := hwf
  refine ⟨?_, fun rest => ?_, h.wellFormed, fun d' => ?_⟩
  · rw [Arms.ops, h.ops]
    simp
  · rw [List.append_assoc]
    exact h.ends.append_arms hmore rest
  · obtain ⟨c', hx, hc', hwf⟩ := h.exchange d'
    refine ⟨.arm head c' more, .body head more hk hx, ?_, by simp only [Arms.skeleton],
      fun hd' => ?_⟩
    · rw [Arms.ops, hc']
      simp
    · rw [Arms.WellFormed]
      exact ⟨hhead, hwf hd', hmore⟩

/-- A place in the arms behind an arm comes after what begins the arm and the whole of its body. -/
theorem Arms.Opens.further {head : Op} (h : more.Opens before d after)
    (hwf : (Arms.arm head c more).WellFormed) :
    (Arms.arm head c more).Opens (head :: (c.ops ++ before)) d after := by
  rw [Arms.WellFormed] at hwf
  obtain ⟨hhead, hc, -⟩ := hwf
  refine ⟨?_, h.ends, h.wellFormed, fun d' => ?_⟩
  · rw [Arms.ops, h.ops]
    simp
  · obtain ⟨a', hx, ha', hsk, hwf⟩ := h.exchange d'
    refine ⟨.arm head c a', ?_, ?_, by simp only [Arms.skeleton, hsk], fun hd' => ?_⟩
    · rw [List.length_cons, List.length_append]
      exact .more head c hx
    · rw [Arms.ops, ha']
      simp
    · rw [Arms.WellFormed]
      exact ⟨hhead, hc, hwf hd'⟩

end

mutual

/-- **Every plain operation stands in a sequence** that can be exchanged from there on. The sequence
goes up to where the innermost arm ends, or to the end of the code. -/
theorem Code.exists_opens : ∀ {c : Code}, c.WellFormed → ∀ {before tail : List Op} {o : Op},
    c.ops = before ++ o :: tail → o.isPlain →
      ∃ d inner after, c.Opens before d after ∧ d.ops = o :: inner
  | .done, _, before, _, _, e, _ => by
    rw [Code.ops] at e
    exact absurd e.symm (by simp)
  | .op p rest, h, [], tail, o, e, _ => by
    rw [Code.ops] at e
    obtain ⟨rfl, rfl⟩ := List.cons.inj e
    exact ⟨_, rest.ops, [], Code.opens_self h, by rw [Code.ops]⟩
  | .op p rest, h, q :: before, tail, o, e, ho => by
    rw [Code.ops, List.cons_append] at e
    rw [Code.WellFormed] at h
    obtain ⟨rfl, et⟩ := List.cons.inj e
    obtain ⟨d, inner, after, hd, hi⟩ := Code.exists_opens h.2 et ho
    exact ⟨d, inner, after, hd.op h.1, hi⟩
  | .region kind result body arms rest, _, [], tail, o, e, ho => by
    rw [Code.ops] at e
    obtain ⟨rfl, -⟩ := List.cons.inj e
    exact absurd ho (by simp [Op.isPlain, Op.opensRegion])
  | .region kind result body arms rest, hwf, q :: before, tail, o, e, ho => by
    have h := hwf
    rw [Code.ops, List.cons_append] at e
    rw [Code.WellFormed] at h
    obtain ⟨rfl, et⟩ := List.cons.inj e
    -- the operation is in the first part, in the arms, or behind the region
    rcases split_append_cons et with ⟨t, eb, rfl⟩ | ⟨gap, rfl, eg⟩
    · obtain ⟨d, inner, after, hd, hi⟩ := Code.exists_opens h.2.1 eb ho
      exact ⟨d, inner, _, hd.first (by simp [eb]) hwf, hi⟩
    · rcases split_append_cons eg with ⟨t, ea, rfl⟩ | ⟨gap, rfl, er⟩
      · obtain ⟨d, inner, after, hd, hi⟩ := Arms.exists_opens h.2.2.1 ea ho
        exact ⟨d, inner, _, Code.Opens.inArms hd (by simp [ea]) hwf, hi⟩
      · obtain ⟨d, inner, after, hd, hi⟩ := Code.exists_opens h.2.2.2 er ho
        exact ⟨d, inner, _, hd.behind hwf, hi⟩

/-- The same for the arms of a region. -/
theorem Arms.exists_opens : ∀ {a : Arms}, a.WellFormed → ∀ {before tail : List Op} {o : Op},
    a.ops = before ++ o :: tail → o.isPlain →
      ∃ d inner after, a.Opens before d after ∧ d.ops = o :: inner
  | .close, _, before, tail, o, e, ho => by
    obtain rfl : o = .close := by
      have hm : o ∈ [Op.close] := by
        rw [← Arms.ops, e]
        simp
      exact List.mem_singleton.mp hm
    exact absurd ho (by simp [Op.isPlain, Op.closesRegion])
  | .delegate label, _, before, tail, o, e, ho => by
    obtain rfl : o = .delegate label := by
      have hm : o ∈ [Op.delegate label] := by
        rw [← Arms.ops, e]
        simp
      exact List.mem_singleton.mp hm
    exact absurd ho (by simp [Op.isPlain, Op.closesRegion])
  | .arm head body more, h, [], tail, o, e, ho => by
    rw [Arms.ops] at e
    rw [Arms.WellFormed] at h
    obtain ⟨rfl, -⟩ := List.cons.inj e
    exact absurd ho (by simp [Op.isPlain, h.1])
  | .arm head body more, hwf, q :: before, tail, o, e, ho => by
    have h := hwf
    rw [Arms.ops, List.cons_append] at e
    rw [Arms.WellFormed] at h
    obtain ⟨rfl, et⟩ := List.cons.inj e
    rcases split_append_cons et with ⟨t, eb, rfl⟩ | ⟨gap, rfl, eg⟩
    · obtain ⟨d, inner, after, hd, hi⟩ := Code.exists_opens h.2.1 eb ho
      exact ⟨d, inner, _, Arms.Opens.body hd (by simp [eb]) hwf, hi⟩
    · obtain ⟨d, inner, after, hd, hi⟩ := Arms.exists_opens h.2.2 eg ho
      exact ⟨d, inner, _, hd.further hwf, hi⟩

end

/-! ## 6. Functions

The same for the body of a function, from the state in which a call begins. -/

namespace Function

/-- The visits to a place of the body in a run of a function. -/
def visits (f : Function) (M : Machine σ) (args : List Value) (w : World σ) (k : Nat) :
    List (Visit σ) :=
  match Code.parse f.body.ops with
  | none => []
  | some c => c.visits { M with results := f.result.arity } [] k [] (f.entryState args w)

/-- **Changing a function from a place on.**  If what stands at the place and what is put there
agree at every visit of a run, the run ends alike. -/
theorem run_covers_of_visits {f : Function} {body : Body} {c c' d d' : Code} {k : Nat}
    (hc : Code.parse f.body.ops = some c) (hc' : Code.parse body.ops = some c')
    (hx : Code.Exchange d d' k c c') {M : Machine σ} {args : List Value} {w : World σ}
    (h : ∀ v ∈ f.visits M args w k, Outcome.Covers
      (d.eval { M with results := f.result.arity } v.labels v.stack v.state)
      (d'.eval { M with results := f.result.arity } v.labels v.stack v.state)) :
    Covers (f.run M args w) (Function.run { f with body } M args w) := by
  simp only [visits, hc] at h
  simp only [run, hc, hc']
  exact (hx.covers _ _ _ h).answer _

end Function

end WasmTrim
