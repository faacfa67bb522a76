/-
# Refinement of functions and programs

A function refines another when it gives the same answer in the same world wherever the other is
not stuck (`Function.Refines`).  A pass over one function is a chain of refinements, and a
program whose functions are refined one by one behaves like the program before
(`Program.invoke_refines`).

Two kinds of proof lead to a refinement.  A pass over the locals gives a relation between them
and a simulation (`Function.refines_of_sim`).  A pass that replaces a few operations by others
only has to compare the two pieces, run from the same state (`Machine.performAll`,
`Function.refines_of_piece`).

Refinement is asked for on every machine with the given signatures, and not only on the one of a
program.  So a function can be refined without knowing what the others do, and the functions of a
program can all be refined at once: the calls of a refined body are again calls of refined
bodies, one level of calls further down, and the induction is on the bound.

Stuck runs are left out on the first side because a rewrite may remove what is stuck.  Reading a
local that does not exist and dropping the value is stuck, and nothing is left of it afterwards.
-/
import WasmTrim.Proofs.Semantics.Simulation

namespace WasmTrim

/-! ## 1. Both sides alike

The setting of a pass over one function: no regions around, no operands below, and a `return` on
either side is one on the other. -/

namespace Setting

variable {σ : Type}

/-- Two machines without any surroundings, each operation answered by itself; one side may be
bounded more tightly. -/
def bounded (M M' : Machine σ) (locals : List Value → List Value → Prop)
    (leftBounded rightBounded : Prop) : Setting σ where
  left := M
  right := M'
  under := []
  under' := []
  below := []
  locals := locals
  shares _ := True
  returns := True
  wraps := False
  skips := True
  leftBounded := leftBounded
  rightBounded := rightBounded

/-- The same with the same bounds, so that neither side may run into its own without the other. -/
def plain (M M' : Machine σ) (locals : List Value → List Value → Prop) : Setting σ :=
  bounded M M' locals False False

variable {M M' : Machine σ} {locals : List Value → List Value → Prop}
  {leftBounded rightBounded : Prop}

theorem bounded_lawful (hf : M.floats = M'.floats) (ht : M.tags = M'.tags)
    (hl : M.fuel < M'.fuel → leftBounded) (hg : M'.fuel < M.fuel → rightBounded)
    (hr : M.results = M'.results) :
    (bounded M M' locals leftBounded rightBounded).Lawful where
  floats := hf
  tags := ht
  fuel_lt := hl
  fuel_gt := hg
  results _ := hr
  insideTry _ := rfl
  arity := by
    intro k _ n h
    rw [← h]
    unfold Machine.labelArity?
    exact congrArg (fun r => if k ≤ [].length then some (Nesting.labelArity [] k r) else none)
      hr.symm
  caught _ _ _ h := h

theorem plain_lawful (hf : M.floats = M'.floats) (ht : M.tags = M'.tags) (hk : M.fuel = M'.fuel)
    (hr : M.results = M'.results) : (plain M M' locals).Lawful :=
  bounded_lawful hf ht (fun h => absurd hk (Nat.ne_of_lt h))
    (fun h => absurd hk.symm (Nat.ne_of_lt h)) hr

theorem plain_self : (plain M M locals).Lawful := plain_lawful rfl rfl rfl rfl

theorem plain_calls (t : Nat) : (plain M M locals).Calls t t :=
  fun _ h => ⟨h, fun _ _ _ => .inr (.inr (.inr rfl))⟩

theorem bounded_allows (depth label : Nat) :
    (bounded M M' locals leftBounded rightBounded).Allows depth label := by
  by_cases h : label < depth
  · exact .inl h
  · exact .inr ⟨label - depth, by omega, trivial⟩

theorem plain_allows (depth label : Nat) : (plain M M' locals).Allows depth label :=
  bounded_allows depth label

/-- Where both stacks are the same and a `return` stays one, signals answer each other only when
they are the same. -/
theorem Ends.eq_of_alike {S : Setting σ} (hb : S.below = []) (hw : ¬ S.wraps) {depth : Nat}
    {s s' : Signal} (h : S.Ends depth s s') : s' = s := by
  cases h with
  | next stack => simp [belowAt, hb]
  | wrapped values h => exact absurd h hw
  | _ => rfl

theorem Ends.eq_of_bounded {depth : Nat} {s s' : Signal}
    (h : (bounded M M' locals leftBounded rightBounded).Ends depth s s') : s' = s :=
  h.eq_of_alike rfl id

theorem Outcomes.refl_of_bounded (depth : Nat) {s : Signal} {st st' : State σ}
    (hs : (bounded M M' locals leftBounded rightBounded).States st st') :
    (bounded M M' locals leftBounded rightBounded).Outcomes depth (s, st) (s, st') := by
  cases s with
  | next stack =>
    have e : stack ++ (bounded M M' locals leftBounded rightBounded).belowAt depth = stack := by
      simp [bounded, belowAt]
    have h : (bounded M M' locals leftBounded rightBounded).Ends depth (.next stack)
        (.next (stack ++ (bounded M M' locals leftBounded rightBounded).belowAt depth)) :=
      .next stack
    rw [e] at h
    exact .inr ⟨h, hs⟩
  | branch label values =>
    have ha : (bounded M M' locals leftBounded rightBounded).Allows depth label :=
      bounded_allows depth label
    rcases ha with h | ⟨k, rfl, h⟩
    · exact .inr ⟨.inner values h, hs⟩
    · exact .inr ⟨.outer values h, hs⟩
  | ret values => exact .inr ⟨.ret values trivial, hs⟩
  | raise skip e => exact .inr ⟨.raise e (.inr trivial), hs⟩
  | escape e => exact .inr ⟨.escape e trivial, hs⟩
  | trap => exact .inr ⟨.trap, hs⟩
  | stuck => exact .stuck rfl
  | timeout => exact .inr ⟨.timeout, hs⟩

/-- A well-formed code whose operations answer themselves answers itself. The regions take care of
themselves, by the laws of the setting. -/
theorem Lawful.sim_self {S : Setting σ} (H : S.Lawful) {c : Code} (hc : c.WellFormed)
    (hd : ∀ label, .delegate label ∈ c.ops → S.skips)
    (ho : ∀ o ∈ c.ops, o.isPlain → ∀ n, S.OpSim n o o) : S.Sim [] c c := by
  obtain ⟨c', hp, hs⟩ := @Congruence.parse_window _ _ _ H.congruence [] c.ops .done .done c trivial
    trivial (fun o hm _ label e => hd label (e ▸ hm))
    (fun o hm hp n c c' h => (ho o hm hp n).cons h) (fun c c' h => h) (Code.parse_ops hc)
  have e : some c' = some c := hp.symm.trans (Code.parse_ops hc)
  rwa [Option.some.inj e] at hs

end Setting

@[simp] theorem Op.mapLocal_id : ∀ o : Op, o.mapLocal (fun i => i) = o := by
  intro o
  cases o <;> rfl

@[simp] theorem Op.mapCall_id : ∀ o : Op, o.mapCall (fun i => i) = o := by
  intro o
  cases o <;> rfl

/-- An operation answers itself when the local it uses does. -/
theorem Setting.plain_opSim {σ : Type} {M : Machine σ} {locals : List Value → List Value → Prop}
    {n : Nesting} {o : Op} (hr : ∀ i, o = .localGet i → ReadsAs locals i i)
    (hw : ∀ i, o.storedLocal? = some i → WritesAs locals i i) :
    (plain M M locals).OpSim n o o := by
  have h : (plain M M locals).Admits n.length (fun i => i) (fun i => i) o :=
    ⟨hr, hw, fun t _ => plain_calls t, fun label _ => plain_allows _ label, fun _ => trivial,
      fun _ h => h⟩
  simpa using plain_self.opSim h

/-! ## 2. Straight-line pieces

Most rules replace a short piece without control flow.  Running the piece is running its operations
in order, until one does not let control run on. -/

/-- Performs some operations in order, each on what the one before has left, up to the first after
which control does not run on. -/
def Machine.performAll {σ : Type} (M : Machine σ) (labels : List Label) :
    List Op → List Value → State σ → Outcome σ
  | [], stack, st => (.next stack, st)
  | o :: ops, stack, st => Outcome.andThen (M.perform labels o stack st) (M.performAll labels ops)

theorem Outcome.andThen_assoc {σ : Type} (o : Outcome σ)
    (k k' : List Value → State σ → Outcome σ) :
    (o.andThen k).andThen k' = o.andThen fun stack st => (k stack st).andThen k' := by
  obtain ⟨s, st⟩ := o
  cases s <;> rfl

theorem Outcome.andThen_next {σ : Type} (o : Outcome σ) :
    (o.andThen fun stack st => (.next stack, st)) = o := by
  obtain ⟨s, st⟩ := o
  cases s <;> rfl

theorem Code.eval_append {σ : Type} (M : Machine σ) (labels : List Label) :
    ∀ (c d : Code) (stack : List Value) (st : State σ),
      (c.append d).eval M labels stack st = (c.eval M labels stack st).andThen (d.eval M labels)
  | .done, _, _, _ => by simp only [append, eval, Outcome.andThen]
  | .op o rest, d, stack, st => by
    simp only [append, eval, Outcome.andThen_assoc]
    exact congrArg _ (funext fun s => funext fun t => eval_append M labels rest d s t)
  | .region kind result body arms rest, d, stack, st => by
    simp only [append, eval, Outcome.andThen_assoc]
    exact congrArg _ (funext fun s => funext fun t => eval_append M labels rest d s t)

theorem Code.eval_ofOps {σ : Type} (M : Machine σ) (labels : List Label) :
    ∀ (ops : List Op) (stack : List Value) (st : State σ),
      (ofOps ops).eval M labels stack st = M.performAll labels ops stack st
  | [], _, _ => by simp only [ofOps, eval, Machine.performAll]
  | o :: ops, stack, st => by
    simp only [ofOps, eval, Machine.performAll]
    exact congrArg _ (funext fun s => funext fun t => eval_ofOps M labels ops s t)

/-- Replacing a piece by one with related outcomes keeps a simulation. -/
theorem Setting.sim_append {σ : Type} {S : Setting σ} {n : Nesting} {ops ops' : List Op}
    (h : ∀ labels, regionsOf labels = n → ∀ stack st st', S.States st st' →
      S.Outcomes n.length (S.left.performAll (labels ++ S.under) ops stack st)
        (S.right.performAll (labels ++ S.under') ops' (stack ++ S.belowAt n.length) st'))
    {c c' : Code} (hc : S.Sim n c c') :
    S.Sim n ((Code.ofOps ops).append c) ((Code.ofOps ops').append c') := by
  intro labels hl stack st st' hs
  rw [Code.eval_append, Code.eval_append, Code.eval_ofOps, Code.eval_ofOps]
  exact (h labels hl stack st st' hs).andThen fun stack st st' hs => hc labels hl stack st st' hs

/-! ## 3. Functions

A function refines another if it ends as the other does on every machine, unless the other gets
stuck.  It is enough to relate their codes, from the states in which a call begins. -/

/-- The first answer is stuck, or both are the same. -/
def Covers {σ : Type} (a a' : Answer × World σ) : Prop := a.1 = .stuck ∨ a' = a

theorem Covers.trans {σ : Type} {a b c : Answer × World σ} (h : Covers a b) (h' : Covers b c) :
    Covers a c := by
  rcases h with h | rfl
  · exact .inl h
  · exact h'

/-- **A function refines another** in a program with the given signatures: it can be called in
the same way, it can be parsed if the other can, and it gives the same answer unless the other is
stuck. -/
structure Function.Refines (signatures : List Signature) (f f' : Function) : Prop where
  params : f'.params = f.params
  result : f'.result = f.result
  parses : (Code.parse f.body.ops).isSome → (Code.parse f'.body.ops).isSome
  covers : ∀ {σ : Type} (M : Machine σ), M.signatures = signatures → ∀ args w,
    args.length = f.params.length → Covers (f.run M args w) (f'.run M args w)

namespace Function

variable {signatures : List Signature} {f f' f'' : Function}

theorem Refines.refl (signatures : List Signature) (f : Function) : f.Refines signatures f :=
  ⟨rfl, rfl, id, fun _ _ _ _ _ => .inr rfl⟩

theorem Refines.trans (h : f.Refines signatures f') (h' : f'.Refines signatures f'') :
    f.Refines signatures f'' where
  params := h'.params.trans h.params
  result := h'.result.trans h.result
  parses := h'.parses ∘ h.parses
  covers := by
    intro σ M hM args w ha
    exact (h.covers M hM args w ha).trans (h'.covers M hM args w (by rw [h.params, ha]))

/-- Related outcomes of two bodies are related answers: what is left on the stack, or carried out of
the body, is turned into an answer on both sides in the same way. -/
theorem answers_of_outcomes {σ : Type} {M M' : Machine σ} {locals : List Value → List Value → Prop}
    {leftBounded rightBounded : Prop} {arity : Nat} {o o' : Outcome σ}
    (h : (Setting.bounded M M' locals leftBounded rightBounded).Outcomes 0 o o') :
    (Setting.bounded M M' locals leftBounded rightBounded).Answers
      (o.1.answer arity, o.2.world) (o'.1.answer arity, o'.2.world) := by
  rcases h with (e | ⟨hb, e⟩ | ⟨hb, e⟩) | ⟨he, hs⟩
  · exact .inl (by simp only [e, Signal.answer])
  · exact .inr (.inl ⟨hb, by simp only [e, Signal.answer]⟩)
  · exact .inr (.inr (.inl ⟨hb, by simp only [e, Signal.answer]⟩))
  · rw [he.eq_of_bounded, hs.2]
    exact .inr (.inr (.inr rfl))

/-- Within the same bounds they are the same answers, unless the first side is stuck. -/
theorem covers_of_outcomes {σ : Type} {M M' : Machine σ} {locals : List Value → List Value → Prop}
    {arity : Nat} {o o' : Outcome σ} (h : (Setting.plain M M' locals).Outcomes 0 o o') :
    Covers (o.1.answer arity, o.2.world) (o'.1.answer arity, o'.2.world) := by
  rcases answers_of_outcomes h with e | h | h | e
  · exact .inl e
  · exact h.1.elim
  · exact h.1.elim
  · exact .inr e.symm

/-- A machine on which nothing happens: every call traps. It has a memory, and serves where some
machine is needed and any one will do. -/
def inertMachine (signatures : List Signature) (results : Nat) : Machine Unit :=
  ⟨⟨fun _ x => x, fun _ x _ => x, fun _ _ _ => false⟩, true, signatures, [], results, 0,
    fun _ _ w => (.trapped, w)⟩

/-- **Refinement from a simulation.**  It is enough to relate the locals on entry, and to
simulate the first body by the second. -/
theorem refines_of_sim (locals : List Value → List Value → Prop) (hparams : f'.params = f.params)
    (hresult : f'.result = f.result)
    (hentry : ∀ args : List Value, args.length = f.params.length →
      locals (args ++ f.localTypes.map Value.zero) (args ++ f'.localTypes.map Value.zero))
    (hsim : ∀ {σ : Type} (M : Machine σ), M.signatures = signatures → M.results = f.result.arity →
      ∀ c, Code.parse f.body.ops = some c →
        ∃ c', Code.parse f'.body.ops = some c' ∧ (Setting.plain M M locals).Sim [] c c') :
    f.Refines signatures f' where
  params := hparams
  result := hresult
  parses := by
    intro h
    obtain ⟨c, hc⟩ := Option.isSome_iff_exists.mp h
    obtain ⟨c', hc', -⟩ := hsim (inertMachine signatures f.result.arity) rfl rfl c hc
    exact Option.isSome_iff_exists.mpr ⟨c', hc'⟩
  covers := by
    intro σ M hM args w ha
    unfold run
    cases hc : Code.parse f.body.ops with
    | none => exact .inl rfl
    | some c =>
      obtain ⟨c', hc', h⟩ := hsim { M with results := f.result.arity } hM rfl c hc
      rw [hc', hresult]
      have hs : (Setting.plain { M with results := f.result.arity }
          { M with results := f.result.arity } locals).States (f.entryState args w)
          (f'.entryState args w) := ⟨hentry args ha, rfl⟩
      exact covers_of_outcomes (h [] rfl [] _ _ hs)

/-- **Refinement by replacing a piece of the body.**  The operations around it keep the relation
between the locals, and the new piece does what the old one did, whatever follows. -/
theorem refines_of_piece (locals : List Value → List Value → Prop) (w w' : Code)
    (hparams : f'.params = f.params) (hresult : f'.result = f.result)
    (hentry : ∀ args : List Value, args.length = f.params.length →
      locals (args ++ f.localTypes.map Value.zero) (args ++ f'.localTypes.map Value.zero))
    {before after : List Op} (hw : w.WellFormed) (hw' : w'.WellFormed)
    (hbody : f.body.ops = before ++ (w.ops ++ after))
    (hbody' : f'.body.ops = before ++ (w'.ops ++ after))
    (hreads : ∀ i, .localGet i ∈ before ++ after → Setting.ReadsAs locals i i)
    (hwrites : ∀ o ∈ before ++ after, ∀ i, o.storedLocal? = some i → Setting.WritesAs locals i i)
    (hpiece : ∀ {σ : Type} (M : Machine σ), M.signatures = signatures →
      M.results = f.result.arity → ∀ c c',
        (Setting.plain M M locals).Sim (Nesting.observeAll [] before) c c' →
        (Setting.plain M M locals).Sim (Nesting.observeAll [] before) (w.append c) (w'.append c')) :
    f.Refines signatures f' := by
  refine refines_of_sim locals hparams hresult hentry fun M hM hr c hc => ?_
  rw [hbody] at hc
  rw [hbody']
  refine Setting.plain_self.congruence.parse_window hw hw' (fun _ _ _ _ _ => trivial)
    (fun o ho _ n c c' h => ?_) (hpiece M hM hr) hc
  refine (Setting.plain_opSim (fun i e => ?_) fun i e => hwrites o ho i e).cons h
  subst e
  exact hreads i ho

/-- **Better calls make a better function.** If the calls that one machine offers cover those of
another, and the machines agree otherwise, a function run on the one covers itself run on the other.
The better machine may also have a memory where the other has none. -/
theorem run_covers (f : Function) {σ : Type} {M M' : Machine σ} (hf : M.floats = M'.floats)
    (hm : M.hasMemory → M'.hasMemory) (hs : M.signatures = M'.signatures)
    (ht : M.tags = M'.tags) (hk : M.fuel = M'.fuel)
    (hcall : ∀ t s args w, M.signatures[t]? = some s → args.length = s.params.length →
      Covers (M.call t args w) (M'.call t args w)) (args : List Value) (w : World σ) :
    Covers (f.run M args w) (f.run M' args w) := by
  unfold run
  cases hc : Code.parse f.body.ops with
  | none => exact .inl rfl
  | some c =>
    have hcalls : ∀ t, (Setting.plain { M with results := f.result.arity }
        { M' with results := f.result.arity } Eq).Calls t t := by
      intro t s h
      refine ⟨(congrArg (·[t]?) hs).symm.trans h, fun args w ha => ?_⟩
      rcases hcall t s args w h ha with e | e
      · exact .inl e
      · exact .inr (.inr (.inr e.symm))
    have H : (Setting.plain { M with results := f.result.arity }
        { M' with results := f.result.arity } Eq).Lawful := Setting.plain_lawful hf ht hk rfl
    have hsim := H.sim_self (Code.ops_of_parse hc).2 (fun _ _ => trivial) fun o _ _ n => by
      have h := H.opSim (n := n) (f := fun i => i) (g := fun i => i) (o := o)
        ⟨fun i _ => Setting.readsAs_eq i, fun i _ => Setting.writesAs_eq i,
          fun t _ => hcalls t, fun label _ => Setting.plain_allows _ label, fun _ => trivial,
          fun _ => hm⟩
      simpa using h
    exact covers_of_outcomes (hsim [] rfl [] _ _ ⟨rfl, rfl⟩)

end Function

/-! ## 4. Programs

Whether there is a memory must not change, which for a refinement of each function by itself is a
hypothesis about the flags. -/

namespace Program

theorem invoke_import {p : Program} {σ : Type} (u : FloatUnit) (host : Host σ) {index : Nat}
    {i : Import} (hi : p.imports[index]? = some i) (fuel : Nat) (args : List Value) (w : World σ) :
    p.invoke u host (fuel + 1) index args w = p.callImport host i index args w := by
  simp only [invoke, hi]

theorem invoke_function {p : Program} {σ : Type} (u : FloatUnit) (host : Host σ) {i : Nat}
    {f : Function} (hf : p.functions[i]? = some f) (fuel : Nat) (args : List Value) (w : World σ) :
    p.invoke u host (fuel + 1) (p.imports.length + i) args w
      = f.run (p.machine u host fuel) args w := by
  have hi : p.imports[p.imports.length + i]? = none := List.getElem?_eq_none (by omega)
  simp only [invoke, hi, Nat.add_sub_cancel_left, hf]
  rfl

/-- **Refining every function refines the program.**  Calls that are made with the right number
of arguments end alike, within the same bounds, unless they are stuck. -/
theorem invoke_refines {p p' : Program} (himports : p'.imports = p.imports)
    (htags : p'.tags = p.tags) (hmemory : p.usesMemory → p'.usesMemory)
    (hlength : p'.functions.length = p.functions.length)
    (hfunctions : ∀ (k : Nat) (f f' : Function),
      p.functions[k]? = some f → p'.functions[k]? = some f' → f.Refines p.signatures f')
    {σ : Type} (u : FloatUnit) (host : Host σ) :
    ∀ (fuel index : Nat) (s : Signature) (args : List Value) (w : World σ),
      p.signatures[index]? = some s → args.length = s.params.length →
        Covers (p.invoke u host fuel index args w) (p'.invoke u host fuel index args w)
  | 0, _, _, _, _, _, _ => .inr rfl
  | fuel + 1, index, s, args, w, hs, ha => by
    have hsignatures : p'.signatures = p.signatures := by
      unfold signatures
      rw [himports]
      refine congrArg _ (List.ext_getElem? fun k => ?_)
      simp only [List.getElem?_map]
      by_cases hk : k < p.functions.length
      · have e := List.getElem?_eq_getElem hk
        have e' := List.getElem?_eq_getElem (hlength.symm ▸ hk : k < p'.functions.length)
        have h := hfunctions k _ _ e e'
        simp only [e, e', Option.map_some, Function.signature, h.params, h.result]
      · rw [List.getElem?_eq_none (by omega), List.getElem?_eq_none (by omega)]
    simp only [invoke, himports]
    cases hi : p.imports[index]? with
    | some i =>
      simp only [callImport, htags]
      exact .inr rfl
    | none =>
      simp only []
      cases hf : p.functions[index - p.imports.length]? with
      | none => exact .inl rfl
      | some f =>
        have hk : index - p.imports.length < p'.functions.length := by
          have := (List.getElem?_eq_some_iff.mp hf).1
          omega
        have hf' := List.getElem?_eq_getElem hk
        rw [hf']
        have href := hfunctions _ _ _ hf hf'
        have hlen : args.length = f.params.length := by
          have hle : p.imports.length ≤ index := List.getElem?_eq_none_iff.mp hi
          have : p.signatures[index]? = some f.signature := by
            rw [signatures, List.getElem?_append_right (by simpa using hle)]
            simp [hf]
          rw [this] at hs
          rw [ha, ← Option.some.inj hs]
          rfl
        have hcall : ∀ (t : Nat) (s : Signature) (args : List Value) (w : World σ),
            p.signatures[t]? = some s → args.length = s.params.length →
              Covers (p.invoke u host fuel t args w) (p'.invoke u host fuel t args w) :=
          fun t s args w =>
            invoke_refines himports htags hmemory hlength hfunctions u host fuel t s args w
        have hmono : Covers (Function.run p'.functions[index - p.imports.length]
              (p.machine u host fuel) args w)
            (Function.run p'.functions[index - p.imports.length] (p'.machine u host fuel) args w) :=
          Function.run_covers _ (by rfl) hmemory hsignatures.symm htags.symm (by rfl) hcall args w
        exact (href.covers (p.machine u host fuel) rfl args w hlen).trans hmono

end Program

end WasmTrim
