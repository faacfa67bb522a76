/-
# Structured code

A body is a flat list of operations whose regions are only implied.  `Code` is the same body
with its structure made explicit: a sequence of plain operations and regions, where a region
has a first part, the arms that follow it (`else`, `catch`, `catch_all`) and a closer.
`Code.ops` forgets the structure and `Code.parse` finds it; the two are inverse to each other.

The parser reads a body from its end.  What it has read so far is the code up to the next
opener, and for every region whose closer it has met, the arms already read and the code behind
the region (`Pending`).  Reading backwards makes every edit of a body local: the code behind an
edited place has been read before the edit is met.

That is what `Congruence` packages.  A relation between codes that is kept by every constructor
relates a body and any edit of it as soon as the edited pieces are related
(`Congruence.read_substitute`, `Congruence.parse_window`).  Every later argument about a pass,
be it about types or about behaviour, is an instance.

The structure is that of the machine and not more: a region has the arms that its kind admits,
which for a `try` is any number of `catch`, then perhaps a `catch_all`, or a `delegate` in place of
its `end`.  A body that is well nested but has an `else` in a block does not parse, and neither does
one with two.  A body that validates parses (`Proofs/Typing/Steps`); the converse is far from
true, as nothing here looks at types.

The two views of nesting in `WasmTrim.Nesting` are not used to define structure.  They are what
the passes compute, and where a pass relies on one of them it is shown to agree with the parse.
-/
import WasmTrim.Nesting

namespace WasmTrim

/-! ## 1. Structural operations

Four classes, and every operation is in exactly one of them. -/

namespace Op

/-- Begins another arm of the innermost region, and ends the arm before it. -/
def startsArm : Op → Bool
  | .elseArm | .catchTag _ | .catchAll => true
  | _ => false

/-- Neither opens nor closes a region nor begins an arm. -/
def isPlain (op : Op) : Bool := !op.opensRegion && !op.closesRegion && !op.startsArm

theorem opensRegion_of_startsArm {op : Op} (h : op.startsArm) : op.opensRegion = false := by
  cases op with
  | enter _ _ => cases h
  | _ => rfl

theorem closesRegion_of_startsArm {op : Op} (h : op.startsArm) : op.closesRegion = false := by
  cases op with
  | close | delegate _ => cases h
  | _ => rfl

end Op

/-- A plain operation leaves the open regions alone: it neither opens one nor closes one. -/
theorem Nesting.observe_of_isPlain {op : Op} (h : op.isPlain) (n : Nesting) : n.observe op = n := by
  cases op with
  | enter _ _ | close | delegate _ => cases h
  | _ => rfl

/-- So does an operation that begins an arm, since an arm belongs to the region that it stands in.
-/
theorem Nesting.observe_of_startsArm {op : Op} (h : op.startsArm) (n : Nesting) :
    n.observe op = n := by
  cases op with
  | elseArm | catchTag _ | catchAll => rfl
  | _ => cases h

/-! ## 2. Code

The types say how a code is built, and a predicate says which arms go with which kind of region. -/

mutual

/-- A sequence of plain operations and regions, each followed by the rest. A region has its opener
and its arms, the last of which ends with the closer. -/
inductive Code where
  | done
  | op (op : Op) (rest : Code)
  | region (kind : RegionKind) (result : ResultType) (body : Code) (arms : Arms) (rest : Code)

/-- What follows the first part of a region: further arms, each with the operation that begins
it, and a closer. -/
inductive Arms where
  | close
  | delegate (label : Nat)
  | arm (head : Op) (body : Code) (more : Arms)

end

mutual

/-- The operations of a code, in order. Forgetting the structure loses nothing, as parsing gives it
back. -/
def Code.ops : Code → List Op
  | .done => []
  | .op o rest => o :: rest.ops
  | .region kind result body arms rest =>
    .enter kind result :: (body.ops ++ (arms.ops ++ rest.ops))

/-- The operations of the arms and the closer of a region. -/
def Arms.ops : Arms → List Op
  | .close => [.close]
  | .delegate label => [.delegate label]
  | .arm head body more => head :: (body.ops ++ more.ops)

end

/-- The operations that begin the arms of a region, and its closer. They decide which regions may
have these arms. -/
def Arms.skeleton : Arms → List Op
  | .close => [.close]
  | .delegate label => [.delegate label]
  | .arm head _ more => head :: more.skeleton

/-- Whether the arms of a `try` are handlers: any number of `catch`, then perhaps one
`catch_all`. -/
def areHandlers : List Op → Bool
  | [.close] | [.catchAll, .close] => true
  | .catchTag _ :: rest => areHandlers rest
  | _ => false

/-- Whether a region of the given kind may have arms of the given form. -/
def RegionKind.admits : RegionKind → List Op → Bool
  | .block, heads | .loop, heads => heads = [.close]
  | .ifThen, heads => heads = [.close] || heads = [.elseArm, .close]
  | .tryCatch, [.delegate _] => true
  | .tryCatch, heads => areHandlers heads

mutual

/-- Whether the operations of a sequence are plain and its regions have the arms that their
kinds admit. -/
def Code.WellFormed : Code → Prop
  | .done => True
  | .op o rest => o.isPlain ∧ rest.WellFormed
  | .region kind _ body arms rest =>
    kind.admits arms.skeleton ∧ body.WellFormed ∧ arms.WellFormed ∧ rest.WellFormed

/-- The same for the arms of a region: what begins an arm is an operation that may, and the code in
it is well formed. -/
def Arms.WellFormed : Arms → Prop
  | .close => True
  | .delegate _ => True
  | .arm head body more => head.startsArm ∧ body.WellFormed ∧ more.WellFormed

end

/-! ## 3. Appending

Sequences of operations are put together with the empty code and with each other; regions come along
as they are. -/

/-- A code followed by another, at the outermost level. Regions are closed in either, so none
reaches across the seam. -/
def Code.append : Code → Code → Code
  | .done, c => c
  | .op o rest, c => .op o (rest.append c)
  | .region kind result body arms rest, c => .region kind result body arms (rest.append c)

@[simp] theorem Code.append_done : ∀ c : Code, c.append .done = c
  | .done => rfl
  | .op o rest => by rw [append, append_done rest]
  | .region kind result body arms rest => by rw [append, append_done rest]

@[simp] theorem Code.ops_append : ∀ a b : Code, (a.append b).ops = a.ops ++ b.ops
  | .done, _ => rfl
  | .op o rest, b => by rw [append, ops, ops, ops_append rest b, List.cons_append]
  | .region kind result body arms rest, b => by
    rw [append, ops, ops, ops_append rest b]
    simp only [List.cons_append, List.append_assoc]

theorem Code.WellFormed.append : ∀ {a b : Code}, a.WellFormed → b.WellFormed →
    (a.append b).WellFormed
  | .done, _, _, hb => hb
  | .op o rest, _, ha, hb => by
    rw [Code.WellFormed] at ha
    rw [Code.append, Code.WellFormed]
    exact ⟨ha.1, ha.2.append hb⟩
  | .region kind result body arms rest, _, ha, hb => by
    rw [Code.WellFormed] at ha
    rw [Code.append, Code.WellFormed]
    exact ⟨ha.1, ha.2.1, ha.2.2.1, ha.2.2.2.append hb⟩

/-- The code of some plain operations, which has no regions. -/
def Code.ofOps : List Op → Code
  | [] => .done
  | o :: rest => .op o (ofOps rest)

@[simp] theorem Code.ops_ofOps : ∀ ops : List Op, (ofOps ops).ops = ops
  | [] => rfl
  | o :: rest => by rw [ofOps, ops, ops_ofOps rest]

theorem Code.wellFormed_ofOps : ∀ {ops : List Op}, (∀ o ∈ ops, o.isPlain) → (ofOps ops).WellFormed
  | [], _ => trivial
  | o :: rest, h => by
    rw [ofOps, Code.WellFormed]
    exact ⟨h o List.mem_cons_self, wellFormed_ofOps fun x hx => h x (List.mem_cons_of_mem o hx)⟩

/-! ## 4. Reading

A closer starts a region whose opener has not been met yet.  An opener takes the code read so far as
the first part of the innermost such region.  A body parses if in the end none is waiting. -/

/-- What has been read of a body from its end: the code before the next opener, and for each
region that is closed but not yet opened its arms and the code behind it, innermost first. -/
structure Pending where
  code : Code
  outer : List (Arms × Code)

namespace Pending

/-- Nothing has been read: no operation, and no region open. -/
def start : Pending := ⟨.done, []⟩

/-- Reads one more operation in front. A closer starts a new region from its end; an opener finishes
the innermost one, if the arms read so far are such as it may have. -/
def read (s : Pending) (op : Op) : Option Pending :=
  match op with
  | .close => some ⟨.done, (.close, s.code) :: s.outer⟩
  | .delegate label => some ⟨.done, (.delegate label, s.code) :: s.outer⟩
  | .enter kind result =>
    match s.outer with
    | (arms, rest) :: outer =>
      if kind.admits arms.skeleton then some ⟨.region kind result s.code arms rest, outer⟩ else none
    | [] => none
  | op =>
    if op.startsArm then
      match s.outer with
      | (arms, rest) :: outer => some ⟨.done, (.arm op s.code arms, rest) :: outer⟩
      | [] => none
    else some ⟨.op op s.code, s.outer⟩

/-- Reads the given operations in front, the last one first, so that what has been read is always a
last part of the body. -/
def readAll (s : Pending) : List Op → Option Pending
  | [] => some s
  | op :: ops => (s.readAll ops).bind fun s => s.read op

/-- The operations that have been read, in order, with those of the regions that are still open. -/
def ops (s : Pending) : List Op := s.code.ops ++ s.outer.flatMap fun (a, c) => a.ops ++ c.ops

/-- Whether everything that has been read is well formed, in the innermost region and in all that
are still open around it. -/
def WellFormed (s : Pending) : Prop :=
  s.code.WellFormed ∧ ∀ x ∈ s.outer, x.1.WellFormed ∧ x.2.WellFormed

end Pending

/-- The structure of a body, if its regions are well nested and have admissible arms. -/
def Code.parse (ops : List Op) : Option Code :=
  match Pending.start.readAll ops with
  | some ⟨c, []⟩ => some c
  | _ => none

/-! ## 5. Reading and forgetting are inverse

What has been read is, operation by operation, what was given, and reading the operations of a code
gives the code.  The second needs that the arms of every region are admissible, which
`Code.WellFormed` says. -/

namespace Pending

theorem read_of_isPlain {op : Op} (h : op.isPlain) (s : Pending) :
    s.read op = some ⟨.op op s.code, s.outer⟩ := by
  cases op with
  | enter _ _ | elseArm | close | catchTag _ | catchAll | delegate _ => cases h
  | _ => rfl

theorem read_of_startsArm {op : Op} (h : op.startsArm) (c : Code) (a : Arms) (r : Code)
    (outer : List (Arms × Code)) :
    read ⟨c, (a, r) :: outer⟩ op = some ⟨.done, (.arm op c a, r) :: outer⟩ := by
  cases op with
  | elseArm | catchTag _ | catchAll => rfl
  | _ => cases h

theorem readAll_append (s : Pending) : ∀ a b : List Op,
    s.readAll (a ++ b) = (s.readAll b).bind fun s => s.readAll a
  | [], b => by
    cases h : s.readAll b <;> simp [h, readAll]
  | o :: a, b => by
    rw [List.cons_append, readAll, readAll_append s a b]
    cases s.readAll b <;> rfl

/-- What a successful reading says about the operation and the states around it. -/
theorem read_cases {s t : Pending} {op : Op} (h : s.read op = some t) :
    (op.isPlain ∧ t = ⟨.op op s.code, s.outer⟩) ∨
    (op = .close ∧ t = ⟨.done, (.close, s.code) :: s.outer⟩) ∨
    (∃ label, op = .delegate label ∧ t = ⟨.done, (.delegate label, s.code) :: s.outer⟩) ∨
    (∃ kind result arms rest outer, op = .enter kind result ∧ s.outer = (arms, rest) :: outer ∧
      kind.admits arms.skeleton ∧ t = ⟨.region kind result s.code arms rest, outer⟩) ∨
    (op.startsArm ∧ ∃ arms rest outer, s.outer = (arms, rest) :: outer ∧
      t = ⟨.done, (.arm op s.code arms, rest) :: outer⟩) := by
  obtain ⟨c, outer⟩ := s
  by_cases hp : op.isPlain
  · rw [read_of_isPlain hp] at h
    exact .inl ⟨hp, (Option.some.inj h).symm⟩
  by_cases ha : op.startsArm
  · rcases outer with _ | ⟨⟨arms, rest⟩, outer⟩
    · cases op <;> simp [read, Op.startsArm] at h ha
    · rw [read_of_startsArm ha] at h
      exact .inr (.inr (.inr (.inr ⟨ha, arms, rest, outer, rfl, (Option.some.inj h).symm⟩)))
  cases op with
  | close => exact .inr (.inl ⟨rfl, (Option.some.inj h).symm⟩)
  | delegate label => exact .inr (.inr (.inl ⟨label, rfl, (Option.some.inj h).symm⟩))
  | enter kind result =>
    rcases outer with _ | ⟨⟨arms, rest⟩, outer⟩
    · simp [read] at h
    · simp only [read] at h
      split at h
      · rename_i hk
        exact .inr (.inr (.inr (.inl
          ⟨kind, result, arms, rest, outer, rfl, rfl, hk, (Option.some.inj h).symm⟩)))
      · simp at h
  | elseArm | catchTag _ | catchAll => exact absurd rfl ha
  | _ => exact absurd rfl hp

/-- Reading puts the operation in front of those that were read before. -/
theorem ops_read {s t : Pending} {op : Op} (h : s.read op = some t) : t.ops = op :: s.ops := by
  rcases read_cases h with ⟨-, rfl⟩ | ⟨rfl, rfl⟩ | ⟨label, rfl, rfl⟩ |
    ⟨kind, result, arms, rest, outer, rfl, ho, -, rfl⟩ | ⟨-, arms, rest, outer, ho, rfl⟩
  · simp [ops, Code.ops]
  · simp [ops, Code.ops, Arms.ops]
  · simp [ops, Code.ops, Arms.ops]
  · simp [ops, Code.ops, ho]
  · simp [ops, Code.ops, Arms.ops, ho]

theorem ops_readAll {s t : Pending} : ∀ {ops : List Op}, s.readAll ops = some t →
    t.ops = ops ++ s.ops
  | [], h => by
    obtain rfl := Option.some.inj h
    rfl
  | o :: rest, h => by
    obtain ⟨u, hu, h⟩ := Option.bind_eq_some_iff.mp h
    rw [ops_read h, ops_readAll hu, List.cons_append]

theorem WellFormed.read {s t : Pending} {op : Op} (hs : s.WellFormed) (h : s.read op = some t) :
    t.WellFormed := by
  obtain ⟨hc, ho⟩ := hs
  rcases read_cases h with ⟨hp, rfl⟩ | ⟨rfl, rfl⟩ | ⟨label, rfl, rfl⟩ |
    ⟨kind, result, arms, rest, outer, rfl, e, hk, rfl⟩ | ⟨ha, arms, rest, outer, e, rfl⟩
  · exact ⟨by rw [Code.WellFormed]; exact ⟨hp, hc⟩, ho⟩
  · refine ⟨trivial, fun x hx => ?_⟩
    rcases List.mem_cons.mp hx with rfl | hx
    · exact ⟨trivial, hc⟩
    · exact ho x hx
  · refine ⟨trivial, fun x hx => ?_⟩
    rcases List.mem_cons.mp hx with rfl | hx
    · exact ⟨trivial, hc⟩
    · exact ho x hx
  · rw [e] at ho
    have hh := ho (arms, rest) List.mem_cons_self
    refine ⟨?_, fun x hx => ho x (List.mem_cons_of_mem _ hx)⟩
    rw [Code.WellFormed]
    exact ⟨hk, hc, hh.1, hh.2⟩
  · rw [e] at ho
    have hh := ho (arms, rest) List.mem_cons_self
    refine ⟨trivial, fun x hx => ?_⟩
    rcases List.mem_cons.mp hx with rfl | hx
    · exact ⟨by rw [Arms.WellFormed]; exact ⟨ha, hc, hh.1⟩, hh.2⟩
    · exact ho x (List.mem_cons_of_mem _ hx)

theorem WellFormed.readAll {s t : Pending} (hs : s.WellFormed) : ∀ {ops : List Op},
    s.readAll ops = some t → t.WellFormed
  | [], h => by
    obtain rfl := Option.some.inj h
    exact hs
  | o :: rest, h => by
    obtain ⟨u, hu, h⟩ := Option.bind_eq_some_iff.mp h
    exact (hs.readAll hu).read h

theorem wellFormed_start : start.WellFormed := ⟨trivial, by simp [start]⟩

end Pending

mutual

/-- Reading the operations of a code puts the code in front. -/
theorem Code.readAll_ops : ∀ {c : Code}, c.WellFormed → ∀ (d : Code) (outer : List (Arms × Code)),
    Pending.readAll ⟨d, outer⟩ c.ops = some ⟨c.append d, outer⟩
  | .done, _, _, _ => rfl
  | .op o rest, h, d, outer => by
    rw [Code.WellFormed] at h
    rw [Code.ops, Pending.readAll, Code.readAll_ops h.2 d outer, Option.bind_some,
      Pending.read_of_isPlain h.1, Code.append]
  | .region kind result body arms rest, h, d, outer => by
    rw [Code.WellFormed] at h
    rw [Code.ops, Pending.readAll, Pending.readAll_append, Pending.readAll_append,
      Code.readAll_ops h.2.2.2 d outer, Option.bind_some,
      Arms.readAll_ops h.2.2.1 (rest.append d) outer, Option.bind_some,
      Code.readAll_ops h.2.1, Option.bind_some, Code.append_done]
    simp only [Pending.read, if_pos h.1, Code.append]

/-- Reading the operations of the arms of a region opens a place for its first part. -/
theorem Arms.readAll_ops : ∀ {a : Arms}, a.WellFormed → ∀ (d : Code) (outer : List (Arms × Code)),
    Pending.readAll ⟨d, outer⟩ a.ops = some ⟨.done, (a, d) :: outer⟩
  | .close, _, _, _ => rfl
  | .delegate _, _, _, _ => rfl
  | .arm head body more, h, d, outer => by
    rw [Arms.WellFormed] at h
    rw [Arms.ops, Pending.readAll, Pending.readAll_append, Arms.readAll_ops h.2.2 d outer,
      Option.bind_some, Code.readAll_ops h.2.1, Option.bind_some, Code.append_done,
      Pending.read_of_startsArm h.1]

end

namespace Code

theorem parse_eq_some {ops : List Op} {c : Code} :
    parse ops = some c ↔ Pending.start.readAll ops = some ⟨c, []⟩ := by
  unfold parse
  split
  · rename_i d h
    rw [h]
    simp
  · rename_i h
    simp only [reduceCtorEq, false_iff]
    exact fun e => h c e

/-- **What is parsed is the body.**  The structure that is found has exactly the operations of
the body, and is well formed. -/
theorem ops_of_parse {ops : List Op} {c : Code} (h : parse ops = some c) :
    c.ops = ops ∧ c.WellFormed := by
  rw [parse_eq_some] at h
  have e := Pending.ops_readAll h
  simp only [Pending.ops, Pending.start, List.flatMap_nil, List.append_nil] at e
  rw [Code.ops, List.append_nil] at e
  exact ⟨e, (Pending.wellFormed_start.readAll h).1⟩

/-- **Every well-formed code is parsed**, and from its operations alone: the structure can be
forgotten and found again. -/
theorem parse_ops {c : Code} (h : c.WellFormed) : parse c.ops = some c := by
  rw [parse_eq_some, Pending.start, readAll_ops h, append_done]

end Code

/-! ## 6. Relations kept by every constructor

The relation may depend on the regions around, since most of what passes do does. -/

namespace Nesting

/-- The regions open after some more operations, taken one after the other (`observe`). -/
def observeAll (n : Nesting) : List Op → Nesting
  | [] => n
  | op :: ops => (n.observe op).observeAll ops

theorem observeAll_append (n : Nesting) : ∀ a b : List Op,
    n.observeAll (a ++ b) = (n.observeAll a).observeAll b
  | [], _ => rfl
  | o :: a, b => by rw [List.cons_append, observeAll, observeAll, observeAll_append]

end Nesting

/-- A relation between codes, and one between arms, under the regions around them.  Both are
kept by every constructor whose operation is allowed. -/
structure Congruence (allowed : Op → Prop) (R : Nesting → Code → Code → Prop)
    (A : Nesting → Arms → Arms → Prop) : Prop where
  done : ∀ n, R n .done .done
  region : ∀ {n kind result body body' arms arms' rest rest'}, allowed (.enter kind result) →
    kind.admits arms.skeleton → arms'.skeleton = arms.skeleton →
    R (⟨kind, result⟩ :: n) body body' → A (⟨kind, result⟩ :: n) arms arms' → R n rest rest' →
    R n (.region kind result body arms rest) (.region kind result body' arms' rest')
  close : ∀ n, A n .close .close
  delegate : ∀ {n label}, allowed (.delegate label) → A n (.delegate label) (.delegate label)
  arm : ∀ {n head body body' more more'}, allowed head → R n body body' → A n more more' →
    A n (.arm head body more) (.arm head body' more')

namespace Congruence

variable {allowed : Op → Prop} {R : Nesting → Code → Code → Prop}
  {A : Nesting → Arms → Arms → Prop}

/-- The regions that wait for their openers are related, each under what is around it. -/
def Outer (R : Nesting → Code → Code → Prop) (A : Nesting → Arms → Arms → Prop) :
    Nesting → List (Arms × Code) → List (Arms × Code) → Prop
  | _, [], [] => True
  | n, (a, c) :: outer, (a', c') :: outer' =>
    a'.skeleton = a.skeleton ∧ A n a a' ∧ R n.tail c c' ∧ Outer R A n.tail outer outer'
  | _, _, _ => False

/-- Everything that has been read is related, under the regions still open. -/
def States (R : Nesting → Code → Code → Prop) (A : Nesting → Arms → Arms → Prop) (n : Nesting)
    (s s' : Pending) : Prop :=
  R n s.code s'.code ∧ Outer R A n s.outer s'.outer

theorem Outer.cases {n : Nesting} {a : Arms} {c : Code} {outer outer' : List (Arms × Code)}
    (h : Outer R A n ((a, c) :: outer) outer') :
    ∃ a' c' rest, outer' = (a', c') :: rest ∧ a'.skeleton = a.skeleton ∧ A n a a' ∧
      R n.tail c c' ∧ Outer R A n.tail outer rest := by
  rcases outer' with _ | ⟨⟨a', c'⟩, rest⟩
  · exact h.elim
  · exact ⟨a', c', rest, rfl, h⟩

theorem states_start (H : Congruence allowed R A) (n : Nesting) :
    States R A n Pending.start Pending.start := ⟨H.done n, trivial⟩

/-- A structural operation keeps the relation between what has been read. -/
theorem read_structural (H : Congruence allowed R A) {n : Nesting} {s s' t : Pending} {op : Op}
    (hp : ¬ op.isPlain) (ha : allowed op) (hs : States R A (n.observe op) s s')
    (h : s.read op = some t) : ∃ t', s'.read op = some t' ∧ States R A n t t' := by
  obtain ⟨hc, ho⟩ := hs
  rcases Pending.read_cases h with ⟨hp', -⟩ | ⟨rfl, rfl⟩ | ⟨label, rfl, rfl⟩ |
    ⟨kind, result, arms, rest, outer, rfl, e, hk, rfl⟩ | ⟨hs, arms, rest, outer, e, rfl⟩
  · exact absurd hp' hp
  · exact ⟨_, rfl, H.done n, rfl, H.close n, hc, ho⟩
  · exact ⟨_, rfl, H.done n, rfl, H.delegate ha, hc, ho⟩
  · rw [e] at ho
    obtain ⟨arms', rest', outer', e', hsk, hA, hR, ho⟩ := ho.cases
    refine ⟨⟨.region kind result s'.code arms' rest', outer'⟩, ?_, ?_, ho⟩
    · simp only [Pending.read, e', hsk, if_pos hk]
    · exact H.region ha hk hsk hc hA hR
  · have hn : n.observe op = n := Nesting.observe_of_startsArm hs n
    rw [hn] at hc ho
    rw [e] at ho
    obtain ⟨arms', rest', outer', e', hsk, hA, hR, ho⟩ := ho.cases
    refine ⟨⟨.done, (.arm op s'.code arms', rest') :: outer'⟩, ?_, H.done n, ?_, ?_, hR, ho⟩
    · obtain ⟨c', o'⟩ := s'
      obtain rfl : o' = (arms', rest') :: outer' := e'
      exact Pending.read_of_startsArm hs c' arms' rest' outer'
    · simp only [Arms.skeleton, hsk]
    · exact H.arm ha hc hA

/-- The operations that stand for each operation of a body: plain ones are replaced by a code
that may depend on the regions around them, the others stay. -/
def substitute (σ : Nesting → Op → Code) (n : Nesting) : List Op → List Op
  | [] => []
  | op :: ops =>
    (if op.isPlain then (σ n op).ops else [op]) ++ substitute σ (n.observe op) ops

/-- **Replacing plain operations.**  If the code for each plain operation of a list is related
to it, whatever follows, then reading the list and reading its replacement give related
results. -/
theorem read_substitute (H : Congruence allowed R A) {σ : Nesting → Op → Code}
    {s s' t : Pending} : ∀ {ops : List Op} {n : Nesting},
    (∀ op ∈ ops, ¬ op.isPlain → allowed op) →
    (∀ op ∈ ops, op.isPlain → ∀ n : Nesting, (σ n op).WellFormed) →
    (∀ before op after, ops = before ++ op :: after → op.isPlain →
      ∀ c c', R (n.observeAll before) c c' →
        R (n.observeAll before) (.op op c) ((σ (n.observeAll before) op).append c')) →
    States R A (n.observeAll ops) s s' → s.readAll ops = some t →
    ∃ t', s'.readAll (substitute σ n ops) = some t' ∧ States R A n t t'
  | [], n, _, _, _, hs, h => by
    obtain rfl := Option.some.inj h
    exact ⟨s', rfl, hs⟩
  | op :: ops, n, hallowed, hwf, hplain, hs, h => by
    obtain ⟨u, hu, h⟩ := Option.bind_eq_some_iff.mp h
    obtain ⟨u', hu', hs'⟩ := read_substitute H (σ := σ) (n := n.observe op)
      (fun o ho => hallowed o (List.mem_cons_of_mem _ ho))
      (fun o ho => hwf o (List.mem_cons_of_mem _ ho))
      (fun before o after e => hplain (op :: before) o after (by rw [e, List.cons_append]))
      hs hu
    rw [substitute, Pending.readAll_append, hu', Option.bind_some]
    by_cases hp : op.isPlain
    · rw [if_pos hp]
      rw [Nesting.observe_of_isPlain hp] at hs'
      rw [Pending.read_of_isPlain hp] at h
      obtain rfl := Option.some.inj h
      refine ⟨_, Code.readAll_ops (hwf op List.mem_cons_self hp n) u'.code u'.outer, ?_, hs'.2⟩
      exact hplain [] op ops rfl hp _ _ hs'.1
    · rw [if_neg hp]
      obtain ⟨t', ht', hst⟩ := H.read_structural hp (hallowed op List.mem_cons_self hp) hs' h
      exact ⟨t', by simpa [Pending.readAll] using ht', hst⟩

/-- The replacement that leaves every operation as it is gives back the list it was applied to,
however the regions lie. -/
theorem substitute_op : ∀ (n : Nesting) (ops : List Op),
    substitute (fun _ op => .op op .done) n ops = ops
  | _, [] => rfl
  | n, op :: ops => by
    rw [substitute, substitute_op]
    split <;> rfl

/-- **Reading the same operations** keeps the relation between what has been read. So two bodies
that differ in a last part only are related as soon as their last parts are. -/
theorem readAll (H : Congruence allowed R A) {s s' t : Pending} {ops : List Op} {n : Nesting}
    (hallowed : ∀ op ∈ ops, ¬ op.isPlain → allowed op)
    (hplain : ∀ op ∈ ops, op.isPlain → ∀ n c c', R n c c' → R n (.op op c) (.op op c'))
    (hs : States R A (n.observeAll ops) s s') (h : s.readAll ops = some t) :
    ∃ t', s'.readAll ops = some t' ∧ States R A n t t' := by
  obtain ⟨t', ht', hst⟩ := H.read_substitute (σ := fun _ op => .op op .done) hallowed
    (fun op _ hp _ => ⟨hp, trivial⟩)
    (fun before op after e hp c c' hR =>
      hplain op (e ▸ List.mem_append_right _ List.mem_cons_self) hp _ c c' hR) hs h
  rw [substitute_op] at ht'
  exact ⟨t', ht', hst⟩

/-- **Replacing plain operations of a whole body**, each by a code that may depend on the regions
around it. If the code is related to the operation wherever the operation stands, the body as a
whole is related to what comes of it. -/
theorem parse_substitute (H : Congruence allowed R A) {σ : Nesting → Op → Code} {ops : List Op}
    {c : Code} (hallowed : ∀ op ∈ ops, ¬ op.isPlain → allowed op)
    (hwf : ∀ op ∈ ops, op.isPlain → ∀ n : Nesting, (σ n op).WellFormed)
    (hplain : ∀ before op after, ops = before ++ op :: after → op.isPlain →
      ∀ c c', R (Nesting.observeAll [] before) c c' →
        R (Nesting.observeAll [] before) (.op op c)
          ((σ (Nesting.observeAll [] before) op).append c'))
    (h : Code.parse ops = some c) :
    ∃ c', Code.parse (substitute σ [] ops) = some c' ∧ R [] c c' := by
  rw [Code.parse_eq_some] at h
  obtain ⟨⟨c', outer'⟩, ht', hR, ho⟩ := H.read_substitute (n := []) hallowed hwf hplain
    (H.states_start _) h
  rcases outer' with _ | ⟨x, outer'⟩
  · exact ⟨c', Code.parse_eq_some.mpr ht', hR⟩
  · exact ho.elim

/-- **Replacing one piece of a body.**  If a piece and its replacement are related, whatever
follows, and no other operation stands in the way, the whole bodies are related. -/
theorem parse_window (H : Congruence allowed R A) {before after : List Op} {w w' c : Code}
    (hw : w.WellFormed) (hw' : w'.WellFormed)
    (hallowed : ∀ op ∈ before ++ after, ¬ op.isPlain → allowed op)
    (hplain : ∀ op ∈ before ++ after, op.isPlain →
      ∀ n c c', R n c c' → R n (.op op c) (.op op c'))
    (hwindow : ∀ c c', R (Nesting.observeAll [] before) c c' →
      R (Nesting.observeAll [] before) (w.append c) (w'.append c'))
    (h : Code.parse (before ++ (w.ops ++ after)) = some c) :
    ∃ c', Code.parse (before ++ (w'.ops ++ after)) = some c' ∧ R [] c c' := by
  rw [Code.parse_eq_some, Pending.readAll_append, Pending.readAll_append] at h
  obtain ⟨t, ht, h⟩ := Option.bind_eq_some_iff.mp h
  obtain ⟨s, hs, ht⟩ := Option.bind_eq_some_iff.mp ht
  -- what follows the piece is read first, and related to itself
  obtain ⟨s', hs', hss⟩ := H.readAll (n := Nesting.observeAll [] before)
    (fun op ho => hallowed op (List.mem_append_right _ ho))
    (fun op ho => hplain op (List.mem_append_right _ ho)) (H.states_start _) hs
  obtain rfl := Option.some.inj (hs.symm.trans hs')
  rw [Code.readAll_ops hw] at ht
  obtain rfl := Option.some.inj ht
  have hwin : States R A (Nesting.observeAll [] before) ⟨w.append s.code, s.outer⟩
      ⟨w'.append s.code, s.outer⟩ := ⟨hwindow _ _ hss.1, hss.2⟩
  obtain ⟨⟨c', outer'⟩, hc', hR, ho⟩ := H.readAll
    (fun op ho => hallowed op (List.mem_append_left _ ho))
    (fun op ho => hplain op (List.mem_append_left _ ho)) hwin h
  rcases outer' with _ | ⟨x, outer'⟩
  · refine ⟨c', ?_, hR⟩
    rw [Code.parse_eq_some, Pending.readAll_append, Pending.readAll_append, hs', Option.bind_some,
      Code.readAll_ops hw', Option.bind_some, hc']
  · exact ho.elim

end Congruence

end WasmTrim
