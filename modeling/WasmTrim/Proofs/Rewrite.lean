/-
# What the passes on one function do to its operations

The peephole rules, constant folding and the removal of dead stores are all made of steps of one
kind: a piece of the body is replaced by another piece.  `Rewrite` lists these replacements,
with what each of them knows about the operations around it, and the passes are shown to make no
others (`Peephole.rewrites_of_reduceAt`, `Folding.foldFrom_induction`,
`DeadLocals.dropStores_induction`).  Whatever is shown of every rewrite is therefore true of
every pass.

The replacements that depend on markers are not listed: they never apply in a body that has
none.

A rewrite is a replacement of operations, not of instructions, and not at a position: what stands
before and after is part of the relation, so a rewrite can say that a local is read nowhere else
or that no handler is open.  A *step* (`Body.Step`) adds what is true with markers too, and needs no
structure: every instruction of the new body is made of parts that were in the old one, that is
its marker, its local and its callee.  From this alone follows that indices stay in range, that no
call is invented, and that an operation on memory comes from one that was there.

Each rule has a lemma of its own for either part, and the two theorems on all rules only put them
together; a change of one rule is felt in its two lemmas and nowhere else.
-/
import WasmTrim.DeadLocals
import WasmTrim.Folding
import WasmTrim.Peephole.Scan
import WasmTrim.Proofs.Semantics.Machine

namespace WasmTrim

/-! ## 1. Rewrites

One constructor for each thing that a rule, a fold or the removal of a store does to a piece of a
body, with the condition under which it is done. -/

/-- What a rewrite may know about the function around a body: numbers of results, and nothing about
types or about other bodies. -/
structure Surround where
  /-- The number of results of a callable. -/
  resultsOf : Nat → Option Nat
  /-- The number of results of the function. -/
  results : Nat

/-- A piece of a body between the given operations may be replaced by another piece. -/
inductive Rewrite (s : Surround) (before after : List Op) : List Op → List Op → Prop where
  | setGet (l : Nat) : Rewrite s before after [.localSet l, .localGet l] [.localTee l]
  | getDrop (l : Nat) : Rewrite s before after [.localGet l, .drop] []
  | globalDrop (g : Nat) : Rewrite s before after [.globalGet g, .drop] []
  | teeDrop (l : Nat) : Rewrite s before after [.localTee l, .drop] [.localSet l]
  | constDrop (v : Value) : Rewrite s before after [.const v, .drop] []
  | eqz32 : Rewrite s before after [.const (.i32 0), .num .i32Eq] [.num .i32Eqz]
  | eqz64 : Rewrite s before after [.const (.i64 0), .num .i64Eq] [.num .i64Eqz]
  | extendWrap {op : NumOp} (h : op = .i64ExtendI32S ∨ op = .i64ExtendI32U) :
    Rewrite s before after [.num op, .num .i32WrapI64] []
  | convertTrunc {trunc convert : NumOp} (h : Peephole.undoes trunc convert) :
    Rewrite s before after [.num convert, .num trunc] []
  | foldTrunc {op : NumOp} {x : F64} {v : Value} (h : op.truncate? x = some v) :
    Rewrite s before after [.const (.f64 x), .num op] [.const v]
  | foldConvert {op : NumOp} {v : Value} {x : F64} (h : op.convert? v = some x) :
    Rewrite s before after [.const v, .num op] [.const (.f64 x)]
  | foldArith {op : NumOp} {a b v : Value} (h : op.evaluate? a b = some v) :
    Rewrite s before after [.const a, .const b, .num op] [.const v]
  | tailCall {t : Nat} (hout : (Nesting.observeAll [] before).insideTry = false)
    (hresults : s.resultsOf t = some s.results) :
    Rewrite s before after [.call t, .ret] [.returnCall t]
  | increment (l : Nat) (v : Value) {op : NumOp} (h : op.isIncrement) :
    Rewrite s before after
      [.localGet l, .localGet l, .const v, .num op, .localSet l, .drop]
      [.localGet l, .const v, .num op, .localSet l]
  | incrementBranch (l : Nat) (v : Value) {op : NumOp} {label : Nat} (h : op.isIncrement)
    (harity : (Nesting.observeAll [] before).labelArity label s.results = 0) :
    Rewrite s before after
      [.localGet l, .localGet l, .const v, .num op, .localSet l, .br label]
      [.localGet l, .const v, .num op, .localSet l, .br label]
  | shuffle {x y : Nat} (h : x ≠ y) (hx : .localGet x ∉ before ++ after)
    (hy : .localGet y ∉ before ++ after) :
    Rewrite s before after [.localSet x, .localTee y, .localGet x] []
  | deadSet {l : Nat} (h : .localGet l ∉ before ++ after) :
    Rewrite s before after [.localSet l] [.drop]
  | deadTee {l : Nat} (h : .localGet l ∉ before ++ after) :
    Rewrite s before after [.localTee l] []
  | block (result : ResultType) {c : Code} (hc : c.WellFormed)
    (h : ∀ o ∈ c.ops, o.referencesLabel = false) :
    Rewrite s before after (.enter .block result :: (c.ops ++ [.close])) c.ops

/-- One list of operations becomes another by one rewrite: a piece of it is replaced, and the rest
stays as it is. -/
def RewritesTo (s : Surround) (ops ops' : List Op) : Prop :=
  ∃ before after w w', ops = before ++ (w ++ after) ∧ ops' = before ++ (w' ++ after) ∧
    Rewrite s before after w w'

namespace Body

@[simp] theorem ops_nil : ops [] = [] := rfl

@[simp] theorem ops_cons (i : Instr) (body : Body) : ops (i :: body) = i.op :: body.ops := rfl

@[simp] theorem ops_append (a b : Body) : ops (a ++ b) = a.ops ++ b.ops := List.map_append

/-- No instruction carries a marker, so that the rules for a dispatch over runtime types have
nothing to go by. -/
def MarkerFree (body : Body) : Prop := ∀ i ∈ body, i.marker = none

theorem mem_ops {body : Body} {o : Op} : o ∈ body.ops ↔ ∃ i ∈ body, i.op = o := List.mem_map

/-- A local without readings is not read by any operation of the body, neither outside of regions
nor inside. -/
theorem notMem_of_reads {body : Body} {l : Nat} (h : body.reads l = 0) :
    .localGet l ∉ body.ops := by
  intro hm
  obtain ⟨i, hi, e⟩ := mem_ops.mp hm
  exact (List.countP_eq_zero.mp h) i hi (decide_eq_true e)

end Body

/-! ## 2. Steps

A step is a rewrite of the body, together with where the instructions of the new body come from.
The first matters for what the body does, the second for what it names. -/

/-- Operations that no rule makes up: they use memory, or list labels. If one of them is in a body
after a rule, it was there before. -/
def Op.isRigid : Op → Bool
  | .brTable _ _ => true
  | o => o.touchesMemory

/-- Where the parts of an instruction come from: its marker, its local, its callee, and the whole
operation if it is rigid. -/
structure Body.Provides (b : Body) (i : Instr) : Prop where
  marker : i.marker = none ∨ ∃ j ∈ b, j.marker = i.marker
  locals : ∀ l, i.op.localIndex? = some l → ∃ j ∈ b, j.op.localIndex? = some l
  calls : ∀ t, i.op.callTarget? = some t → ∃ j ∈ b, j.op.callTarget? = some t
  rigid : i.op.isRigid → ∃ j ∈ b, j.op = i.op

namespace Body.Provides

variable {b b' : Body} {i j : Instr}

theorem of_mem (h : i ∈ b) : b.Provides i :=
  ⟨.inr ⟨i, h, rfl⟩, fun _ e => ⟨i, h, e⟩, fun _ e => ⟨i, h, e⟩, fun _ => ⟨i, h, rfl⟩⟩

theorem mono (h : b.Provides i) (hb : ∀ j ∈ b, j ∈ b') : b'.Provides i where
  marker := h.marker.imp_right fun ⟨j, hj, e⟩ => ⟨j, hb j hj, e⟩
  locals l e := let ⟨j, hj, e⟩ := h.locals l e; ⟨j, hb j hj, e⟩
  calls t e := let ⟨j, hj, e⟩ := h.calls t e; ⟨j, hb j hj, e⟩
  rigid e := let ⟨j, hj, e⟩ := h.rigid e; ⟨j, hb j hj, e⟩

/-- An instruction with the marker and the indices of another one. -/
theorem like (hj : j ∈ b) (hm : j.marker = i.marker) (hl : j.op.localIndex? = i.op.localIndex?)
    (hc : j.op.callTarget? = i.op.callTarget?) (hr : i.op.isRigid = false) : b.Provides i where
  marker := .inr ⟨j, hj, hm⟩
  locals l e := ⟨j, hj, hl.trans e⟩
  calls t e := ⟨j, hj, hc.trans e⟩
  rigid e := absurd e (by simp [hr])

/-- A new instruction without indices needs nothing to be provided: no local, no callable and no
label. -/
theorem fresh {o : Op} (hl : o.localIndex? = none) (hc : o.callTarget? = none)
    (hr : o.isRigid = false) : b.Provides o.plain where
  marker := .inl rfl
  locals l e := absurd e (by simp [hl])
  calls t e := absurd e (by simp [hc])
  rigid e := absurd e (by simp [hr])

end Body.Provides

/-- One step of a pass: every instruction is made of parts that were there, and without markers
it is a rewrite, if the body can be parsed. -/
structure Body.Step (s : Surround) (b b' : Body) : Prop where
  rewrites : b.MarkerFree → ∀ c, Code.parse b.ops = some c → RewritesTo s b.ops b'.ops
  provides : ∀ i ∈ b', b.Provides i

theorem Body.Step.markerFree {s : Surround} {b b' : Body} (h : b.Step s b') (hb : b.MarkerFree) :
    b'.MarkerFree := by
  intro i hi
  rcases (h.provides i hi).marker with e | ⟨j, hj, e⟩
  · exact e
  · rw [← e]
    exact hb j hj

/-! ## 3. Balanced pieces

The rule that opens up a block finds its end by counting.  In a body that parses, the piece in
between is a code, and the block is the region that the parse has found. -/

namespace Nesting

theorem ofReversed_eq_observeAll : ∀ (seen : Body) (n : Nesting),
    seen.foldr (fun i n => n.observe i.op) n = n.observeAll (Body.ops seen.reverse)
  | [], _ => rfl
  | i :: seen, n => by
    rw [List.foldr_cons, ofReversed_eq_observeAll seen n, List.reverse_cons, Body.ops_append,
      observeAll_append]
    rfl

/-- The open regions after a prefix, read from its end or from its start. -/
theorem ofReversed_eq_observe (seen : Body) :
    ofReversed seen = observeAll [] (Body.ops seen.reverse) := ofReversed_eq_observeAll seen []

end Nesting

/-- The number of open regions after some operations, as long as it does not fall to zero. -/
def depthFrom : Nat → List Op → Option Nat
  | n, [] => some n
  | n, o :: ops =>
    if o.opensRegion then depthFrom (n + 1) ops
    else if o.closesRegion then
      match n with
      | n + 2 => depthFrom (n + 1) ops
      | _ => none
    else depthFrom n ops

/-- Up to the end of a region its inside is balanced, and a closer follows. -/
theorem depthFrom_of_closeOffset : ∀ {body : Body} {n k : Nat}, 0 < n →
    Body.closeOffset n body = some k →
      depthFrom n (Body.ops (body.take k)) = some 1 ∧
        ∃ last after, body.drop k = last :: after ∧ last.op.closesRegion
  | [], n, k, _, h => by simp [Body.closeOffset] at h
  | i :: rest, n, k, hn, h => by
    simp only [Body.closeOffset] at h
    split at h
    · rename_i ho
      obtain ⟨j, hj, rfl⟩ := Option.map_eq_some_iff.mp h
      obtain ⟨hd, hl⟩ := depthFrom_of_closeOffset (Nat.succ_pos n) hj
      exact ⟨by simpa [depthFrom, ho] using hd, by simpa using hl⟩
    · rename_i ho
      split at h
      · rename_i hc
        split at h
        · simp at h
        · obtain rfl := Option.some.inj h
          exact ⟨rfl, i, rest, rfl, hc⟩
        · rename_i m
          obtain ⟨j, hj, rfl⟩ := Option.map_eq_some_iff.mp h
          obtain ⟨hd, hl⟩ := depthFrom_of_closeOffset (Nat.succ_pos m) hj
          exact ⟨by simpa [depthFrom, ho, hc] using hd, by simpa using hl⟩
      · rename_i hc
        obtain ⟨j, hj, rfl⟩ := Option.map_eq_some_iff.mp h
        obtain ⟨hd, hl⟩ := depthFrom_of_closeOffset hn hj
        exact ⟨by simpa [depthFrom, ho, hc] using hd, by simpa using hl⟩

/-- Reading a balanced piece leaves the regions around it waiting; only the arms of the innermost
of them may have grown. -/
theorem Pending.outer_of_depthFrom {r : Code} {base : List (Arms × Code)} {s : Pending}
    {arms : Arms} (hs : s.outer = (arms, r) :: base) :
    ∀ {ops : List Op} {n : Nat} {t : Pending}, 0 < n → depthFrom n ops = some 1 →
      s.readAll ops = some t →
        ∃ inner arms', t.outer = inner ++ (arms', r) :: base ∧ inner.length + 1 = n
  | [], n, t, hn, hd, h => by
    obtain rfl := Option.some.inj h
    obtain rfl := Option.some.inj hd
    exact ⟨[], arms, hs, rfl⟩
  | o :: ops, n, t, hn, hd, h => by
    obtain ⟨u, hu, h⟩ := Option.bind_eq_some_iff.mp h
    rcases read_cases h with ⟨hp, rfl⟩ | ⟨rfl, rfl⟩ | ⟨label, rfl, rfl⟩ |
      ⟨kind, result, arms₁, rest, outer, rfl, ho, -, rfl⟩ | ⟨ha, arms₁, rest, outer, ho, rfl⟩
    · have hd' : depthFrom n ops = some 1 := by
        cases o with
        | enter _ _ | close | delegate _ => cases hp
        | _ => exact hd
      obtain ⟨inner, arms', e, hl⟩ := outer_of_depthFrom hs hn hd' hu
      exact ⟨inner, arms', e, hl⟩
    · rcases n with _ | _ | n
      · cases hd
      · cases hd
      · obtain ⟨inner, arms', e, hl⟩ := outer_of_depthFrom hs (Nat.succ_pos n) hd hu
        exact ⟨(.close, u.code) :: inner, arms', by simp [e], by simp [hl]⟩
    · rcases n with _ | _ | n
      · cases hd
      · cases hd
      · obtain ⟨inner, arms', e, hl⟩ := outer_of_depthFrom hs (Nat.succ_pos n) hd hu
        exact ⟨(.delegate label, u.code) :: inner, arms', by simp [e], by simp [hl]⟩
    · obtain ⟨inner, arms', e, hl⟩ := outer_of_depthFrom hs (Nat.succ_pos n) hd hu
      cases inner with
      | cons x inner =>
        rw [e] at ho
        exact ⟨inner, arms', (List.cons.inj ho).2.symm, by simpa using hl⟩
      | nil =>
        rw [List.length_nil] at hl
        omega
    · have hd' : depthFrom n ops = some 1 := by
        cases o with
        | enter _ _ | close | delegate _ => cases ha
        | _ => exact hd
      obtain ⟨inner, arms', e, hl⟩ := outer_of_depthFrom hs hn hd' hu
      rw [e] at ho
      cases inner with
      | nil =>
        obtain ⟨he, rfl⟩ := List.cons.inj ho
        obtain ⟨rfl, rfl⟩ := Prod.mk.inj he
        exact ⟨[], .arm o u.code arms', rfl, hl⟩
      | cons x inner =>
        obtain ⟨he, rfl⟩ := List.cons.inj ho
        exact ⟨(.arm o u.code arms₁, rest) :: inner, arms', rfl, by simpa using hl⟩

/-- **The inside of a block is a code of its own**, if the block is part of a body that can be
parsed; and it is closed by an `end`. -/
theorem Code.exists_inside_block {before inner after : List Op} {result : ResultType} {last : Op}
    {c : Code} (hd : depthFrom 1 inner = some 1) (hlast : last.closesRegion)
    (h : Code.parse (before ++ .enter .block result :: (inner ++ last :: after)) = some c) :
    last = .close ∧ ∃ d : Code, d.WellFormed ∧ d.ops = inner := by
  rw [Code.parse_eq_some, Pending.readAll_append, Pending.readAll, Pending.readAll_append,
    Pending.readAll] at h
  obtain ⟨t, ht, -⟩ := Option.bind_eq_some_iff.mp h
  obtain ⟨u, hu, ht⟩ := Option.bind_eq_some_iff.mp ht
  obtain ⟨v, hv, hu⟩ := Option.bind_eq_some_iff.mp hu
  obtain ⟨a, ha, hv⟩ := Option.bind_eq_some_iff.mp hv
  -- reading the closer opens a place, and reading the inside leaves it there
  obtain ⟨arms, hout⟩ : ∃ arms, v.outer = (arms, a.code) :: a.outer := by
    cases last with
    | close =>
      obtain rfl := Option.some.inj hv
      exact ⟨.close, rfl⟩
    | delegate label =>
      obtain rfl := Option.some.inj hv
      exact ⟨.delegate label, rfl⟩
    | _ => cases hlast
  obtain ⟨ds, arms', hu', hl⟩ := Pending.outer_of_depthFrom hout (by decide) hd hu
  obtain rfl : ds = [] := List.eq_nil_of_length_eq_zero (by omega)
  rw [List.nil_append] at hu'
  -- a block admits no arms, so none were read
  simp only [Pending.read, hu'] at ht
  split at ht
  · rename_i hk
    obtain rfl : arms' = .close := by
      cases arms' with
      | close => rfl
      | delegate label => simp [RegionKind.admits, Arms.skeleton] at hk
      | arm head body more =>
        have : more.skeleton = [] := by
          exact (List.cons.inj (of_decide_eq_true hk)).2
        cases more <;> simp [Arms.skeleton] at this
    have hops := Pending.ops_readAll hu
    rw [Pending.ops_read hv] at hops
    simp only [Pending.ops, hu', List.flatMap_cons, Arms.ops, List.cons_append, List.nil_append]
      at hops
    obtain ⟨hinner, htail⟩ := List.append_inj' hops (by simp)
    have hwf := (((Pending.wellFormed_start.readAll ha).read hv).readAll hu).1
    exact ⟨(List.cons.inj htail).1.symm, u.code, hwf, hinner⟩
  · simp at ht

/-! ## 4. Peephole rules

First where the parts of instructions come from, rule by rule, then which rewrite each rule is. -/

namespace Peephole

/-- What the rules know about the function is what rewrites may know. -/
def Scope.surround (s : Scope) : Surround := ⟨s.resultsOf, s.results⟩

/-- A rewrite of the operations that end at a cursor. -/
theorem rewritesTo_of_cursor {s : Surround} (window window' : Body) {seen rest : Body}
    (h : Rewrite s (Body.ops seen.reverse) (Body.ops rest) (Body.ops window.reverse)
      (Body.ops window')) :
    RewritesTo s (Cursor.body ⟨window ++ seen, rest⟩).ops
      (Cursor.body ⟨seen, window' ++ rest⟩).ops :=
  ⟨_, _, _, _, by simp [Cursor.body], by simp [Cursor.body], h⟩

/-- A local without readings at a cursor is read neither before nor after it. -/
theorem notMem_of_reads {seen rest : Body} {l : Nat} (h : seen.reads l + rest.reads l = 0) :
    .localGet l ∉ Body.ops seen.reverse ++ Body.ops rest := by
  have hs : Body.reads seen.reverse l = 0 := by
    rw [Body.reads, List.countP_reverse]
    exact Nat.eq_zero_of_add_eq_zero_right h
  rw [List.mem_append, not_or]
  exact ⟨Body.notMem_of_reads hs, Body.notMem_of_reads (Nat.eq_zero_of_add_eq_zero_left h)⟩

theorem rewrites_of_setGet {s : Surround} {c c' : Cursor} (h : setGet c = some c') :
    RewritesTo s c.body.ops c'.body.ops := by
  unfold setGet at h
  split at h
  · rename_i read m₁ written m₂ seen rest
    split at h
    · rename_i e
      subst e
      obtain rfl := Option.some.inj h
      exact rewritesTo_of_cursor [_, _] [_] (.setGet written)
    · simp at h
  · simp at h

theorem rewrites_of_getDrop {s : Surround} {c c' : Cursor} (h : getDrop c = some c') :
    RewritesTo s c.body.ops c'.body.ops := by
  unfold getDrop at h
  split at h
  · obtain rfl := Option.some.inj h
    exact rewritesTo_of_cursor [_, _] [] (.getDrop _)
  · obtain rfl := Option.some.inj h
    exact rewritesTo_of_cursor [_, _] [] (.globalDrop _)
  · simp at h

theorem rewrites_of_teeDrop {s : Surround} {c c' : Cursor} (h : teeDrop c = some c') :
    RewritesTo s c.body.ops c'.body.ops := by
  unfold teeDrop at h
  split at h
  · obtain rfl := Option.some.inj h
    exact rewritesTo_of_cursor [_, _] [_] (.teeDrop _)
  · simp at h

theorem rewrites_of_constDrop {s : Surround} {c c' : Cursor} (h : constDrop c = some c') :
    RewritesTo s c.body.ops c'.body.ops := by
  unfold constDrop at h
  split at h
  · obtain rfl := Option.some.inj h
    exact rewritesTo_of_cursor [_, _] [] (.constDrop _)
  · simp at h

theorem rewrites_of_eqz {s : Surround} {c c' : Cursor} (h : eqz c = some c') :
    RewritesTo s c.body.ops c'.body.ops := by
  unfold eqz at h
  split at h
  · split at h
    · rename_i e
      subst e
      obtain rfl := Option.some.inj h
      exact rewritesTo_of_cursor [_, _] [_] .eqz32
    · simp at h
  · split at h
    · rename_i e
      subst e
      obtain rfl := Option.some.inj h
      exact rewritesTo_of_cursor [_, _] [_] .eqz64
    · simp at h
  · simp at h

theorem rewrites_of_extendWrap {s : Surround} {c c' : Cursor} (h : extendWrap c = some c') :
    RewritesTo s c.body.ops c'.body.ops := by
  unfold extendWrap at h
  split at h
  · split at h
    · rename_i hop
      obtain rfl := Option.some.inj h
      exact rewritesTo_of_cursor [_, _] [] (.extendWrap hop)
    · simp at h
  · simp at h

theorem rewrites_of_convertTrunc {s : Surround} {c c' : Cursor} (h : convertTrunc c = some c') :
    RewritesTo s c.body.ops c'.body.ops := by
  unfold convertTrunc at h
  split at h
  · split at h
    · rename_i hop
      obtain rfl := Option.some.inj h
      exact rewritesTo_of_cursor [_, _] [] (.convertTrunc hop)
    · simp at h
  · simp at h

theorem rewrites_of_foldTrunc {s : Surround} {c c' : Cursor} (h : foldTrunc c = some c') :
    RewritesTo s c.body.ops c'.body.ops := by
  unfold foldTrunc at h
  split at h
  · obtain ⟨v, hv, rfl⟩ := Option.map_eq_some_iff.mp h
    exact rewritesTo_of_cursor [_, _] [_] (.foldTrunc hv)
  · simp at h

theorem rewrites_of_foldConvert {s : Surround} {c c' : Cursor} (h : foldConvert c = some c') :
    RewritesTo s c.body.ops c'.body.ops := by
  unfold foldConvert at h
  split at h
  · obtain ⟨x, hx, rfl⟩ := Option.map_eq_some_iff.mp h
    exact rewritesTo_of_cursor [_, _] [_] (.foldConvert hx)
  · simp at h

theorem rewrites_of_tailCall {s : Scope} {c c' : Cursor} (h : tailCall s c = some c') :
    RewritesTo s.surround c.body.ops c'.body.ops := by
  unfold tailCall at h
  split at h
  · split at h
    · rename_i hc
      simp only [Bool.and_eq_true, Bool.not_eq_true', decide_eq_true_eq] at hc
      obtain rfl := Option.some.inj h
      refine rewritesTo_of_cursor [_, _] [_] (.tailCall ?_ hc.2)
      rw [← Nesting.ofReversed_eq_observe]
      exact hc.1.2
    · simp at h
  · simp at h

theorem rewrites_of_loopIncrement {s : Surround} {c c' : Cursor} (h : loopIncrement c = some c') :
    RewritesTo s c.body.ops c'.body.ops := by
  unfold loopIncrement at h
  split at h
  · rename_i second m₁ first m m' seen v mv op mo written mw m₂ rest
    split at h
    · rename_i hc
      obtain ⟨rfl, rfl, hop, -⟩ := hc
      obtain rfl := Option.some.inj h
      exact ⟨Body.ops (⟨.close, m'⟩ :: seen).reverse, Body.ops rest, _, _, by simp [Cursor.body],
        by simp [Cursor.body], .increment written v hop⟩
    · simp at h
  · simp at h

theorem rewrites_of_postIncrement {s : Scope} {c c' : Cursor} (h : postIncrement s c = some c') :
    RewritesTo s.surround c.body.ops c'.body.ops := by
  unfold postIncrement at h
  split at h
  · rename_i last written mw op mo v mv second m first m₁ seen rest
    split at h
    · rename_i hc
      obtain ⟨rfl, rfl, hop⟩ := hc
      split at h
      · rename_i hlast
        obtain rfl := Option.some.inj h
        refine rewritesTo_of_cursor [_, _, _, _, _, _] [_, _, _, _] ?_
        simp only [Body.ops, List.reverse_cons, List.reverse_nil, List.nil_append,
          List.cons_append, List.map_cons, List.map_nil, hlast]
        exact .increment _ v hop
      · rename_i label hlast
        split at h
        · rename_i harity
          obtain rfl := Option.some.inj h
          refine rewritesTo_of_cursor [_, _, _, _, _, _] [_, _, _, _, _] ?_
          simp only [Body.ops, List.reverse_cons, List.reverse_nil, List.nil_append,
            List.cons_append, List.map_cons, List.map_nil, hlast]
          rw [Nesting.ofReversed_eq_observe] at harity
          exact .incrementBranch _ v hop harity
        · simp at h
      · simp at h
    · simp at h
  · simp at h

theorem rewrites_of_paramShuffle {s : Surround} {c c' : Cursor} (h : paramShuffle c = some c') :
    RewritesTo s c.body.ops c'.body.ops := by
  unfold paramShuffle at h
  split at h
  · rename_i read m₁ y m₂ x m₃ seen rest
    split at h
    · rename_i hc
      obtain ⟨rfl, hne, hx, hy⟩ := hc
      obtain rfl := Option.some.inj h
      simp only [Cursor.reads, Body.reads, List.countP_cons, decide_true, if_true,
        Op.localGet.injEq, hne, decide_false, reduceCtorEq] at hx hy
      refine rewritesTo_of_cursor [_, _, _] [] (.shuffle hne (notMem_of_reads ?_)
        (notMem_of_reads ?_))
      · simp only [Body.reads]
        omega
      · simp only [Body.reads]
        omega
    · simp at h
  · simp at h

theorem rewrites_of_deadLastType {s : Scope} {c c' : Cursor} (h : deadLastType s c = some c') :
    RewritesTo s.surround c.body.ops c'.body.ops := by
  unfold deadLastType at h
  split at h
  · split at h
    · rename_i hc
      obtain ⟨rfl, hr⟩ := hc
      obtain rfl := Option.some.inj h
      refine rewritesTo_of_cursor [_] [_] (.deadSet (notMem_of_reads ?_))
      simpa [Cursor.reads, Body.reads, List.countP_cons] using hr
    · simp at h
  · split at h
    · rename_i hc
      obtain ⟨rfl, hr⟩ := hc
      obtain rfl := Option.some.inj h
      refine rewritesTo_of_cursor [_] [] (.deadTee (notMem_of_reads ?_))
      simpa [Cursor.reads, Body.reads, List.countP_cons] using hr
    · simp at h
  · simp at h

/-- A block is opened up only if it is a whole region of a body that can be parsed. -/
theorem rewrites_of_transparentBlock {s : Surround} {c c' : Cursor} {d : Code}
    (hd : Code.parse c.body.ops = some d) (h : transparentBlock c = some c') :
    RewritesTo s c.body.ops c'.body.ops := by
  unfold transparentBlock at h
  split at h
  · rename_i result m seen rest
    obtain ⟨k, hk, h⟩ := Option.bind_eq_some_iff.mp h
    obtain ⟨hdepth, last, after, hdrop, hlast⟩ := depthFrom_of_closeOffset (by decide) hk
    simp only [hdrop] at h
    split at h
    · simp at h
    · rename_i hc
      obtain rfl := Option.some.inj h
      have hrest : Body.ops rest = Body.ops (rest.take k) ++ last.op :: Body.ops after := by
        rw [← Body.ops_cons, ← hdrop, ← Body.ops_append, List.take_append_drop]
      have hbody : (Cursor.body ⟨⟨.enter .block result, m⟩ :: seen, rest⟩).ops
          = Body.ops seen.reverse ++ .enter .block result
            :: (Body.ops (rest.take k) ++ last.op :: Body.ops after) := by
        simp [Cursor.body, hrest]
      rw [hbody] at hd
      obtain ⟨hclose, code, hwf, hops⟩ := Code.exists_inside_block hdepth hlast hd
      refine ⟨Body.ops seen.reverse, Body.ops after, _, _, ?_, ?_,
        .block result hwf fun o ho => ?_⟩
      · rw [hbody, hclose, hops]
        simp
      · rw [hops]
        simp [Cursor.body]
      · rw [hops] at ho
        obtain ⟨i, hi, rfl⟩ := Body.mem_ops.mp ho
        by_cases hr : i.op.referencesLabel
        · exact absurd (.inr (List.any_eq_true.mpr ⟨i, hi, hr⟩)) hc
        · simpa using hr
  · simp at h

/-- Instructions before the cursor are replaced by others made of the same parts. -/
theorem provides_of_cursor (window window' : Body) {seen rest : Body}
    (h : ∀ i ∈ window', Body.Provides window i) :
    ∀ i ∈ Cursor.body ⟨seen, window' ++ rest⟩, (Cursor.body ⟨window ++ seen, rest⟩).Provides i := by
  intro i hi
  simp only [Cursor.body, List.mem_append, List.mem_reverse] at hi
  rcases hi with hi | hi | hi
  · exact .of_mem (by simp [Cursor.body, hi])
  · exact (h i hi).mono fun j hj => by simp [Cursor.body, hj]
  · exact .of_mem (by simp [Cursor.body, hi])

/-- What is left of a body provides itself: an instruction that was there uses nothing new. -/
theorem provides_of_subset {b b' : Body} (h : ∀ i ∈ b', i ∈ b) : ∀ i ∈ b', b.Provides i :=
  fun i hi => .of_mem (h i hi)

theorem mem_of_afterElse {i : Instr} : ∀ {depth : Nat} {body arm : Body},
    afterElse depth body = some arm → i ∈ arm → i ∈ body
  | _, [], _, h, _ => by simp [afterElse] at h
  | depth, j :: rest, arm, h, hi => by
    simp only [afterElse] at h
    split at h
    · exact List.mem_cons_of_mem _ (mem_of_afterElse h hi)
    · split at h
      · exact List.mem_cons_of_mem _ (mem_of_afterElse h hi)
      · split at h
        · obtain rfl := Option.some.inj h
          exact List.mem_cons_of_mem _ hi
        · exact List.mem_cons_of_mem _ (mem_of_afterElse h hi)

theorem provides_of_deadTypeCase {s : Scope} {c c' : Cursor} (h : deadTypeCase s c = some c') :
    ∀ i ∈ c'.body, c.body.Provides i := by
  unfold deadTypeCase at h
  split at h
  · rename_i focus seen rest
    split at h
    · split at h
      · simp at h
      · split at h
        · rename_i result m inside hinside
          obtain ⟨k, hk, h⟩ := Option.bind_eq_some_iff.mp h
          have hin : ∀ i ∈ inside, i ∈ Cursor.body ⟨focus :: seen, rest⟩ := by
            intro i hi
            have hm : i ∈ focus :: rest := (List.dropWhile_sublist _).mem
              (hinside ▸ List.mem_cons_of_mem _ hi)
            rcases List.mem_cons.mp hm with rfl | hm <;> simp [Cursor.body, *]
          split at h
          · rename_i arm harm
            obtain rfl := Option.some.inj h
            intro i hi
            simp only [Cursor.body, List.mem_append, List.mem_reverse, List.mem_cons] at hi
            rcases hi with hi | (rfl | hi) | hi
            · exact .of_mem (by simp [Cursor.body, hi])
            · exact .fresh rfl rfl rfl
            · exact .of_mem (hin i (List.mem_of_mem_take (mem_of_afterElse harm hi)))
            · exact .of_mem (hin i (List.mem_of_mem_drop hi))
          · obtain rfl := Option.some.inj h
            refine provides_of_subset fun i hi => ?_
            simp only [Cursor.body, List.mem_append, List.mem_reverse] at hi
            rcases hi with hi | hi
            · simp [Cursor.body, hi]
            · exact hin i (List.mem_of_mem_drop hi)
        · simp at h
    · simp at h
  · simp at h

theorem provides_of_transparentBlock {c c' : Cursor} (h : transparentBlock c = some c') :
    ∀ i ∈ c'.body, c.body.Provides i := by
  unfold transparentBlock at h
  split at h
  · rename_i result m seen rest
    obtain ⟨k, hk, h⟩ := Option.bind_eq_some_iff.mp h
    split at h
    · simp at h
    · rename_i last after hdrop
      split at h
      · simp at h
      · obtain rfl := Option.some.inj h
        refine provides_of_subset fun i hi => ?_
        simp only [Cursor.body, List.mem_append, List.mem_reverse] at hi
        rcases hi with hi | hi | hi
        · simp [Cursor.body, hi]
        · simp [Cursor.body, List.mem_of_mem_take hi]
        · have : i ∈ rest := List.mem_of_mem_drop (hdrop ▸ List.mem_cons_of_mem _ hi)
          simp [Cursor.body, this]
  · simp at h

/-- Two instructions that shrink to one which is made of their parts. -/
theorem provides_of_pair {x y z : Instr} {seen rest : Body} (h : Body.Provides [x, y] z) :
    ∀ i ∈ Cursor.body ⟨seen, z :: rest⟩, (Cursor.body ⟨x :: y :: seen, rest⟩).Provides i := by
  refine provides_of_cursor [x, y] [z] fun i hi => ?_
  obtain rfl := List.mem_singleton.mp hi
  exact h

/-- Two instructions that vanish leave only instructions that were there, so nothing is needed that
was not. -/
theorem provides_of_vanish {x y : Instr} {seen rest : Body} :
    ∀ i ∈ Cursor.body ⟨seen, rest⟩, (Cursor.body ⟨x :: y :: seen, rest⟩).Provides i :=
  provides_of_cursor [x, y] [] fun _ hi => absurd hi List.not_mem_nil

/-- In a window the last instruction stands first, so the earlier one of two stands second. -/
theorem mem_window₂ {x y : Instr} : y ∈ [x, y] := List.mem_cons_of_mem _ (List.mem_singleton_self y)

theorem provides_of_setGet {c c' : Cursor} (h : setGet c = some c') :
    ∀ i ∈ c'.body, c.body.Provides i := by
  unfold setGet at h
  split at h
  · split at h
    · obtain rfl := Option.some.inj h
      exact provides_of_pair (.like mem_window₂ rfl rfl rfl rfl)
    · simp at h
  · simp at h

theorem provides_of_getDrop {c c' : Cursor} (h : getDrop c = some c') :
    ∀ i ∈ c'.body, c.body.Provides i := by
  unfold getDrop at h
  split at h
  · obtain rfl := Option.some.inj h
    exact provides_of_vanish
  · obtain rfl := Option.some.inj h
    exact provides_of_vanish
  · simp at h

theorem provides_of_teeDrop {c c' : Cursor} (h : teeDrop c = some c') :
    ∀ i ∈ c'.body, c.body.Provides i := by
  unfold teeDrop at h
  split at h
  · obtain rfl := Option.some.inj h
    exact provides_of_pair (.like mem_window₂ rfl rfl rfl rfl)
  · simp at h

theorem provides_of_constDrop {c c' : Cursor} (h : constDrop c = some c') :
    ∀ i ∈ c'.body, c.body.Provides i := by
  unfold constDrop at h
  split at h
  · obtain rfl := Option.some.inj h
    exact provides_of_vanish
  · simp at h

theorem provides_of_eqz {c c' : Cursor} (h : eqz c = some c') :
    ∀ i ∈ c'.body, c.body.Provides i := by
  unfold eqz at h
  split at h
  · split at h
    · obtain rfl := Option.some.inj h
      exact provides_of_pair (.like List.mem_cons_self rfl rfl rfl rfl)
    · simp at h
  · split at h
    · obtain rfl := Option.some.inj h
      exact provides_of_pair (.like List.mem_cons_self rfl rfl rfl rfl)
    · simp at h
  · simp at h

theorem provides_of_extendWrap {c c' : Cursor} (h : extendWrap c = some c') :
    ∀ i ∈ c'.body, c.body.Provides i := by
  unfold extendWrap at h
  split at h
  · split at h
    · obtain rfl := Option.some.inj h
      exact provides_of_vanish
    · simp at h
  · simp at h

theorem provides_of_convertTrunc {c c' : Cursor} (h : convertTrunc c = some c') :
    ∀ i ∈ c'.body, c.body.Provides i := by
  unfold convertTrunc at h
  split at h
  · split at h
    · obtain rfl := Option.some.inj h
      exact provides_of_vanish
    · simp at h
  · simp at h

theorem provides_of_foldTrunc {c c' : Cursor} (h : foldTrunc c = some c') :
    ∀ i ∈ c'.body, c.body.Provides i := by
  unfold foldTrunc at h
  split at h
  · obtain ⟨v, -, rfl⟩ := Option.map_eq_some_iff.mp h
    exact provides_of_pair (.like mem_window₂ rfl rfl rfl rfl)
  · simp at h

theorem provides_of_foldConvert {c c' : Cursor} (h : foldConvert c = some c') :
    ∀ i ∈ c'.body, c.body.Provides i := by
  unfold foldConvert at h
  split at h
  · obtain ⟨v, -, rfl⟩ := Option.map_eq_some_iff.mp h
    exact provides_of_pair (.like mem_window₂ rfl rfl rfl rfl)
  · simp at h

theorem provides_of_tailCall {s : Scope} {c c' : Cursor} (h : tailCall s c = some c') :
    ∀ i ∈ c'.body, c.body.Provides i := by
  unfold tailCall at h
  split at h
  · split at h
    · obtain rfl := Option.some.inj h
      exact provides_of_pair (.like mem_window₂ rfl rfl rfl rfl)
    · simp at h
  · simp at h

theorem provides_of_loopIncrement {c c' : Cursor} (h : loopIncrement c = some c') :
    ∀ i ∈ c'.body, c.body.Provides i := by
  unfold loopIncrement at h
  split at h
  · split at h
    · obtain rfl := Option.some.inj h
      refine provides_of_subset fun i hi => ?_
      simp only [Cursor.body, List.mem_append, List.mem_reverse, List.mem_cons] at hi ⊢
      rcases hi with (h | h | h) | h | h | h | h <;> simp [h]
    · simp at h
  · simp at h

theorem provides_of_postIncrement {s : Scope} {c c' : Cursor} (h : postIncrement s c = some c') :
    ∀ i ∈ c'.body, c.body.Provides i := by
  unfold postIncrement at h
  split at h
  · split at h
    · split at h
      · obtain rfl := Option.some.inj h
        exact provides_of_cursor [_, _, _, _, _, _] [_, _, _, _]
          (provides_of_subset (by simp))
      · split at h
        · obtain rfl := Option.some.inj h
          exact provides_of_cursor [_, _, _, _, _, _] [_, _, _, _, _]
            (provides_of_subset (by simp))
        · simp at h
      · simp at h
    · simp at h
  · simp at h

theorem provides_of_paramShuffle {c c' : Cursor} (h : paramShuffle c = some c') :
    ∀ i ∈ c'.body, c.body.Provides i := by
  unfold paramShuffle at h
  split at h
  · split at h
    · obtain rfl := Option.some.inj h
      exact provides_of_cursor [_, _, _] [] (by simp)
    · simp at h
  · simp at h

theorem provides_of_emptyTypeSwitch {c c' : Cursor} (h : emptyTypeSwitch c = some c') :
    ∀ i ∈ c'.body, c.body.Provides i := by
  unfold emptyTypeSwitch at h
  split at h
  · obtain rfl := Option.some.inj h
    refine provides_of_cursor [_, _, _] [_] ?_
    simpa using .fresh rfl rfl rfl
  · simp at h

theorem provides_of_deadLastType {s : Scope} {c c' : Cursor} (h : deadLastType s c = some c') :
    ∀ i ∈ c'.body, c.body.Provides i := by
  unfold deadLastType at h
  split at h
  · split at h
    · obtain rfl := Option.some.inj h
      refine provides_of_cursor [_] [_] ?_
      simpa using .fresh rfl rfl rfl
    · simp at h
  · split at h
    · obtain rfl := Option.some.inj h
      exact provides_of_cursor [_] [] (by simp)
    · simp at h
  · simp at h

/-- **Every rule makes its instructions of what was there.** No rule invents a local, a callee or a
marker, and whatever cannot come from a rewrite, such as an access to memory, was there before. -/
theorem provides_of_reduceAt {s : Scope} {c c' : Cursor} {r : Rule}
    (h : reduceAt s c r = some c') : ∀ i ∈ c'.body, c.body.Provides i := by
  cases r with
  | setGet => exact provides_of_setGet h
  | getDrop => exact provides_of_getDrop h
  | teeDrop => exact provides_of_teeDrop h
  | constDrop => exact provides_of_constDrop h
  | eqz => exact provides_of_eqz h
  | extendWrap => exact provides_of_extendWrap h
  | convertTrunc => exact provides_of_convertTrunc h
  | foldTrunc => exact provides_of_foldTrunc h
  | foldConvert => exact provides_of_foldConvert h
  | tailCall => exact provides_of_tailCall h
  | loopIncrement => exact provides_of_loopIncrement h
  | postIncrement => exact provides_of_postIncrement h
  | paramShuffle => exact provides_of_paramShuffle h
  | transparentBlock => exact provides_of_transparentBlock h
  | deadTypeCase => exact provides_of_deadTypeCase h
  | emptyTypeSwitch => exact provides_of_emptyTypeSwitch h
  | deadLastType => exact provides_of_deadLastType h

/-- **Every rule that does not look at markers is a rewrite**, in a body that can be parsed. -/
theorem rewrites_of_reduceAt {s : Scope} {c c' : Cursor} {r : Rule} {d : Code}
    (hd : Code.parse c.body.ops = some d) (hcase : r ≠ .deadTypeCase)
    (hswitch : r ≠ .emptyTypeSwitch) (h : reduceAt s c r = some c') :
    RewritesTo s.surround c.body.ops c'.body.ops := by
  cases r with
  | setGet => exact rewrites_of_setGet h
  | getDrop => exact rewrites_of_getDrop h
  | teeDrop => exact rewrites_of_teeDrop h
  | constDrop => exact rewrites_of_constDrop h
  | eqz => exact rewrites_of_eqz h
  | extendWrap => exact rewrites_of_extendWrap h
  | convertTrunc => exact rewrites_of_convertTrunc h
  | foldTrunc => exact rewrites_of_foldTrunc h
  | foldConvert => exact rewrites_of_foldConvert h
  | tailCall => exact rewrites_of_tailCall h
  | loopIncrement => exact rewrites_of_loopIncrement h
  | postIncrement => exact rewrites_of_postIncrement h
  | paramShuffle => exact rewrites_of_paramShuffle h
  | transparentBlock => exact rewrites_of_transparentBlock hd h
  | deadTypeCase => exact absurd rfl hcase
  | emptyTypeSwitch => exact absurd rfl hswitch
  | deadLastType => exact rewrites_of_deadLastType h

/-- A case is only removed where an instruction is marked as its guard. -/
theorem exists_typeCase_of_deadTypeCase {s : Scope} {c c' : Cursor}
    (h : deadTypeCase s c = some c') : ∃ i ∈ c.body, ∃ t, i.marker = some (.typeCase t) := by
  unfold deadTypeCase at h
  split at h
  · rename_i focus seen rest
    split at h
    · rename_i t ht
      exact ⟨focus, by simp [Cursor.body], t, ht⟩
    · simp at h
  · simp at h

/-- A dispatch is only collapsed where an instruction is marked as its end. -/
theorem exists_typeSwitchEnd_of_emptyTypeSwitch {c c' : Cursor} (h : emptyTypeSwitch c = some c') :
    ∃ i ∈ c.body, i.marker = some .typeSwitchEnd := by
  unfold emptyTypeSwitch at h
  split at h
  · exact ⟨⟨.close, some .typeSwitchEnd⟩, by simp [Cursor.body], rfl⟩
  · simp at h

/-- **Every rule is a step**: what it does is one of the listed rewrites at one place of the body.
From here on nothing is said about the rules themselves. -/
theorem step_of_reduceAt {s : Scope} {c c' : Cursor} {r : Rule} (h : reduceAt s c r = some c') :
    c.body.Step s.surround c'.body where
  provides := provides_of_reduceAt h
  rewrites := by
    intro hm d hd
    refine rewrites_of_reduceAt hd ?_ ?_ h
    · rintro rfl
      obtain ⟨i, hi, t, ht⟩ := exists_typeCase_of_deadTypeCase h
      simp [hm i hi] at ht
    · rintro rfl
      obtain ⟨i, hi, ht⟩ := exists_typeSwitchEnd_of_emptyTypeSwitch h
      simp [hm i hi] at ht

/-- **What every step keeps, a scan keeps**, wherever it starts and whichever rules it is given. -/
theorem scanFrom_induction {P : Body → Prop} {rules : List Rule} {s : Scope}
    (hstep : ∀ b b' : Body, b.Step s.surround b' → P b → P b') (seen rest : Body)
    (h : P (seen.reverse ++ rest)) : P (scanFrom rules s seen rest).body := by
  fun_induction scanFrom rules s seen rest with
  | case1 seen => simpa using h
  | case2 seen i rest r c hr _ _ ih =>
    have hs := step_of_reduceAt (reduceAt_of_firstMatch hr).2
    exact ih (hstep _ _ hs (by simpa [Cursor.body] using h))
  | case3 seen i rest hr ih => exact ih (by simpa using h)

end Peephole

/-! ## 5. Constant folding

A fold is the same rewrite wherever it is made, so a pass of folds is a sequence of steps (`fold`).
-/

namespace Folding

/-- What a fold consists of: two constants right before a numeric operation, and the value that it
has on them. -/
theorem fold?_eq_some {i : Instr} {seen below : Body} {f : Fold}
    (h : fold? i seen = some (f, below)) :
    ∃ m m', seen = ⟨.const f.rhs, m⟩ :: ⟨.const f.lhs, m'⟩ :: below ∧ i.op = .num f.op ∧
      f.op.evaluate? f.lhs f.rhs = some f.value := by
  unfold fold? at h
  split at h
  · split at h
    · rename_i hi
      obtain ⟨v, hv, e⟩ := Option.map_eq_some_iff.mp h
      obtain ⟨rfl, rfl⟩ := Prod.mk.inj e
      exact ⟨_, _, rfl, hi, hv⟩
    · simp at h
  · simp at h

/-- A fold is a step, like those of the rewriting rules: a constant in place of three instructions,
with both sides of the body untouched. -/
theorem step_of_fold? {s : Surround} {i : Instr} {seen below rest : Body} {f : Fold}
    (h : fold? i seen = some (f, below)) :
    Body.Step s (seen.reverse ++ i :: rest)
      (((Op.const f.value).plain :: below).reverse ++ rest) := by
  obtain ⟨m, m', rfl, hi, hv⟩ := fold?_eq_some h
  constructor
  · intro _ _ _
    exact ⟨Body.ops below.reverse, Body.ops rest, _, _, by simp [hi], by simp, .foldArith hv⟩
  · intro j hj
    simp only [List.reverse_cons, List.append_assoc, List.singleton_append, List.mem_append,
      List.mem_reverse, List.mem_cons] at hj
    rcases hj with hj | rfl | hj
    · exact .of_mem (by simp [hj])
    · exact .fresh rfl rfl rfl
    · exact .of_mem (by simp [hj])

/-- **What every step keeps, folding keeps.** A fold replaces two constants and an operation by a
constant, and that is one of the steps. -/
theorem foldFrom_induction {P : Body → Prop} {s : Surround}
    (hstep : ∀ b b' : Body, b.Step s b' → P b → P b') : ∀ (rest seen : Body),
      P (seen.reverse ++ rest) → P (foldFrom seen rest).body
  | [], seen, h => by simpa [foldFrom] using h
  | i :: rest, seen, h => by
    simp only [foldFrom]
    split
    · rename_i f below hf
      exact foldFrom_induction hstep rest _ (hstep _ _ (step_of_fold? hf) h)
    · exact foldFrom_induction hstep rest _ (by simpa using h)

end Folding

/-! ## 6. Dead stores

All stores are dropped at once, and as steps one after the other.  A store that is dropped leaves
the readings as they were, so those that are dead stay dead. -/

namespace DeadLocals

/-- **What every step keeps, the removal of dead stores keeps.** That a store is dead is a fact
about the whole body, and it remains one while other stores are removed. -/
theorem dropStores_induction {P : Body → Prop} {s : Surround}
    (hstep : ∀ b b' : Body, b.Step s b' → P b → P b') {dead : Nat → Bool} :
    ∀ (rest done : Body), (∀ l, dead l → .localGet l ∉ (done ++ rest).ops) → P (done ++ rest) →
      P (done ++ rest.flatMap (dropStore dead))
  | [], done, _, h => by simpa using h
  | i :: rest, done, hread, h => by
    -- one store is dropped; the readings stay as they are
    have next : ∀ new : Body, (∀ l, .localGet l ∉ new.ops) →
        Body.Step s (done ++ i :: rest) (done ++ new ++ rest) →
        P (done ++ new ++ rest.flatMap (dropStore dead)) := by
      intro new hnew hs
      refine dropStores_induction hstep rest (done ++ new) (fun l hl hm => ?_) (hstep _ _ hs h)
      refine hread l hl ?_
      simp only [Body.ops_append, Body.ops_cons, List.mem_append, List.mem_cons] at hm ⊢
      rcases hm with (hm | hm) | hm
      · exact .inl hm
      · exact absurd hm (hnew l)
      · exact .inr (.inr hm)
    have keep : P (done ++ [i] ++ rest.flatMap (dropStore dead)) :=
      dropStores_induction hstep rest (done ++ [i]) (by simpa using hread) (by simpa using h)
    have hdead : ∀ l, dead l → .localGet l ∉ Body.ops done ++ Body.ops rest := by
      intro l hl hm
      refine hread l hl ?_
      simp only [Body.ops_append, Body.ops_cons, List.mem_append, List.mem_cons] at hm ⊢
      rcases hm with hm | hm
      · exact .inl hm
      · exact .inr (.inr hm)
    rw [List.flatMap_cons, ← List.append_assoc]
    generalize htail : rest.flatMap (dropStore dead) = tail at next keep ⊢
    unfold dropStore
    split
    · rename_i l hi
      split
      · rename_i hl
        refine next _ (by simp [Body.ops]) ⟨fun _ _ _ => ?_, fun j hj => ?_⟩
        · exact ⟨Body.ops done, Body.ops rest, [.localSet l], [.drop], by simp [hi], by simp,
            .deadSet (hdead l hl)⟩
        · simp only [List.append_assoc, List.mem_append, List.mem_cons, List.not_mem_nil,
            or_false] at hj
          rcases hj with hj | rfl | hj
          · exact .of_mem (by simp [hj])
          · exact .fresh rfl rfl rfl
          · exact .of_mem (by simp [hj])
      · exact keep
    · rename_i l hi
      split
      · rename_i hl
        refine next _ (by simp [Body.ops]) ⟨fun _ _ _ => ?_, fun j hj => ?_⟩
        · exact ⟨Body.ops done, Body.ops rest, [.localTee l], [], by simp [hi], by simp,
            .deadTee (hdead l hl)⟩
        · simp only [List.append_nil, List.mem_append] at hj
          rcases hj with hj | hj <;> exact .of_mem (by simp [hj])
      · exact keep
    · exact keep

end DeadLocals

end WasmTrim
