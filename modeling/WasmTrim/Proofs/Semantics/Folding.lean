/-
# Constant folding in one pass

One pass leaves nothing that could be folded (`fold`).  The part of the body that has been seen is
kept as a stack, and at no place of it an operation stands on two constants that it could be
evaluated with (`Folding.Settled`): a new constant may become an operand of a later operation, but
it is no operation itself, so it ends no fold.

What a pass does is a run of folds, each of which replaces two constants and an operation by one
constant (`Folding.FoldsTo`).  An integer constant comes from two that take one byte each, so no
result leaves the range of its type (`Folding.Fold.Exact`).  And since two constants always do the
same as one, in every state and on every machine, the folded body is evaluated to the very outcome
of the old one (`Code.Equivalent`).

This is more than a refinement.  Nothing about types is assumed, stuck runs included: the two bodies
are evaluated alike from any stack, in any state, and under any bound.  The only hypothesis is
that the body parses, without which it has no evaluation.

The part on completeness is about lists and does not mention evaluation.  The invariant is on the
stack of what has been seen, and the one case in which a fold makes another one possible, a
constant as the result, is the case in which the invariant is kept because a constant is not an
operation.
-/
import WasmTrim.Proofs.Idempotence
import WasmTrim.Proofs.Positional.Passes
import WasmTrim.Proofs.Semantics.Rewrites

namespace WasmTrim

/-! ## 1. Codes that run alike

Equality of what two codes do, on every machine, from every stack and state.  It asks for no types,
and a code that gets stuck runs alike only with one that does. -/

/-- Two codes that are evaluated to the same outcome, on every machine and from every state. -/
def Code.Equivalent (c c' : Code) : Prop :=
  ∀ (σ : Type) (M : Machine σ) (labels : List Label) (stack : List Value) (st : State σ),
    c'.eval M labels stack st = c.eval M labels stack st

/-- The same for the arms of a region. -/
def Arms.Equivalent (a a' : Arms) : Prop :=
  ∀ (σ : Type) (M : Machine σ) (r : Region) (labels : List Label) (trigger : Option Exception)
    (st : State σ), a'.eval M r labels trigger st = a.eval M r labels trigger st

namespace Code.Equivalent

theorem refl (c : Code) : c.Equivalent c := fun _ _ _ _ _ => rfl

theorem trans {c c' c'' : Code} (h : c.Equivalent c') (h' : c'.Equivalent c'') :
    c.Equivalent c'' :=
  fun σ M labels stack st => (h' σ M labels stack st).trans (h σ M labels stack st)

/-- Two codes that run alike may be put behind the same operation. -/
theorem op {c c' : Code} (h : c.Equivalent c') (o : Op) : (Code.op o c).Equivalent (.op o c') := by
  intro σ M labels stack st
  simp only [Code.eval]
  exact congrArg _ (funext fun s => funext fun t => h σ M labels s t)

/-- Two codes that run alike may be put behind pieces that do the same. -/
theorem append {c c' : Code} {ops ops' : List Op} (h : c.Equivalent c')
    (hops : ∀ (σ : Type) (M : Machine σ) (labels : List Label) (stack : List Value) (st : State σ),
      M.performAll labels ops' stack st = M.performAll labels ops stack st) :
    ((Code.ofOps ops).append c).Equivalent ((Code.ofOps ops').append c') := by
  intro σ M labels stack st
  rw [Code.eval_append, Code.eval_append, Code.eval_ofOps, Code.eval_ofOps, hops]
  exact congrArg _ (funext fun s => funext fun t => h σ M labels s t)

/-- **Running alike is kept by everything a code is made of.** So a fold may take place in any
region, however deep. -/
theorem congruence : Congruence (fun _ => True) (fun _ c c' => c.Equivalent c')
    (fun _ a a' => a.Equivalent a') where
  done := fun _ => refl _
  region := by
    intro n kind result body body' arms arms' rest rest' _ _ _ hbody harms hrest σ M labels stack st
    have hbody' : ∀ l s, body'.eval M l s = body.eval M l s :=
      fun l s => funext fun t => hbody σ M l s t
    have harms' : ∀ r l, arms'.eval M r l = arms.eval M r l :=
      fun r l => funext fun e => funext fun t => harms σ M r l e t
    have hrest' : rest'.eval M labels = rest.eval M labels :=
      funext fun s => funext fun t => hrest σ M labels s t
    simp only [Code.eval, hbody', harms', hrest']
  close := fun _ _ _ _ _ _ _ => rfl
  delegate := fun _ _ _ _ _ _ _ => rfl
  arm := by
    intro n head body body' more more' _ hbody hmore σ M r labels trigger st
    simp only [Arms.eval]
    split
    · exact hbody σ M _ _ st
    · exact hmore σ M r labels trigger st

end Code.Equivalent

/-! ## 2. Exact arithmetic

Seven bits and seven bits give at most fourteen.  The narrower of the two integer types has 32. -/

namespace Arith

/-- On integers without a width, to say of a fold that nothing has wrapped around. -/
def onInts (x y : Int) : Arith → Int
  | add => x + y
  | sub => x - y
  | mul => x * y

theorem toInt_onBits {w : Nat} (a : Arith) (x y : BitVec w) :
    (a.onBits x y).toInt = (a.onInts x.toInt y.toInt).bmod (2 ^ w) := by
  cases a with
  | add => exact BitVec.toInt_add x y
  | sub => exact BitVec.toInt_sub
  | mul => exact BitVec.toInt_mul x y

/-- Two integers of one byte give one of at most 13 bits. -/
theorem onInts_bounds {x y : Int} (a : Arith) (hx : isShort x) (hy : isShort y) :
    -4096 ≤ a.onInts x y ∧ a.onInts x y ≤ 4096 := by
  simp only [isShort, Bool.and_eq_true, decide_eq_true_eq] at hx hy
  obtain ⟨hx, hx'⟩ := hx
  obtain ⟨hy, hy'⟩ := hy
  cases a with
  | add | sub =>
    simp only [onInts]
    omega
  | mul =>
    have hx₆₄ : x.natAbs ≤ 64 := by omega
    have hy₆₄ : y.natAbs ≤ 64 := by omega
    have hproduct : (x * y).natAbs ≤ 64 * 64 := by
      rw [Int.natAbs_mul]
      exact Nat.mul_le_mul hx₆₄ hy₆₄
    simp only [onInts]
    omega

/-- **No result is wrapped.** Two integers of one byte each have a sum, a difference and a product
that need at most fourteen bits, fewer than either width has. -/
theorem toInt_onBits_of_isShort {w : Nat} (hw : 14 ≤ w) (a : Arith) {x y : BitVec w}
    (hx : isShort x.toInt) (hy : isShort y.toInt) :
    (a.onBits x y).toInt = a.onInts x.toInt y.toInt := by
  obtain ⟨hlower, hupper⟩ := a.onInts_bounds hx hy
  have hpow : 2 ^ 14 ≤ 2 ^ w := Nat.pow_le_pow_right (by decide) hw
  rw [toInt_onBits]
  exact Int.bmod_eq_of_le (by omega) (by omega)

end Arith

namespace Folding

/-- **A fold is exact**: its value is the sum, difference or product of its operands, of integers
without any wrapping. -/
inductive Fold.Exact : Fold → Prop where
  | i32 {x y v : BitVec 32} {op : NumOp} {a : Arith} (arith : op.arith? = some (.i32, a))
    (exact : v.toInt = a.onInts x.toInt y.toInt) : Exact ⟨.i32 x, .i32 y, op, .i32 v⟩
  | i64 {x y v : BitVec 64} {op : NumOp} {a : Arith} (arith : op.arith? = some (.i64, a))
    (exact : v.toInt = a.onInts x.toInt y.toInt) : Exact ⟨.i64 x, .i64 y, op, .i64 v⟩
  | f64 {x y v : F64} {op : NumOp} {a : Arith} (arith : op.arith? = some (.f64, a))
    (exact : v = a.onF64 x y) : Exact ⟨.f64 x, .f64 y, op, .f64 v⟩

theorem exact_of_evaluate? {x : Fold} (h : x.op.evaluate? x.lhs x.rhs = some x.value) :
    x.Exact := by
  obtain ⟨lhs, rhs, op, value⟩ := x
  simp only [NumOp.evaluate?] at h
  split at h
  · rename_i a harith
    split at h
    · rename_i hshort
      obtain ⟨hl, hr⟩ := Bool.and_eq_true_iff.mp hshort
      obtain rfl := Option.some.inj h
      exact .i32 harith (a.toInt_onBits_of_isShort (by decide) hl hr)
    · cases h
  · rename_i a harith
    split at h
    · rename_i hshort
      obtain ⟨hl, hr⟩ := Bool.and_eq_true_iff.mp hshort
      obtain rfl := Option.some.inj h
      exact .i64 harith (a.toInt_onBits_of_isShort (by decide) hl hr)
    · cases h
  · rename_i harith
    obtain rfl := Option.some.inj h
    exact .f64 harith rfl
  · cases h

/-! ## 3. Runs of folds

The folds of a pass in order, each with its operands, its operation and its value.  The list is what
the pass reports, and what the exactness of its arithmetic is about (`evaluate`). -/

/-- **A run of folds.** Each one replaces two constants and an operation by the value. They are
listed in the order in which they are made, and each is made in the body that the ones before it
have left. -/
inductive FoldsTo : Body → List Fold → Body → Prop where
  | done (body : Body) : FoldsTo body [] body
  | fold {before after out : Body} {x : Fold} {folds : List Fold} {m m' m'' : Option Marker}
    (value : x.op.evaluate? x.lhs x.rhs = some x.value)
    (rest : FoldsTo (before ++ (Op.const x.value).plain :: after) folds out) :
    FoldsTo (before ++ ⟨.const x.lhs, m⟩ :: ⟨.const x.rhs, m'⟩ :: ⟨.num x.op, m''⟩ :: after)
      (x :: folds) out

theorem foldsTo_foldFrom (seen rest : Body) :
    FoldsTo (seen.reverse ++ rest) (foldFrom seen rest).folds (foldFrom seen rest).body := by
  fun_induction foldFrom seen rest with
  | case1 seen =>
    rw [List.append_nil]
    exact .done _
  | case2 seen i rest x below hfold out ih =>
    obtain ⟨m, m', rfl, hi, hvalue⟩ := fold?_eq_some hfold
    obtain ⟨_, m''⟩ := i
    obtain rfl : _ = Op.num x.op := hi
    simp only [List.reverse_cons, List.append_assoc, List.singleton_append] at ih ⊢
    exact .fold hvalue ih
  | case3 seen i rest hfold ih => simpa using ih

namespace FoldsTo

variable {body out : Body} {folds : List Fold}

/-- Every fold takes two instructions away, so a change shows in the length of the body. -/
theorem length (h : FoldsTo body folds out) : body.length = out.length + 2 * folds.length := by
  induction h with
  | done body => rfl
  | fold value rest ih =>
    simp only [List.length_append, List.length_cons] at ih ⊢
    omega

theorem exact (h : FoldsTo body folds out) : ∀ x ∈ folds, x.Exact := by
  induction h with
  | done body => simp
  | fold value rest ih => exact List.forall_mem_cons.mpr ⟨exact_of_evaluate? value, ih⟩

/-- **A run of folds keeps the outcome** of a well-nested body, on every machine and from every
stack and state. The body need not be typed, and it may get stuck, in which case it still does. -/
theorem equivalent (h : FoldsTo body folds out) {c : Code} (hc : Code.parse body.ops = some c) :
    ∃ c', Code.parse out.ops = some c' ∧ c.Equivalent c' := by
  induction h generalizing c with
  | done body => exact ⟨c, hc, .refl c⟩
  | @fold before after out x folds m m' m'' value rest ih =>
    have hbody : Code.parse (before.ops ++ ((Code.ofOps [.const x.lhs, .const x.rhs,
        .num x.op]).ops ++ after.ops)) = some c := by
      simpa using hc
    -- the window and its replacement do the same, whatever follows
    have hwindow : ∃ d, Code.parse (before.ops ++ ((Code.ofOps [.const x.value]).ops ++ after.ops))
        = some d ∧ c.Equivalent d := by
      refine Code.Equivalent.congruence.parse_window
        (Code.wellFormed_ofOps (List.all_eq_true.mp rfl))
        (Code.wellFormed_ofOps (List.all_eq_true.mp rfl)) (fun _ _ _ => trivial) ?_ ?_ hbody
      · intro o _ _ _ c c' h
        exact h.op o
      · intro c c' h
        exact h.append fun σ M => M.performAll_foldArith value
    obtain ⟨d, hd, hcd⟩ := hwindow
    obtain ⟨c', hc', hdc'⟩ := ih (by simpa using hd)
    exact ⟨c', hc', hcd.trans hdc'⟩

end FoldsTo

/-! ## 4. Where nothing can be folded

The part of the body that has been passed is settled: no two constants in it stand before an
operation on them.  A fold takes away its last part and puts a constant there, which may be folded
next. -/

/-- Some instructions, last one first, among which nothing can be folded. -/
def Settled (seen : Body) : Prop := ∀ i below, i :: below <:+ seen → fold? i below = none

theorem settled_nil : Settled [] := by
  intro i below hsuffix
  cases List.suffix_nil.mp hsuffix

namespace Settled

variable {i : Instr} {seen below : Body}

theorem of_suffix (h : Settled seen) (hsuffix : below <:+ seen) : Settled below := by
  intro i below' hb
  exact h i below' (hb.trans hsuffix)

theorem cons (h : Settled seen) (hi : fold? i seen = none) : Settled (i :: seen) := by
  intro j below hsuffix
  rcases List.suffix_cons_iff.mp hsuffix with e | hsuffix
  · obtain ⟨rfl, rfl⟩ := List.cons.inj e
    exact hi
  · exact h j below hsuffix

end Settled

/-- A constant ends no fold, because the last instruction of a fold is an operation on numbers. -/
theorem fold?_const (v : Value) (seen : Body) : fold? (Op.const v).plain seen = none := by
  unfold fold?
  split <;> rfl

/-- **Folding settles all that it passes**: behind it no two constants are followed by an operation
that could have been evaluated on them. -/
theorem settled_foldFrom {seen : Body} (rest : Body) (h : Settled seen) :
    Settled (foldFrom seen rest).body.reverse := by
  fun_induction foldFrom seen rest with
  | case1 seen =>
    rw [List.reverse_reverse]
    exact h
  | case2 seen i rest x below hfold out ih =>
    obtain ⟨m, m', rfl, -, -⟩ := fold?_eq_some hfold
    refine ih (Settled.cons (h.of_suffix ?_) (fold?_const x.value below))
    exact (List.suffix_cons _ _).trans (List.suffix_cons _ _)
  | case3 seen i rest hfold ih => exact ih (h.cons hfold)

/-- In a settled body no fold is made, and so the pass is done after one application. -/
theorem folds_of_settled {seen rest : Body} (h : Settled (rest.reverse ++ seen)) :
    (foldFrom seen rest).folds = [] := by
  fun_induction foldFrom seen rest with
  | case1 seen => rfl
  | case2 seen i rest x below hfold out ih =>
    have hnone : fold? i seen = none := h i seen ⟨rest.reverse, by simp⟩
    rw [hfold] at hnone
    cases hnone
  | case3 seen i rest hfold ih => exact ih (by simpa using h)

/-- Nothing can be folded in a body exactly if no three of its instructions in a row can be. -/
theorem settled_iff {body : Body} : Settled body.reverse ↔ ∀ x y z, [x, y, z] <:+: body →
    Positional.evaluate x.op y.op z.op = none := by
  constructor
  · rintro h x y z ⟨before, after, rfl⟩
    have hz := h z (y :: x :: before.reverse) ⟨after.reverse, by simp⟩
    rwa [Positional.fold?_pair, Option.map_eq_none_iff] at hz
  · rintro h z below ⟨after, hbody⟩
    match below, hbody with
    | [], _ | [_], _ => simp [fold?]
    | y :: x :: below, hbody =>
      rw [Positional.fold?_pair, Option.map_eq_none_iff]
      refine h x y z ⟨below.reverse, after.reverse, ?_⟩
      rw [← List.reverse_inj, ← hbody]
      simp

/-! ## 5. The pass

One application makes all folds, and a second one none (`fold`). -/

theorem folds_eq_nil_iff {f : Function} :
    (foldConstants f).2.1 = false ↔ (foldBody f.body).folds = [] := by
  simp [foldConstants]

/-- A change is reported exactly if there is one. That every fold makes the body shorter is what
excludes a change that changes nothing. -/
theorem changed_iff {f : Function} :
    (foldConstants f).2.1 = true ↔ (foldConstants f).1.body ≠ f.body := by
  constructor
  · intro hchanged hsame
    have hlength : f.body.length = (foldBody f.body).body.length
        + 2 * (foldBody f.body).folds.length := (foldsTo_foldFrom [] f.body).length
    rw [show (foldBody f.body).body = f.body from hsame] at hlength
    have hnil : (foldBody f.body).folds = [] := List.length_eq_zero_iff.mp (by omega)
    rw [folds_eq_nil_iff.mpr hnil] at hchanged
    cases hchanged
  · intro hbody
    cases hchanged : (foldConstants f).2.1 with
    | true => rfl
    | false =>
      rw [foldConstants_unchanged hchanged] at hbody
      exact absurd rfl hbody

/-- **Constant folding is complete and sound.**  One pass leaves no three instructions in a row that
could be folded, so a second pass does nothing; it tells whether it has changed the body; and it
replaces operations on constants by exact values, so that a well-nested body is evaluated to the
same outcome as before on every machine, from every stack and in every state. -/
theorem foldConstants_sound_complete (f : Function) :
    let out := foldConstants f
    let folds := (foldBody f.body).folds
    (∀ x y z, [x, y, z] <:+: out.1.body → Positional.evaluate x.op y.op z.op = none) ∧
      (foldConstants out.1).2.1 = false ∧ (foldConstants out.1).1 = out.1 ∧
      (out.2.1 = true ↔ out.1.body ≠ f.body) ∧ out.1 = { f with body := out.1.body } ∧
      FoldsTo f.body folds out.1.body ∧ (∀ x ∈ folds, x.Exact) ∧
      ∀ c, Code.parse f.body.ops = some c →
        ∃ c', Code.parse out.1.body.ops = some c' ∧ c.Equivalent c' := by
  intro out folds
  have hsettled : Settled out.1.body.reverse := settled_foldFrom f.body settled_nil
  have hagain : (foldConstants out.1).2.1 = false := by
    refine folds_eq_nil_iff.mpr (folds_of_settled ?_)
    rwa [List.append_nil]
  have hrun : FoldsTo f.body folds out.1.body := foldsTo_foldFrom [] f.body
  exact ⟨settled_iff.mp hsettled, hagain, foldConstants_unchanged hagain, changed_iff, rfl, hrun,
    hrun.exact, fun c hc => hrun.equivalent hc⟩

/-- A function whose operations stand on constants in turn, until one of them takes two bytes. -/
def cascade : Function where
  index := 0
  name := "cascade"
  params := []
  locals := ⟨[], by decide +kernel⟩
  result := some .i32
  body := [.enter .block (some .i32), .const (.i32 2), .const (.i32 3), .const (.i32 4),
    .num .i32Mul, .num .i32Add, .const (.i32 60), .num .i32Mul, .const (.i32 1), .num .i32Sub,
    .close].map Op.plain
  throws := false
  usesMemory := false

theorem foldConstants_sound_complete_cascade :
    (foldConstants cascade).1.body = [.enter .block (some .i32), .const (.i32 840),
        .const (.i32 1), .num .i32Sub, .close].map Op.plain ∧
      ∃ c c', Code.parse cascade.body.ops = some c ∧
        Code.parse (foldConstants cascade).1.body.ops = some c' ∧ c.Equivalent c' := by
  refine ⟨by decide +kernel, ?_⟩
  have hparse : (Code.parse cascade.body.ops).isSome := by decide +kernel
  obtain ⟨c, hc⟩ := Option.isSome_iff_exists.mp hparse
  obtain ⟨c', hc', h⟩ := (foldConstants_sound_complete cascade).2.2.2.2.2.2.2 c hc
  exact ⟨c, c', hc, hc', h⟩

end Folding

end WasmTrim
