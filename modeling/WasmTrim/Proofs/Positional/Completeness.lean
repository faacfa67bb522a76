/-
# What a scan leaves behind

A scan goes over a body once, and after a rule it goes back only to the first place the rule has
touched.  That is far enough: twelve of the rules look at nothing behind the instruction in focus,
so whether they apply there is settled once the scan has stepped over it, and stays settled as long
as nothing before it changes.  At the end they apply nowhere (`settled_scanFrom`).

The other five look ahead or at the whole body, and a later rule can make room for them.  Only a
scan that has applied no rule at all shows that they apply nowhere either (`firings_eq_nil_iff`).

Both are then stated for the rules by position, with the regions open at each position computed
from the body up to there (`simplify_complete`).

Why the scan may step over an instruction for good is the point of the module.  A later rule leaves
alone all that stands before the place where the scan goes on after it, and that place is before its
focus (`Peephole.reduceAt_resumes`).  So what the scan has passed and not come back to is as it was
when it was passed, and the rules that look back depend on nothing else
(`Peephole.reduceAt_eq_none_of_rest`).  That is the invariant `Peephole.Settled`, and one induction
along the scan keeps it.

For the five other rules it fails, and for a reason one can point at: a dead store is recognized by
there being no read of the local in the whole body, and the last read of it may be removed later in
the same scan.
-/
import WasmTrim.Proofs.Idempotence
import WasmTrim.Proofs.Positional.Passes

namespace WasmTrim.Peephole

/-! ## 1. Rules on two instructions

Ten rules look at the instruction in focus and at the one before it.  They have the same form, and
what is said about that form is said once. -/

/-- **What a rule does with its focus between `seen` and `rest`**: nothing changes before the place
where the scan goes on, that place is before the focus, and the body does not get longer. -/
structure Resumes (seen rest : Body) (c : Cursor) : Prop where
  untouched : c.seen <:+ seen
  shorter : c.seen.length + c.rest.length ≤ seen.length + rest.length + 1

open Positional in
/-- A rule that turns the last two instructions into what a pattern says. -/
structure ActsOnPair (rule : Cursor → Option Cursor)
    (pattern : Body → Instr → Instr → Option PairEdit) : Prop where
  alone : ∀ y rest, rule ⟨[y], rest⟩ = none
  pair : ∀ y x seen rest, rule ⟨y :: x :: seen, rest⟩
    = (pattern seen x y).map fun e => ⟨seen, e.rest x y ++ rest⟩

namespace ActsOnPair

open Positional

variable {rule : Cursor → Option Cursor} {pattern : Body → Instr → Instr → Option PairEdit}
  {y : Instr} {seen rest : Body}

/-- Such a rule does not ask what follows: where it does not apply, it does not apply with any other
rest. -/
theorem eq_none (h : ActsOnPair rule pattern) (hnone : rule ⟨y :: seen, rest⟩ = none)
    (rest' : Body) : rule ⟨y :: seen, rest'⟩ = none := by
  cases seen with
  | nil => exact h.alone y rest'
  | cons x seen =>
    rw [h.pair, Option.map_eq_none_iff] at hnone ⊢
    exact hnone

/-- Such a rule touches only the two, so the scan goes on from what was before them. -/
theorem resumes {c : Cursor} (h : ActsOnPair rule pattern)
    (hsome : rule ⟨y :: seen, rest⟩ = some c) : Resumes seen rest c := by
  cases seen with
  | nil =>
    rw [h.alone] at hsome
    cases hsome
  | cons x seen =>
    rw [h.pair] at hsome
    obtain ⟨e, -, rfl⟩ := Option.map_eq_some_iff.mp hsome
    have hle : (e.rest x y).length ≤ 1 := by cases e <;> simp [PairEdit.rest]
    refine ⟨List.suffix_cons x seen, ?_⟩
    simp only [List.length_append, List.length_cons]
    omega

end ActsOnPair

section

open Positional

theorem setGet_actsOnPair : ActsOnPair setGet fun _ x y => setGetPattern x.op y.op :=
  ⟨fun ⟨op, _⟩ _ => by cases op <;> rfl, fun _ _ _ _ => setGet_pair⟩

theorem getDrop_actsOnPair : ActsOnPair getDrop fun _ x y => getDropPattern x.op y.op :=
  ⟨fun ⟨op, _⟩ _ => by cases op <;> rfl, fun _ _ _ _ => getDrop_pair⟩

theorem teeDrop_actsOnPair : ActsOnPair teeDrop fun _ x y => teeDropPattern x.op y.op :=
  ⟨fun ⟨op, _⟩ _ => by cases op <;> rfl, fun _ _ _ _ => teeDrop_pair⟩

theorem constDrop_actsOnPair : ActsOnPair constDrop fun _ x y => constDropPattern x.op y.op :=
  ⟨fun ⟨op, _⟩ _ => by cases op <;> rfl, fun _ _ _ _ => constDrop_pair⟩

theorem eqz_actsOnPair : ActsOnPair eqz fun _ x y => eqzPattern x.op y.op :=
  ⟨fun _ _ => by unfold eqz; split <;> simp_all, fun _ _ _ _ => eqz_pair⟩

theorem extendWrap_actsOnPair : ActsOnPair extendWrap fun _ x y => extendWrapPattern x.op y.op :=
  ⟨fun _ _ => by unfold extendWrap; split <;> simp_all, fun _ _ _ _ => extendWrap_pair⟩

theorem convertTrunc_actsOnPair :
    ActsOnPair convertTrunc fun _ x y => convertTruncPattern x.op y.op :=
  ⟨fun ⟨op, _⟩ _ => by cases op <;> rfl, fun _ _ _ _ => convertTrunc_pair⟩

theorem foldTrunc_actsOnPair : ActsOnPair foldTrunc fun _ x y => foldTruncPattern x.op y.op :=
  ⟨fun ⟨op, _⟩ _ => by cases op <;> rfl, fun _ _ _ _ => foldTrunc_pair⟩

theorem foldConvert_actsOnPair :
    ActsOnPair foldConvert fun _ x y => foldConvertPattern x.op y.op :=
  ⟨fun ⟨op, _⟩ _ => by cases op <;> rfl, fun _ _ _ _ => foldConvert_pair⟩

theorem tailCall_actsOnPair (s : Scope) : ActsOnPair (tailCall s) fun seen x y =>
    tailCallPattern s (Nesting.ofReversed (y :: x :: seen)) x.op y.op :=
  ⟨fun ⟨op, _⟩ _ => by cases op <;> rfl, fun _ _ _ _ => tailCall_pair s⟩

end

/-! ## 2. Rules that look back

The rules on two instructions, and two longer ones that end at their focus as well: the increment
whose result is dropped or left behind (`post_increment`), and the dispatch without cases
(`empty_type_switch`). -/

/-- Whether a rule looks only at what ends with the instruction in focus. -/
def Rule.looksBack : Rule → Bool
  | setGet | getDrop | teeDrop | constDrop | eqz | extendWrap | convertTrunc | foldTrunc
  | foldConvert | tailCall | postIncrement | emptyTypeSwitch => true
  | loopIncrement | paramShuffle | transparentBlock | deadTypeCase | deadLastType => false

section

variable {s : Scope} {y : Instr} {seen rest : Body}

theorem postIncrement_eq_none_of_rest (h : postIncrement s ⟨y :: seen, rest⟩ = none)
    (rest' : Body) : postIncrement s ⟨y :: seen, rest'⟩ = none := by
  unfold postIncrement at h ⊢
  split
  · rename_i last written mw op mo v mv second m first m' below _ e
    simp only [Cursor.mk.injEq, List.cons.injEq] at e
    obtain ⟨⟨rfl, rfl⟩, -⟩ := e
    dsimp only at h
    split
    · rename_i hc
      rw [if_pos hc] at h
      split at h
      · cases h
      · split at h
        · cases h
        · rename_i harity
          rw [if_neg harity]
      · rfl
    · rfl
  · rfl

theorem emptyTypeSwitch_eq_none_of_rest (h : emptyTypeSwitch ⟨y :: seen, rest⟩ = none)
    (rest' : Body) : emptyTypeSwitch ⟨y :: seen, rest'⟩ = none := by
  unfold emptyTypeSwitch at h ⊢
  split
  · rename_i e
    simp only [Cursor.mk.injEq, List.cons.injEq] at e
    obtain ⟨⟨rfl, rfl⟩, -⟩ := e
    cases h
  · rfl

/-- **A rule that looks back** is decided by what stands before the cursor. If it does not apply
there, no later change behind the focus can make it apply. -/
theorem reduceAt_eq_none_of_rest {r : Rule} (hr : r.looksBack)
    (h : reduceAt s ⟨y :: seen, rest⟩ r = none) (rest' : Body) :
    reduceAt s ⟨y :: seen, rest'⟩ r = none := by
  cases r with
  | setGet => exact setGet_actsOnPair.eq_none h rest'
  | getDrop => exact getDrop_actsOnPair.eq_none h rest'
  | teeDrop => exact teeDrop_actsOnPair.eq_none h rest'
  | constDrop => exact constDrop_actsOnPair.eq_none h rest'
  | eqz => exact eqz_actsOnPair.eq_none h rest'
  | extendWrap => exact extendWrap_actsOnPair.eq_none h rest'
  | convertTrunc => exact convertTrunc_actsOnPair.eq_none h rest'
  | foldTrunc => exact foldTrunc_actsOnPair.eq_none h rest'
  | foldConvert => exact foldConvert_actsOnPair.eq_none h rest'
  | tailCall => exact (tailCall_actsOnPair s).eq_none h rest'
  | postIncrement => exact postIncrement_eq_none_of_rest h rest'
  | emptyTypeSwitch => exact emptyTypeSwitch_eq_none_of_rest h rest'
  | loopIncrement | paramShuffle | transparentBlock | deadTypeCase | deadLastType => cases hr

/-! ## 3. Where a scan goes on

All rules take part here, also those that look ahead: where the scan goes on depends on what a rule
has changed, not on what it has looked at. -/

variable {c : Cursor}

theorem loopIncrement_resumes (h : loopIncrement ⟨y :: seen, rest⟩ = some c) :
    Resumes seen rest c := by
  unfold loopIncrement at h
  split at h
  · rename_i e
    simp only [Cursor.mk.injEq, List.cons.injEq] at e
    obtain ⟨⟨-, rfl⟩, rfl⟩ := e
    split at h
    · obtain rfl := Option.some.inj h
      exact ⟨List.suffix_refl _, by simp only [List.length_cons]; omega⟩
    · cases h
  · cases h

theorem postIncrement_resumes (h : postIncrement s ⟨y :: seen, rest⟩ = some c) :
    Resumes seen rest c := by
  unfold postIncrement at h
  split at h
  · rename_i last written mw op mo v mv second m first m' below _ e
    simp only [Cursor.mk.injEq, List.cons.injEq] at e
    obtain ⟨⟨-, rfl⟩, rfl⟩ := e
    have hbelow : below <:+ ⟨.localSet written, mw⟩ :: ⟨.num op, mo⟩ :: ⟨.const v, mv⟩
        :: ⟨.localGet second, m⟩ :: ⟨.localGet first, m'⟩ :: below :=
      ⟨[_, _, _, _, _], rfl⟩
    split at h
    · split at h
      · obtain rfl := Option.some.inj h
        exact ⟨hbelow, by simp only [List.length_cons]; omega⟩
      · split at h
        · obtain rfl := Option.some.inj h
          exact ⟨hbelow, by simp only [List.length_cons]; omega⟩
        · cases h
      · cases h
    · cases h
  · cases h

theorem paramShuffle_resumes (h : paramShuffle ⟨y :: seen, rest⟩ = some c) :
    Resumes seen rest c := by
  unfold paramShuffle at h
  split at h
  · rename_i e
    simp only [Cursor.mk.injEq, List.cons.injEq] at e
    obtain ⟨⟨-, rfl⟩, rfl⟩ := e
    split at h
    · obtain rfl := Option.some.inj h
      exact ⟨⟨[_, _], rfl⟩, by simp only [List.length_cons]; omega⟩
    · cases h
  · cases h

theorem transparentBlock_resumes (h : transparentBlock ⟨y :: seen, rest⟩ = some c) :
    Resumes seen rest c := by
  unfold transparentBlock at h
  split at h
  · rename_i e
    simp only [Cursor.mk.injEq, List.cons.injEq] at e
    obtain ⟨⟨-, rfl⟩, rfl⟩ := e
    obtain ⟨k, -, h⟩ := Option.bind_eq_some_iff.mp h
    split at h
    · cases h
    · rename_i last after hdrop
      split at h
      · cases h
      · obtain rfl := Option.some.inj h
        have hcut := congrArg List.length (List.take_append_drop k rest)
        rw [hdrop, List.length_append, List.length_cons] at hcut
        exact ⟨List.suffix_refl _, by simp only [List.length_append]; omega⟩
  · cases h

theorem deadTypeCase_resumes (h : deadTypeCase s ⟨y :: seen, rest⟩ = some c) :
    Resumes seen rest c := by
  simp only [deadTypeCase] at h
  split at h
  · split at h
    · cases h
    · split at h
      · rename_i result m inside hinside
        obtain ⟨k, -, h⟩ := Option.bind_eq_some_iff.mp h
        have hguard := (weight_dropWhile_le (fun i => !stopsGuard i) (y :: rest)).2
        rw [hinside, List.length_cons, List.length_cons] at hguard
        split at h
        · rename_i arm harm
          obtain rfl := Option.some.inj h
          have harm' := (weight_of_afterElse harm).2
          rw [List.length_take] at harm'
          refine ⟨List.suffix_refl _, ?_⟩
          simp only [List.length_append, List.length_cons, List.length_drop]
          omega
        · obtain rfl := Option.some.inj h
          refine ⟨List.suffix_refl _, ?_⟩
          simp only [List.length_drop]
          omega
      · cases h
  · cases h

theorem emptyTypeSwitch_resumes (h : emptyTypeSwitch ⟨y :: seen, rest⟩ = some c) :
    Resumes seen rest c := by
  unfold emptyTypeSwitch at h
  split at h
  · rename_i e
    simp only [Cursor.mk.injEq, List.cons.injEq] at e
    obtain ⟨⟨-, rfl⟩, rfl⟩ := e
    obtain rfl := Option.some.inj h
    exact ⟨⟨[_, _], rfl⟩, by simp only [List.length_cons]; omega⟩
  · cases h

theorem deadLastType_resumes (h : deadLastType s ⟨y :: seen, rest⟩ = some c) :
    Resumes seen rest c := by
  unfold deadLastType at h
  split at h
  · rename_i e
    simp only [Cursor.mk.injEq, List.cons.injEq] at e
    obtain ⟨⟨-, rfl⟩, rfl⟩ := e
    split at h
    · obtain rfl := Option.some.inj h
      exact ⟨List.suffix_refl _, by simp only [List.length_cons]; omega⟩
    · cases h
  · rename_i e
    simp only [Cursor.mk.injEq, List.cons.injEq] at e
    obtain ⟨⟨-, rfl⟩, rfl⟩ := e
    split at h
    · obtain rfl := Option.some.inj h
      exact ⟨List.suffix_refl _, Nat.le_succ _⟩
    · cases h
  · cases h

/-- **A scan goes on before the focus**, in a body that is not longer, and everything before that
place is as it was. This holds of all rules, also of those that look ahead. -/
theorem reduceAt_resumes {r : Rule} (h : reduceAt s ⟨y :: seen, rest⟩ r = some c) :
    Resumes seen rest c := by
  cases r with
  | setGet => exact setGet_actsOnPair.resumes h
  | getDrop => exact getDrop_actsOnPair.resumes h
  | teeDrop => exact teeDrop_actsOnPair.resumes h
  | constDrop => exact constDrop_actsOnPair.resumes h
  | eqz => exact eqz_actsOnPair.resumes h
  | extendWrap => exact extendWrap_actsOnPair.resumes h
  | convertTrunc => exact convertTrunc_actsOnPair.resumes h
  | foldTrunc => exact foldTrunc_actsOnPair.resumes h
  | foldConvert => exact foldConvert_actsOnPair.resumes h
  | tailCall => exact (tailCall_actsOnPair s).resumes h
  | loopIncrement => exact loopIncrement_resumes h
  | postIncrement => exact postIncrement_resumes h
  | paramShuffle => exact paramShuffle_resumes h
  | transparentBlock => exact transparentBlock_resumes h
  | deadTypeCase => exact deadTypeCase_resumes h
  | emptyTypeSwitch => exact emptyTypeSwitch_resumes h
  | deadLastType => exact deadLastType_resumes h

end

/-! ## 4. The part of a body that is settled

The instructions before the cursor, the last one first, as the scan keeps them. -/

/-- Some instructions, last one first, among which no rule that looks back applies. -/
def Settled (s : Scope) (seen : Body) : Prop :=
  ∀ y below, y :: below <:+ seen → ∀ r : Rule, r.looksBack → ∀ rest,
    reduceAt s ⟨y :: below, rest⟩ r = none

theorem Settled.nil (s : Scope) : Settled s [] := by
  intro y below hsuffix
  cases List.suffix_nil.mp hsuffix

theorem Settled.of_suffix {s : Scope} {seen below : Body} (h : Settled s seen)
    (hsuffix : below <:+ seen) : Settled s below :=
  fun y below' hb r hr rest => h y below' (hb.trans hsuffix) r hr rest

/-- One step over an instruction at which no rule applies. -/
theorem Settled.cons {s : Scope} {y : Instr} {seen rest : Body} (h : Settled s seen)
    (hy : firstMatch Rule.all s ⟨y :: seen, rest⟩ = none) : Settled s (y :: seen) := by
  intro z below hsuffix r hr rest'
  rcases List.suffix_cons_iff.mp hsuffix with e | hsuffix
  · obtain ⟨rfl, rfl⟩ := List.cons.inj e
    exact reduceAt_eq_none_of_rest hr (firstMatch_eq_none_iff.mp hy r r.mem_all) rest'
  · exact h z below hsuffix r hr rest'

/-- **A scan settles all that it passes.** The part that was settled before stays so, except for
what a rule has sent the scan back over, and that is passed once more. -/
theorem settled_scanFrom {s : Scope} {seen : Body} (rest : Body) (h : Settled s seen) :
    Settled s (scanFrom Rule.all s seen rest).body.reverse := by
  fun_induction scanFrom Rule.all s seen rest with
  | case1 seen =>
    rw [List.reverse_reverse]
    exact h
  | case2 seen y rest r c hmatch _ out ih =>
    exact ih (h.of_suffix (reduceAt_resumes (reduceAt_of_firstMatch hmatch).2).untouched)
  | case3 seen y rest hmatch ih => exact ih (h.cons hmatch)

/-- **A scan that applies nothing** has tried every rule at every instruction, each time on the body
as it was given. So it is exact: nothing was applied if and only if nothing applies. -/
theorem firings_eq_nil_iff {s : Scope} (seen rest : Body) :
    (scanFrom Rule.all s seen rest).firings = [] ↔ ∀ before y after, rest = before ++ y :: after →
      ∀ r, reduceAt s ⟨y :: (before.reverse ++ seen), after⟩ r = none := by
  fun_induction scanFrom Rule.all s seen rest with
  | case1 seen => simp
  | case2 seen y rest r c hmatch _ out ih =>
    refine ⟨fun h => absurd h (List.cons_ne_nil _ _), fun h => ?_⟩
    have hnone := h [] y rest rfl r
    have hsome := (reduceAt_of_firstMatch hmatch).2
    rw [List.reverse_nil, List.nil_append, hsome] at hnone
    cases hnone
  | case3 seen y rest hmatch ih =>
    rw [ih]
    constructor
    · intro h before z after e r
      cases before with
      | nil =>
        obtain ⟨rfl, rfl⟩ := List.cons.inj e
        exact firstMatch_eq_none_iff.mp hmatch r r.mem_all
      | cons x before =>
        obtain ⟨rfl, rfl⟩ := List.cons.inj e
        simpa using h before z after rfl r
    · intro h before z after e r
      simpa using h (y :: before) z after (by rw [e]; rfl) r

end WasmTrim.Peephole

/-! ## 5. By position

A reader of the result should not have to know about cursors, so it is stated with positions and
with a tracker of regions that is built afresh for each of them (`open_at`). -/

namespace WasmTrim.Positional

open Peephole

/-- A rule does not apply at a position, with the regions open there, iff it does not apply to the
cursor behind that position. -/
theorem attempt_eq_none_iff {verbose : Bool} {s : Scope} {r : Rule} (before after : Body)
    (y : Instr) :
    attempt verbose s (Nesting.ofBody ((before ++ y :: after).take (before.length + 1)))
        (before ++ y :: after) before.length r = .ok none
      ↔ reduceAt s ⟨y :: before.reverse, after⟩ r = none := by
  have htake : (before ++ y :: after).take (before.length + 1) = (y :: before.reverse).reverse := by
    simp [List.take_append, List.take_of_length_le]
  have hattempt := attempt_eq verbose s y before.reverse after r
  rw [List.reverse_reverse, List.length_reverse] at hattempt
  rw [htake, ← Nesting.ofReversed_eq, hattempt, Except.ok.injEq, Option.map_eq_none_iff]

/-- At a position the body can be cut into what is before it, the instruction there and the rest. -/
theorem cut_of_lt {body : Body} {i : Nat} (hi : i < body.length) :
    ∃ before y after, body = before ++ y :: after ∧ i = before.length := by
  refine ⟨body.take i, body.get ⟨i, hi⟩, body.drop (i + 1), ?_, ?_⟩
  · rw [List.get_eq_getElem, List.getElem_cons_drop, List.take_append_drop]
  · rw [List.length_take_of_le (Nat.le_of_lt hi)]

/-- **One scan is complete** for the rules that look back: at no position of the body it leaves
does one of them apply.  It reports no change exactly if at no position of the body it was given
any rule applies, and then it has changed nothing. -/
theorem simplify_complete (ctx : Context) (f : Function) :
    (∀ i < (simplify ctx f).1.body.length, ∀ r : Rule, r.looksBack → ∀ verbose,
      attempt verbose (ctx.scope (simplify ctx f).1)
        (Nesting.ofBody ((simplify ctx f).1.body.take (i + 1))) (simplify ctx f).1.body i r
        = .ok none) ∧
    ((simplify ctx f).2.1 = false ↔ ∀ i < f.body.length, ∀ r ∈ Rule.all, ∀ verbose,
      attempt verbose (ctx.scope f) (Nesting.ofBody (f.body.take (i + 1))) f.body i r
        = .ok none) ∧
    ((simplify ctx f).2.1 = false → (simplify ctx f).1 = f) := by
  refine ⟨?_, ?_, simplify_unchanged⟩
  · intro i hi r hr verbose
    obtain ⟨before, y, after, hbody, rfl⟩ := cut_of_lt hi
    have hsettled := settled_scanFrom f.body (Settled.nil (ctx.scope f))
    have hscan : (scanFrom Rule.all (ctx.scope f) [] f.body).body = before ++ y :: after := hbody
    rw [hscan] at hsettled
    rw [hbody, attempt_eq_none_iff]
    exact hsettled y before.reverse ⟨after.reverse, by simp⟩ r hr after
  · have hchanged : (simplify ctx f).2.1 = false
        ↔ (scanFrom Rule.all (ctx.scope f) [] f.body).firings = [] := by
      simp [simplify, scan, Outcome.changed]
    rw [hchanged, firings_eq_nil_iff]
    simp only [List.append_nil]
    constructor
    · intro h i hi r _ verbose
      obtain ⟨before, y, after, hbody, rfl⟩ := cut_of_lt hi
      rw [hbody, attempt_eq_none_iff]
      exact h before y after hbody r
    · intro h before y after hbody r
      have hr := h before.length (by simp [hbody]) r r.mem_all false
      rwa [hbody, attempt_eq_none_iff] at hr

end WasmTrim.Positional
