/-
# Frames that allow more

When code is replaced by other code, the checker may know less about the operands afterwards than
it did before: their types may be unknown where they were known, and behind code from which
control does not run on there may be fewer of them.  A frame is *looser* than another if it
differs in this way (`Typing.Looser`).  Whatever may be done to a frame may be done to a looser
one (`Typing.Step.looser`), so the code that follows is still well typed
(`Typing.checkAll_looser`).

This is what makes it possible to rewrite in the middle of a body without looking at the rest.  A
rewrite shows that its new code leaves frames that are looser than those the old code left; what
comes behind is the same code before and after, and is checked from looser frames.  The order on
operands is the plainest there is, same or unknown, and it is carried up to frames and to states one
level at a time.

There is one step in which operands that were known become unknown by themselves, at an operation
from which control does not run on.  Behind it both frames are empty and the same.
-/
import Mathlib.Data.List.Forall2
import WasmTrim.Proofs.Typing.Steps

namespace WasmTrim.Typing

open Validation

/-! ## 1. Looser operands

An unknown operand serves as anything.  Where two operands must agree, as those of a `select`,
knowing less of one of them leaves an answer that knows no more. -/

/-- The second operand is the same, or nothing is known about it. Nothing is known of an operand
that an unreachable frame has made up. -/
def LooserOperand (o o' : Operand) : Prop := o' = o ∨ o' = .unknown

namespace LooserOperand

variable {o o' : Operand}

theorem refl (o : Operand) : LooserOperand o o := .inl rfl

theorem trans {o'' : Operand} (h : LooserOperand o o') (h' : LooserOperand o' o'') :
    LooserOperand o o'' := by
  rcases h' with rfl | rfl
  · exact h
  · exact .inr rfl

theorem serves (h : LooserOperand o o') {t : OperandType} (hs : o.serves t) : o'.serves t := by
  rcases h with rfl | rfl
  · exact hs
  · rfl

/-- An operand that serves as a number has its type, if anything is known about it. -/
theorem of_serves {t : ValueType} (h : o.serves (.num t)) : LooserOperand (.known (.num t)) o := by
  cases o with
  | unknown => exact .inr rfl
  | unknownRef => cases h
  | known u =>
    cases u with
    | num u =>
      simp only [Operand.serves, OperandType.serves_num, decide_eq_true_eq] at h
      exact .inl (by rw [h])
    | _ => simp [Operand.serves, OperandType.serves] at h

/-- Operands with a common type are looser than an operand of that type, and less may be known
about either. -/
theorem of_join? {a b : Operand} (h : Operand.join? a b = some o) :
    LooserOperand o a ∧ LooserOperand o b ∧ Operand.join? a .unknown = some a ∧
      Operand.join? .unknown b = some b := by
  rcases a with _ | _ | (_ | _ | _ | _) <;> rcases b with _ | _ | (_ | _ | _ | _) <;>
    simp_all [Operand.join?, LooserOperand]

theorem join? {a a' b b' : Operand} (ha : LooserOperand a a') (hb : LooserOperand b b')
    (h : Operand.join? a b = some o) :
    ∃ o', Operand.join? a' b' = some o' ∧ LooserOperand o o' := by
  obtain ⟨hoa, hob, hja, hjb⟩ := of_join? h
  rcases ha with rfl | rfl <;> rcases hb with rfl | rfl
  · exact ⟨o, h, .refl o⟩
  · exact ⟨a', hja, hoa⟩
  · exact ⟨b', hjb, hob⟩
  · exact ⟨.unknown, rfl, .inr rfl⟩

end LooserOperand

/-- The operands of an unreachable frame, or of one that is not, are looser one by one; those
that lie lowest may be missing if the second frame is unreachable. -/
inductive LooserOperands (before after : Bool) : List Operand → List Operand → Prop where
  | nil (h : before = false) : LooserOperands before after [] []
  | cut (h : after = true) (os : List Operand) : LooserOperands before after os []
  | cons {o o' : Operand} {os os' : List Operand} (head : LooserOperand o o')
    (tail : LooserOperands before after os os') :
    LooserOperands before after (o :: os) (o' :: os')

namespace LooserOperands

theorem refl (unreachable : Bool) :
    ∀ os : List Operand, LooserOperands unreachable unreachable os os
  | [] => by
    cases unreachable with
    | false => exact .nil rfl
    | true => exact .cut rfl []
  | o :: os => .cons (.refl o) (refl unreachable os)

theorem trans {a b c : Bool} {os os' os'' : List Operand} (h : LooserOperands a b os os')
    (h' : LooserOperands b c os' os'') : LooserOperands a c os os'' := by
  induction h generalizing os'' with
  | nil ha =>
    cases h' with
    | nil _ => exact .nil ha
    | cut hc _ => exact .cut hc []
  | cut hb os =>
    cases h' with
    | nil hb' => exact absurd hb (by simp [hb'])
    | cut hc _ => exact .cut hc os
  | cons head _ ih =>
    cases h' with
    | cut hc _ => exact .cut hc _
    | cons head' tail' => exact .cons (head.trans head') (ih tail')

theorem eq_nil {a b : Bool} {os : List Operand} (h : LooserOperands a b [] os) : os = [] := by
  cases h <;> rfl

end LooserOperands

/-! ## 2. Looser frames

An unreachable frame gives operands that are not there.  So if the looser frame is unreachable it
may have fewer operands than the other, and the lowest ones are those that may be missing. -/

/-- **The second frame allows more**: it belongs to the same region, and less is known about its
operands. -/
structure Looser (f g : Frame) : Prop extends Alike f g where
  operands : LooserOperands f.unreachable g.unreachable f.operands g.operands

namespace Looser

variable {f g : Frame}

theorem refl (f : Frame) : Looser f f := ⟨.refl f, .refl _ _⟩

theorem trans {h : Frame} (hfg : Looser f g) (hgh : Looser g h) : Looser f h :=
  ⟨hfg.toAlike.trans hgh.toAlike, hfg.operands.trans hgh.operands⟩

theorem pushOperand (h : Looser f g) {o o' : Operand} (ho : LooserOperand o o') :
    Looser (f.pushOperand o) (g.pushOperand o') := ⟨⟨h.kind, h.type⟩, .cons ho h.operands⟩

theorem pushAll (h : Looser f g) (ts : List OperandType) :
    Looser (f.pushAll ts) (g.pushAll ts) := by
  induction ts generalizing f g with
  | nil => exact h
  | cons t ts ih => exact ih (h.pushOperand (.refl _))

theorem stop (h : Looser f g) : Looser f.stop g.stop := ⟨⟨h.kind, h.type⟩, .cut rfl []⟩

/-- What can be popped can be popped from a looser frame, with less known about it. -/
theorem popAny (h : Looser f g) {o : Operand} {f' : Frame} (hp : f.popAny = some (o, f')) :
    ∃ o' g', g.popAny = some (o', g') ∧ LooserOperand o o' ∧ Looser f' g' := by
  obtain ⟨⟨hk, ht⟩, ho⟩ := h
  obtain ⟨kind, type, os, u⟩ := f
  obtain ⟨kind', type', os', u'⟩ := g
  simp only at hk ht ho
  cases ho with
  | nil hu =>
    simp only [Frame.popAny, hu] at hp
    cases hp
  | cut hu os =>
    refine ⟨.unknown, ⟨kind', type', [], u'⟩, by simp [Frame.popAny, hu], .inr rfl, ?_⟩
    have ha := Alike.popAny hp
    exact ⟨⟨hk.trans ha.kind.symm, ht.trans ha.type.symm⟩, .cut hu _⟩
  | cons head tail =>
    obtain ⟨rfl, rfl⟩ := Prod.mk.inj (Option.some.inj hp)
    exact ⟨_, _, rfl, head, ⟨hk, ht⟩, tail⟩

theorem pop (h : Looser f g) {t : OperandType} {f' : Frame} (hp : f.pop t = some f') :
    ∃ g', g.pop t = some g' ∧ Looser f' g' := by
  obtain ⟨o, ho, hs⟩ := pop_eq_some.mp hp
  obtain ⟨o', g', hg, hoo, hl⟩ := h.popAny ho
  exact ⟨g', pop_eq_some.mpr ⟨o', hg, hoo.serves hs⟩, hl⟩

theorem popAll (h : Looser f g) {ts : List OperandType} {f' : Frame}
    (hp : f.popAll ts = some f') : ∃ g', g.popAll ts = some g' ∧ Looser f' g' := by
  induction ts generalizing f' with
  | nil =>
    obtain rfl := Option.some.inj hp
    exact ⟨g, rfl, h⟩
  | cons t ts ih =>
    rw [popAll_cons] at hp
    obtain ⟨f₁, h₁, hp⟩ := Option.bind_eq_some_iff.mp hp
    obtain ⟨g₁, hg₁, hl₁⟩ := ih h₁
    obtain ⟨g', hg', hl⟩ := hl₁.pop hp
    exact ⟨g', by rw [popAll_cons, hg₁, Option.bind_some, hg'], hl⟩

/-- A frame is looser than what comes of popping a number and pushing it again. -/
theorem of_pop {t : ValueType} {f' : Frame} (hp : f.pop (.num t) = some f') :
    Looser (f'.push (.num t)) f := by
  obtain ⟨o, ho, hs⟩ := pop_eq_some.mp hp
  obtain ⟨kind, type, os, u⟩ := f
  cases os with
  | nil =>
    cases u with
    | false => cases ho
    | true =>
      obtain ⟨-, rfl⟩ := Prod.mk.inj (Option.some.inj ho)
      exact ⟨⟨rfl, rfl⟩, .cut rfl _⟩
  | cons x os =>
    obtain ⟨rfl, rfl⟩ := Prod.mk.inj (Option.some.inj ho)
    exact ⟨⟨rfl, rfl⟩, .cons (.of_serves hs) (.refl _ _)⟩

theorem of_popAll {ts : List ValueType} {f' : Frame} (hp : f.popAll (operandTypes ts) = some f') :
    Looser (f'.pushAll (operandTypes ts)) f := by
  induction ts generalizing f' with
  | nil =>
    obtain rfl := Option.some.inj hp
    exact .refl f
  | cons t ts ih =>
    rw [operandTypes, List.map_cons, popAll_cons] at hp
    obtain ⟨f₁, h₁, hp⟩ := Option.bind_eq_some_iff.mp hp
    exact ((of_pop hp).pushAll (operandTypes ts)).trans (ih h₁)

/-- A region that is complete is complete when less is known. -/
theorem isComplete (h : Looser f g) (hc : f.isComplete) : g.isComplete := by
  obtain ⟨f', hf', he⟩ := (Option.any_eq_true _ _).mp hc
  obtain ⟨g', hg', hl⟩ := h.popAll hf'
  have hempty : g'.operands = [] := (List.isEmpty_iff.mp he ▸ hl.operands).eq_nil
  unfold Frame.isComplete
  rw [h.type, hg']
  simp [hempty]

theorem isClosable (h : Looser f g) (hc : f.isClosable) : g.isClosable := by
  obtain ⟨hc, hk⟩ := Bool.and_eq_true_iff.mp hc
  refine Bool.and_eq_true_iff.mpr ⟨h.isComplete hc, ?_⟩
  rwa [h.kind, h.type]

end Looser

/-! ## 3. Looser states

By cases on the steps: what an operation takes off the first frame it can take off the second, and
what it leaves on them is again looser. -/

/-- Frame by frame, the second state allows more, and both have as many frames. -/
abbrev LooserState : Validation.State → Validation.State → Prop := List.Forall₂ Looser

theorem LooserState.refl : ∀ s : Validation.State, LooserState s s
  | [] => .nil
  | f :: s => .cons (.refl f) (refl s)

theorem LooserState.of_head {f g : Frame} (h : Looser f g) (outer : Validation.State) :
    LooserState (f :: outer) (g :: outer) := .cons h (refl outer)

theorem LooserState.trans {s s' s'' : Validation.State} (h : LooserState s s')
    (h' : LooserState s' s'') : LooserState s s'' := by
  induction h generalizing s'' with
  | nil => exact h'
  | cons hf _ ih =>
    cases h' with
    | cons hg hs => exact .cons (hf.trans hg) (ih hs)

theorem LooserState.getElem? {s s' : Validation.State} (h : LooserState s s') {i : Nat} {f : Frame}
    (hf : s[i]? = some f) : ∃ g, s'[i]? = some g ∧ Looser f g := by
  induction h generalizing i with
  | nil => cases hf
  | cons hg _ ih =>
    cases i with
    | zero =>
      obtain rfl := Option.some.inj hf
      exact ⟨_, rfl, hg⟩
    | succ i => exact ih hf

theorem LooserState.leave {f g : Frame} {s s' : Validation.State} (hf : Looser f g)
    (h : LooserState s s') : LooserState (leave f s) (leave g s') := by
  cases h with
  | nil => exact .nil
  | cons hg hs =>
    rw [Validation.leave, Validation.leave, hf.type]
    exact .cons (hg.pushAll _) hs

variable {env : Env} {f g : Frame} {outer outer' s : Validation.State} {o : Op}

/-- The operands of an operation from which control does not run on do not depend on how much is
known. -/
theorem stops?_looser (h : LooserState s outer) {takes : List OperandType}
    (hs : stops? env s o = some takes) : stops? env outer o = some takes := by
  cases o with
  | br label =>
    obtain ⟨f, hf, rfl⟩ := Option.map_eq_some_iff.mp hs
    obtain ⟨g, hg, hl⟩ := h.getElem? hf
    simp only [stops?, hg, Option.map_some, hl.labelTypes]
  | rethrow label =>
    obtain ⟨f, hf, hk⟩ := Option.bind_eq_some_iff.mp hs
    obtain ⟨g, hg, hl⟩ := h.getElem? hf
    simp only [stops?, hg, Option.bind_some, hl.kind]
    exact hk
  | _ => exact hs

/-- **What may be done to frames may be done to looser ones**, and what it leaves is looser again.
No operation asks for an operand to be unknown. -/
theorem Step.looser (h : Step env f outer o s) (hf : Looser f g) (ho : LooserState outer outer') :
    ∃ s', Step env g outer' o s' ∧ LooserState s s' := by
  cases h with
  | arrow h hp =>
    obtain ⟨g', hg', hl⟩ := hf.popAll hp
    exact ⟨_, .arrow h hg', .cons (hl.pushAll _) ho⟩
  | stop h hp =>
    obtain ⟨g', hg', hl⟩ := hf.popAll hp
    exact ⟨_, .stop (stops?_looser (.cons hf ho) h) hg', .cons hl.stop ho⟩
  | brIf ht hc hp =>
    obtain ⟨target, htarget, hlabel⟩ := (LooserState.getElem? (.cons hf ho)) ht
    obtain ⟨g₁, hg₁, h₁⟩ := hf.pop hc
    obtain ⟨g₂, hg₂, h₂⟩ := h₁.popAll hp
    rw [← hlabel.labelTypes] at hg₂ ⊢
    exact ⟨_, .brIf htarget hg₁ hg₂, .cons (h₂.pushAll _) ho⟩
  | brTable hc hl ht hp =>
    obtain ⟨g₁, hg₁, h₁⟩ := hf.pop hc
    obtain ⟨last, hlast, hlabel⟩ := (LooserState.getElem? (.cons h₁ ho)) hl
    obtain ⟨g₂, hg₂, h₂⟩ := h₁.popAll hp
    rw [← hlabel.labelTypes] at hg₂
    refine ⟨_, .brTable hg₁ hlast (fun label hm => ?_) hg₂, .cons h₂.stop ho⟩
    obtain ⟨target, htarget, hlen, hpop⟩ := ht label hm
    obtain ⟨target', htarget', hlabel'⟩ := (LooserState.getElem? (.cons h₁ ho)) htarget
    obtain ⟨x, hx⟩ := Option.isSome_iff_exists.mp hpop
    obtain ⟨y, hy, -⟩ := h₁.popAll hx
    refine ⟨target', htarget', ?_, ?_⟩
    · rw [hlabel.labelTypes, hlabel'.labelTypes, hlen]
    · rw [hlabel'.labelTypes, hy]
      rfl
  | drop hp =>
    obtain ⟨o', g', hg', -, hl⟩ := hf.popAny hp
    exact ⟨_, .drop hg', .cons hl ho⟩
  | select hc ha hb hj =>
    obtain ⟨g₁, hg₁, h₁⟩ := hf.pop hc
    obtain ⟨a', g₂, hg₂, hla, h₂⟩ := h₁.popAny ha
    obtain ⟨b', g₃, hg₃, hlb, h₃⟩ := h₂.popAny hb
    obtain ⟨o', hj', hlo⟩ := hla.join? hlb hj
    exact ⟨_, .select hg₁ hg₂ hg₃ hj', .cons (h₃.pushOperand hlo) ho⟩
  | enter hp =>
    obtain ⟨g', hg', hl⟩ := hf.popAll hp
    exact ⟨_, .enter hg', .cons (.refl _) (.cons hl ho)⟩
  | elseArm hk hc =>
    refine ⟨_, .elseArm (hf.kind.trans hk) (hf.isComplete hc), .cons ?_ ho⟩
    rw [hf.type]
    exact .refl _
  | catchTag ht hk hc =>
    refine ⟨_, .catchTag ht (by rwa [hf.kind]) (hf.isComplete hc), .cons ?_ ho⟩
    rw [hf.type]
    exact .refl _
  | catchAll hk hc =>
    refine ⟨_, .catchAll (by rwa [hf.kind]) (hf.isComplete hc), .cons ?_ ho⟩
    rw [hf.type]
    exact .refl _
  | close hc => exact ⟨_, .close (hf.isClosable hc), ho.leave hf⟩
  | delegate hk hc hl =>
    exact ⟨_, .delegate (hf.kind.trans hk) (hf.isComplete hc) (ho.length_eq ▸ hl), ho.leave hf⟩

/-- **Code is well typed in looser frames.** This is the lemma that replaces looking at the rest of
a body after a rewrite. -/
theorem checkAll_looser : ∀ {ops : List Op} {s s' t : Validation.State}, LooserState s s' →
    checkAll env s ops = some t → ∃ t', checkAll env s' ops = some t' ∧ LooserState t t'
  | [], s, s', t, hl, h => by
    obtain rfl := Option.some.inj h
    exact ⟨s', rfl, hl⟩
  | o :: ops, [], s', t, hl, h => by
    rw [checkAll_cons, checkOp_nil] at h
    cases h
  | o :: ops, f :: outer, _, t, .cons hf ho, h => by
    rw [checkAll_cons] at h
    obtain ⟨u, hu, h⟩ := Option.bind_eq_some_iff.mp h
    obtain ⟨u', hu', hl⟩ := (step_of_checkOp hu).looser hf ho
    obtain ⟨t', ht', hl'⟩ := checkAll_looser hl h
    exact ⟨t', by rw [checkAll_cons, checkOp_of_step hu', Option.bind_some, ht'], hl'⟩

end WasmTrim.Typing
