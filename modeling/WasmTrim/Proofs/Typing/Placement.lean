/-
# Code at another place

Code that is well typed in some frames does the same when there are more frames around them
(`Typing.checkAll_append_frames`).  It may also lose a frame: a block that nothing inside it leaves
may be replaced by its contents (`Typing.checkAll_unwrap`).  The operands of the block then lie on
those of the frame around it (`Typing.onto`), and the frames inside the block stay as they are
(`Typing.Grafted`).

The second statement serves two passes, the rule that takes away a block which no branch names
(`transparent_block`) and the inliner, which wraps a callee only if it has to (`prepare_body`).  It
is not obvious for the checker: inside the block the operands of the frame around are out of reach,
and without the block they are not, so that an operation may find more below it than before.  It
does not use what it finds there, since in the block it did without.

Where the block is unreachable the checker knew no bottom to it, and some of the operands that it
made up are those of the frame around.  `Typing.onto` cuts these off.
-/
import WasmTrim.Proofs.Rewrite
import WasmTrim.Proofs.Semantics.Simulation
import WasmTrim.Proofs.Typing.Looser

namespace WasmTrim.Typing

open Validation

variable {env : Env} {f : Frame} {outer s : Validation.State} {o : Op}

/-! ## 1. More frames around

A branch finds the same frame under the same number, and nothing else looks outside of the innermost
frame. -/

theorem stops?_append (more : Validation.State) {takes : List OperandType}
    (h : stops? env s o = some takes) : stops? env (s ++ more) o = some takes := by
  cases o with
  | br label =>
    obtain ⟨f, hf, rfl⟩ := Option.map_eq_some_iff.mp h
    simp only [stops?, List.getElem?_append_left (List.getElem?_eq_some_iff.mp hf).1, hf,
      Option.map_some]
  | rethrow label =>
    obtain ⟨f, hf, hk⟩ := Option.bind_eq_some_iff.mp h
    simp only [stops?, List.getElem?_append_left (List.getElem?_eq_some_iff.mp hf).1, hf,
      Option.bind_some]
    exact hk
  | _ => exact h

theorem getElem?_append_some {l more : Validation.State} {i : Nat} (h : l[i]? = some f) :
    (l ++ more)[i]? = some f := by
  rw [List.getElem?_append_left (List.getElem?_eq_some_iff.mp h).1, h]

/-- **More frames around change nothing**, as long as the frames are not all closed. A label counts
from the innermost frame, so it finds the same frame as before. -/
theorem Step.append (h : Step env f outer o s) (hs : s ≠ []) (more : Validation.State) :
    Step env f (outer ++ more) o (s ++ more) := by
  have hleave : ∀ f : Frame, leave f outer ≠ [] →
      leave f outer ++ more = leave f (outer ++ more) := by
    intro f hne
    cases outer with
    | nil => exact absurd rfl hne
    | cons g outer => rfl
  cases h with
  | arrow h hp => exact .arrow h hp
  | stop h hp => exact .stop (stops?_append more h) hp
  | brIf ht hc hp => exact .brIf (getElem?_append_some ht) hc hp
  | brTable hc hl ht hp =>
    refine .brTable hc (getElem?_append_some hl) (fun label hm => ?_) hp
    obtain ⟨target, htarget, h⟩ := ht label hm
    exact ⟨target, getElem?_append_some htarget, h⟩
  | drop hp => exact .drop hp
  | select hc ha hb hj => exact .select hc ha hb hj
  | enter hp => exact .enter hp
  | elseArm hk hc => exact .elseArm hk hc
  | catchTag ht hk hc => exact .catchTag ht hk hc
  | catchAll hk hc => exact .catchAll hk hc
  | close hc =>
    rw [hleave f hs]
    exact .close hc
  | delegate hk hc hl =>
    rw [hleave f hs]
    exact .delegate hk hc (by rw [List.length_append]; omega)

/-- Nothing is checked once all frames are closed: what leads to an open frame has started from one.
-/
theorem ne_nil_of_checkAll {ops : List Op} {t : Validation.State}
    (h : checkAll env s ops = some t) (ht : t ≠ []) : s ≠ [] := by
  rintro rfl
  cases ops with
  | nil => exact ht (Option.some.inj h).symm
  | cons o ops =>
    rw [checkAll_cons, checkOp_nil] at h
    cases h

theorem checkAll_append_frames : ∀ {ops : List Op} {s t : Validation.State},
    checkAll env s ops = some t → t ≠ [] → ∀ more : Validation.State,
      checkAll env (s ++ more) ops = some (t ++ more)
  | [], s, t, h, _, more => by
    obtain rfl := Option.some.inj h
    rfl
  | o :: ops, [], t, h, _, more => by
    rw [checkAll_cons, checkOp_nil] at h
    cases h
  | o :: ops, f :: outer, t, h, ht, more => by
    rw [checkAll_cons] at h
    obtain ⟨u, hu, h⟩ := Option.bind_eq_some_iff.mp h
    have hne : u ≠ [] := ne_nil_of_checkAll h ht
    rw [List.cons_append, checkAll_cons, checkOp_of_step ((step_of_checkOp hu).append hne more),
      Option.bind_some]
    exact checkAll_append_frames h ht more

/-! ## 2. Code that stays inside

Two things keep code inside of a block: its labels are those of regions in the block, and it closes
no more regions than it opens. -/

/-- Under the given number of regions, every label is that of a region which is open there, and
every closer finds one to close. -/
def Confined : Nat → List Op → Prop
  | _, [] => True
  | d, o :: ops =>
    if o.opensRegion then Confined (d + 1) ops
    else if o.closesRegion then o = .close ∧ 0 < d ∧ Confined (d - 1) ops
    else (∀ label ∈ o.labels, label < d) ∧ Confined d ops

mutual

/-- A code closes the regions that it opens, so the depth behind it is the depth before. -/
theorem depthFrom_code : ∀ {c : Code}, c.WellFormed → ∀ (n : Nat) (rest : List Op),
    depthFrom (n + 1) (c.ops ++ rest) = depthFrom (n + 1) rest
  | .done, _, _, _ => rfl
  | .op o c, hc, n, rest => by
    rw [Code.WellFormed] at hc
    have hp := hc.1
    simp only [Op.isPlain, Bool.and_eq_true, Bool.not_eq_true'] at hp
    simp only [Code.ops, List.cons_append, depthFrom, hp.1.1, hp.1.2, Bool.false_eq_true, if_false]
    exact depthFrom_code hc.2 n rest
  | .region kind result body arms c, hc, n, rest => by
    rw [Code.WellFormed] at hc
    simp only [Code.ops, List.cons_append, List.append_assoc, depthFrom, Op.opensRegion, if_true]
    rw [depthFrom_code hc.2.1 (n + 1), depthFrom_arms hc.2.2.1, depthFrom_code hc.2.2.2]

theorem depthFrom_arms : ∀ {a : Arms}, a.WellFormed → ∀ (n : Nat) (rest : List Op),
    depthFrom (n + 2) (a.ops ++ rest) = depthFrom (n + 1) rest
  | .close, _, _, _ => rfl
  | .delegate _, _, _, _ => rfl
  | .arm head body more, ha, n, rest => by
    rw [Arms.WellFormed] at ha
    simp only [Arms.ops, List.cons_append, List.append_assoc, depthFrom,
      Op.opensRegion_of_startsArm ha.1, Op.closesRegion_of_startsArm ha.1, Bool.false_eq_true,
      if_false]
    rw [depthFrom_code ha.2.1 (n + 1), depthFrom_arms ha.2.2]

end

/-- A piece in which the regions balance stays inside, if what it refers to does. -/
theorem confined_of_depthFrom : ∀ {ops : List Op} {d : Nat}, (depthFrom (d + 1) ops).isSome →
    (∀ o ∈ ops, ∀ label, o ≠ .delegate label) →
    (∀ before o after, ops = before ++ o :: after → ∀ label ∈ o.labels,
      ∀ m, depthFrom (d + 1) before = some (m + 1) → label < m) → Confined d ops
  | [], d, _, _, _ => trivial
  | o :: ops, d, hd, hdel, hlabels => by
    have hrest : ∀ e, (∀ before, depthFrom (e + 1) before = depthFrom (d + 1) (o :: before)) →
        Confined e ops := by
      intro e he
      refine confined_of_depthFrom (he ops ▸ hd) (fun x hx => hdel x (List.mem_cons_of_mem _ hx)) ?_
      rintro before x after rfl label hl m hm
      exact hlabels (o :: before) x after rfl label hl m (he before ▸ hm)
    rw [Confined]
    split
    · rename_i ho
      exact hrest (d + 1) fun before => by simp only [depthFrom, if_pos ho]
    · rename_i ho
      split
      · rename_i hc
        have hclose : o = .close := by
          cases o with
          | close => rfl
          | delegate label => exact absurd rfl (hdel _ List.mem_cons_self label)
          | _ => cases hc
        subst hclose
        cases d with
        | zero => cases hd
        | succ d => exact ⟨rfl, Nat.succ_pos d, hrest d fun before => rfl⟩
      · rename_i hc
        refine ⟨fun label hl => hlabels [] o ops rfl label hl d rfl, hrest d fun before => ?_⟩
        simp only [depthFrom, if_neg ho, if_neg hc]

theorem labels_of_referencesLabel {o : Op} (h : o.referencesLabel = false) : o.labels = [] := by
  cases o with
  | br _ | brIf _ | brTable _ _ | rethrow _ | delegate _ => cases h
  | _ => rfl

/-- A code without labels stays inside of itself, since nothing in it could lead out of it. -/
theorem confined_of_referencesLabel {c : Code} (hc : c.WellFormed)
    (h : ∀ o ∈ c.ops, o.referencesLabel = false) : Confined 0 c.ops := by
  have hd := depthFrom_code hc 0 []
  rw [List.append_nil] at hd
  refine confined_of_depthFrom (by rw [hd]; rfl) (fun o ho label e => ?_) ?_
  · subst e
    exact Bool.noConfusion (h _ ho)
  · rintro before o after e label hl
    rw [labels_of_referencesLabel (h o (e ▸ List.mem_append_right _ List.mem_cons_self))] at hl
    cases hl

/-- The regions that are open after a piece, counted and listed. -/
theorem length_observeAll {ops : List Op} {n : Nesting} {m : Nat}
    (h : depthFrom (n.length + 1) ops = some (m + 1)) : (n.observeAll ops).length = m := by
  induction ops generalizing n with
  | nil => exact Nat.succ.inj (Option.some.inj h)
  | cons o ops ih =>
    cases o with
    | enter kind result => exact ih (n := ⟨kind, result⟩ :: n) h
    | close | delegate _ =>
      rcases n with _ | ⟨r, n⟩
      · cases h
      · exact ih (n := n) h
    | _ => exact ih (n := n) h

/-! ## 3. A region in the frame around it

The frames inside the block, with the operands of the block in the frame around it or in one of its
own, are related step by step, from the opener of the block to its closer. -/

/-- A change of frames that no use of their operands notices. -/
structure Lifting (φ : Frame → Frame) : Prop where
  pushOperand : ∀ (f : Frame) (o : Operand), φ (f.pushOperand o) = (φ f).pushOperand o
  popAny : ∀ {f f' : Frame} {o : Operand}, f.popAny = some (o, f') → (φ f).popAny = some (o, φ f')
  stop : ∀ f : Frame, φ f.stop = (φ f).stop

namespace Lifting

variable {φ : Frame → Frame} {f' : Frame}

theorem pushAll (h : Lifting φ) (f : Frame) (ts : List OperandType) :
    φ (f.pushAll ts) = (φ f).pushAll ts := by
  induction ts generalizing f with
  | nil => rfl
  | cons t ts ih => rw [pushAll_cons, ih, Frame.push, h.pushOperand, pushAll_cons, Frame.push]

theorem pop (h : Lifting φ) {t : OperandType} (hp : f.pop t = some f') :
    (φ f).pop t = some (φ f') := by
  obtain ⟨o, ho, hs⟩ := pop_eq_some.mp hp
  exact pop_eq_some.mpr ⟨o, h.popAny ho, hs⟩

theorem popAll (h : Lifting φ) {ts : List OperandType} (hp : f.popAll ts = some f') :
    (φ f).popAll ts = some (φ f') := by
  induction ts generalizing f' with
  | nil =>
    obtain rfl := Option.some.inj hp
    rfl
  | cons t ts ih =>
    rw [popAll_cons] at hp ⊢
    obtain ⟨f₁, h₁, hp⟩ := Option.bind_eq_some_iff.mp hp
    rw [ih h₁, Option.bind_some, h.pop hp]

theorem id : Lifting id := ⟨fun _ _ => rfl, fun h => h, fun _ => rfl⟩

end Lifting

/-- The operands of a region on top of those of another frame.  Those below are out of reach when
the region is unreachable. -/
def onto (g b : Frame) : Frame :=
  { g with
    operands := if b.unreachable then b.operands else b.operands ++ g.operands
    unreachable := b.unreachable || g.unreachable }

variable {b b' : Frame}

theorem lifting_onto (g : Frame) : Lifting (onto g) where
  pushOperand b o := by cases hu : b.unreachable <;> simp [onto, Frame.pushOperand, hu]
  stop b := by simp [onto, Frame.stop]
  popAny {b b' o} h := by
    obtain ⟨kind, type, os, u⟩ := b
    cases os with
    | nil =>
      cases u with
      | false => cases h
      | true =>
        obtain ⟨rfl, rfl⟩ := Prod.mk.inj (Option.some.inj h)
        rfl
    | cons x os =>
      obtain ⟨rfl, rfl⟩ := Prod.mk.inj (Option.some.inj h)
      cases u <;> rfl

variable {g : Frame}

/-- A frame in which nothing has happened yet lies on another one without a trace. -/
theorem onto_enter (kind : FrameKind) (leaves : List OperandType) :
    onto g (.enter kind ⟨[], leaves⟩) = g := by
  cases g
  rfl

/-- **What a complete region has left** is looser than its results. -/
theorem looser_onto {ts : List ValueType} (h : b.popAll (operandTypes ts) = some b')
    (he : b'.operands = []) : Looser (g.pushAll (operandTypes ts)) (onto g b) := by
  have hrest : Looser g (onto g b') := by
    refine ⟨⟨rfl, rfl⟩, ?_⟩
    cases hu : b'.unreachable with
    | false => simpa [onto, hu, he] using LooserOperands.refl g.unreachable g.operands
    | true => simpa [onto, hu, he] using LooserOperands.cut rfl g.operands
  exact (hrest.pushAll _).trans (.of_popAll ((lifting_onto g).popAll h))

/-- Frames inside a block, and the same frames without the block, whose operands lie on those of
the frame `g`. -/
inductive Grafted (g : Frame) (around around' : Validation.State) :
    Nat → Validation.State → Validation.State → Prop where
  | base {b : Frame} (hb : b.kind = .block) :
    Grafted g around around' 0 (b :: around) (onto g b :: around')
  | cons (f : Frame) {d : Nat} {s s' : Validation.State} (h : Grafted g around around' d s s') :
    Grafted g around around' (d + 1) (f :: s) (f :: s')

namespace Grafted

variable {around around' s' : Validation.State} {d : Nat}

/-- The regions inside the block keep their labels, frame for frame, whatever stands around it. -/
theorem getElem? (h : Grafted g around around' d s s') {i : Nat} (hi : i < d) : s'[i]? = s[i]? := by
  induction h generalizing i with
  | base => omega
  | cons f _ ih =>
    cases i with
    | zero => rfl
    | succ i => exact ih (by omega)

theorem length_eq (h : Grafted g around around' d s s') : s.length = d + 1 + around.length := by
  induction h with
  | base => simp [Nat.add_comm]
  | cons _ _ ih => simp only [List.length_cons, ih]; omega

/-- The frame on which an operation works is changed in a way that it does not notice. -/
theorem exists_lifting (h : Grafted g around around' d (f :: outer) s') :
    ∃ φ outer', Lifting φ ∧ s' = φ f :: outer' ∧
      ∀ f', Alike f f' → Grafted g around around' d (f' :: outer) (φ f' :: outer') := by
  cases h with
  | base hb => exact ⟨onto g, around', lifting_onto g, rfl, fun f' hf => .base (hf.kind.trans hb)⟩
  | cons _ h => exact ⟨id, _, .id, rfl, fun f' _ => .cons f' h⟩

/-- Inside the block everything is as it was, but for the frames around the block, of which there
may be others. -/
theorem exists_inner (h : Grafted g around around' d (f :: outer) s') (hd : 0 < d) :
    ∃ outer', s' = f :: outer' ∧ Grafted g around around' (d - 1) outer outer' := by
  cases h with
  | base => omega
  | cons _ h => exact ⟨_, rfl, h⟩

theorem kind_of_zero (h : Grafted g around around' 0 (f :: outer) s') : f.kind = .block := by
  cases h with
  | base hb => exact hb

theorem leave (h : Grafted g around around' d s s') (f : Frame) :
    Grafted g around around' d (leave f s) (leave f s') := by
  cases h with
  | base hb =>
    rw [Validation.leave, Validation.leave, ← (lifting_onto g).pushAll]
    exact .base ((Alike.pushAll _ _).kind.trans hb)
  | cons f' h => exact .cons _ h

theorem stops? (h : Grafted g around around' d s s') (ho : ∀ label ∈ o.labels, label < d) :
    Typing.stops? env s' o = Typing.stops? env s o := by
  cases o with
  | br label => simp only [Typing.stops?, h.getElem? (ho label List.mem_cons_self)]
  | rethrow label => simp only [Typing.stops?, h.getElem? (ho label List.mem_cons_self)]
  | _ => rfl

/-- **A plain operation** whose labels are those of regions inside the block works on the innermost
frame alone, and this is the same frame or one with operands below that are not touched. -/
theorem step_plain (h : Grafted g around around' d (f :: outer) s') (ho : o.isPlain)
    (hlabels : ∀ label ∈ o.labels, label < d) {t : Validation.State}
    (hs : Step env f outer o t) :
    ∃ t', checkOp env s' o = some t' ∧ Grafted g around around' d t t' := by
  obtain ⟨φ, outer', hφ, rfl, hg⟩ := h.exists_lifting
  cases hs with
  | arrow ha hp =>
    refine ⟨_, checkOp_of_step (.arrow ha (hφ.popAll hp)), ?_⟩
    rw [← hφ.pushAll]
    exact hg _ ((Alike.popAll hp).trans (.pushAll _ _))
  | stop hs hp =>
    refine ⟨_, checkOp_of_step (.stop (h.stops? hlabels ▸ hs) (hφ.popAll hp)), ?_⟩
    rw [← hφ.stop]
    exact hg _ ((Alike.popAll hp).trans (.stop _))
  | brIf ht hc hp =>
    have ht' := (h.getElem? (hlabels _ List.mem_cons_self)).trans ht
    refine ⟨_, checkOp_of_step (.brIf ht' (hφ.pop hc) (hφ.popAll hp)), ?_⟩
    rw [← hφ.pushAll]
    exact hg _ ((Alike.pop hc).trans ((Alike.popAll hp).trans (.pushAll _ _)))
  | brTable hc hl ht hp =>
    have hpopped := hg _ (Alike.pop hc)
    have hl' := (hpopped.getElem? (hlabels _ List.mem_cons_self)).trans hl
    refine ⟨_, checkOp_of_step (.brTable (hφ.pop hc) hl' (fun label hm => ?_) (hφ.popAll hp)), ?_⟩
    · obtain ⟨target, htarget, hlen, hpop⟩ := ht label hm
      obtain ⟨x, hx⟩ := Option.isSome_iff_exists.mp hpop
      have htarget' := (hpopped.getElem? (hlabels _ (List.mem_cons_of_mem _ hm))).trans htarget
      exact ⟨target, htarget', hlen, by rw [hφ.popAll hx]; rfl⟩
    · rw [← hφ.stop]
      exact hg _ ((Alike.pop hc).trans ((Alike.popAll hp).trans (.stop _)))
  | drop hp => exact ⟨_, checkOp_of_step (.drop (hφ.popAny hp)), hg _ (.popAny hp)⟩
  | select hc ha hb hj =>
    refine ⟨_, checkOp_of_step (.select (hφ.pop hc) (hφ.popAny ha) (hφ.popAny hb) hj), ?_⟩
    rw [← hφ.pushOperand]
    exact hg _ ((Alike.pop hc).trans ((Alike.popAny ha).trans ((Alike.popAny hb).trans ⟨rfl, rfl⟩)))
  | enter | elseArm | catchTag | catchAll | close | delegate => cases ho

/-- **An operation of code that stays inside** the block keeps the two lists of frames related. What
it opens is opened in both, and what it closes lies inside the block. -/
theorem step (h : Grafted g around around' d s s') {ops : List Op} (hc : Confined d (o :: ops))
    {t : Validation.State} (hs : checkOp env s o = some t) :
    ∃ t' d', checkOp env s' o = some t' ∧ Grafted g around around' d' t t' ∧ Confined d' ops := by
  rcases s with _ | ⟨f, outer⟩
  · rw [checkOp_nil] at hs
    cases hs
  have hstep := step_of_checkOp hs
  rw [Confined] at hc
  -- the frame of the block takes no arms
  have harm : f.kind ≠ .block → 0 < d := by
    intro hk
    rcases d with _ | d
    · exact absurd h.kind_of_zero hk
    · exact Nat.succ_pos d
  by_cases hp : o.isPlain
  · have hclass := hp
    simp only [Op.isPlain, Bool.and_eq_true, Bool.not_eq_true'] at hclass
    rw [if_neg (by simp [hclass.1.1]), if_neg (by simp [hclass.1.2])] at hc
    obtain ⟨t', ht', hg⟩ := h.step_plain hp hc.1 hstep
    exact ⟨t', d, ht', hg, hc.2⟩
  cases hstep with
  | arrow ha _ => exact absurd (isPlain_of_arrow? ha) hp
  | stop ha _ => exact absurd (isPlain_of_stops? ha) hp
  | brIf | brTable | drop | select => exact absurd rfl hp
  | enter hpop =>
    obtain ⟨φ, outer', hφ, rfl, hg⟩ := h.exists_lifting
    exact ⟨_, d + 1, checkOp_of_step (.enter (hφ.popAll hpop)), .cons _ (hg _ (.popAll hpop)), hc⟩
  | elseArm hk hcomplete =>
    have hd := harm (by simp [hk])
    obtain ⟨outer', rfl, hg⟩ := h.exists_inner hd
    refine ⟨_, d, checkOp_of_step (.elseArm hk hcomplete), ?_, hc.2⟩
    obtain ⟨d, rfl⟩ := Nat.exists_eq_succ_of_ne_zero (Nat.ne_of_gt hd)
    exact .cons _ hg
  | catchTag ht hk hcomplete =>
    have hd := harm fun e => by rw [e] at hk; cases hk
    obtain ⟨outer', rfl, hg⟩ := h.exists_inner hd
    refine ⟨_, d, checkOp_of_step (.catchTag ht hk hcomplete), ?_, hc.2⟩
    obtain ⟨d, rfl⟩ := Nat.exists_eq_succ_of_ne_zero (Nat.ne_of_gt hd)
    exact .cons _ hg
  | catchAll hk hcomplete =>
    have hd := harm fun e => by rw [e] at hk; cases hk
    obtain ⟨outer', rfl, hg⟩ := h.exists_inner hd
    refine ⟨_, d, checkOp_of_step (.catchAll hk hcomplete), ?_, hc.2⟩
    obtain ⟨d, rfl⟩ := Nat.exists_eq_succ_of_ne_zero (Nat.ne_of_gt hd)
    exact .cons _ hg
  | close hclosable =>
    obtain ⟨-, hd, hc⟩ := hc
    obtain ⟨outer', rfl, hg⟩ := h.exists_inner hd
    exact ⟨_, d - 1, checkOp_of_step (.close hclosable), hg.leave f, hc⟩
  | delegate hk hcomplete hl => cases hc.1

theorem checkAll : ∀ {ops : List Op} {d : Nat} {s s' t : Validation.State},
    Grafted g around around' d s s' → Confined d ops → Typing.checkAll env s ops = some t →
      ∃ t' d', Typing.checkAll env s' ops = some t' ∧ Grafted g around around' d' t t'
  | [], d, s, s', t, h, _, hs => by
    obtain rfl := Option.some.inj hs
    exact ⟨s', d, rfl, h⟩
  | o :: ops, d, s, s', t, h, hc, hs => by
    rw [checkAll_cons] at hs
    obtain ⟨u, hu, hs⟩ := Option.bind_eq_some_iff.mp hs
    obtain ⟨u', d₁, hu', hg, hc⟩ := h.step hc hu
    obtain ⟨t', d', ht', hg'⟩ := Grafted.checkAll hg hc hs
    exact ⟨t', d', by rw [checkAll_cons, hu', Option.bind_some, ht'], hg'⟩

end Grafted

/-- **A block that nothing inside it leaves may be replaced by its contents.** At the end of the
contents the operands on top are the results of the block, or less is known about them. -/
theorem checkAll_unwrap {result : ResultType} {c : Code} (hwf : c.WellFormed)
    (hc : Confined 0 c.ops)
    (h : checkAll env (f :: outer) (.enter .block result :: (c.ops ++ [.close])) = some s) :
    ∃ s', checkAll env (f :: outer) c.ops = some s' ∧ LooserState s s' := by
  rw [checkAll_cons] at h
  obtain ⟨t, ht, h⟩ := Option.bind_eq_some_iff.mp h
  obtain ⟨f', hf', rfl⟩ := (step_of_checkOp ht).enter_iff
  obtain rfl := Option.some.inj hf'
  rw [checkAll_append] at h
  obtain ⟨u, hu, h⟩ := Option.bind_eq_some_iff.mp h
  obtain ⟨b, rfl, hb⟩ := checkAll_code hwf hu
  rw [checkAll_cons] at h
  obtain ⟨v, hv, h⟩ := Option.bind_eq_some_iff.mp h
  obtain rfl := Option.some.inj h
  obtain ⟨hclosable, rfl⟩ := checkOp_close hv
  -- the contents lie on the frame around the block from the start
  have hg : Grafted f (f :: outer) outer 0
      (.enter (.ofRegion .block) ⟨[], operandTypes result.types⟩ :: f :: outer) (f :: outer) := by
    have := @Grafted.base f (f :: outer) outer (.enter .block ⟨[], operandTypes result.types⟩) rfl
    rwa [onto_enter] at this
  obtain ⟨s', d, hs', hg'⟩ := hg.checkAll hc hu
  obtain rfl : d = 0 := by
    have := hg'.length_eq
    simp only [List.length_cons] at this
    omega
  cases hg' with
  | base hk =>
    obtain ⟨b', hpop, he⟩ := (Option.any_eq_true _ _).mp (Bool.and_eq_true_iff.mp hclosable).1
    refine ⟨_, hs', .of_head ?_ outer⟩
    rw [hb.type] at hpop ⊢
    exact looser_onto hpop (List.isEmpty_iff.mp he)

end WasmTrim.Typing
