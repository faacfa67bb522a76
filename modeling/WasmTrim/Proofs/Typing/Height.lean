/-
# The computed height and the stack of the validator

`Body.stackHeight?` counts operands without typing the body: it jumps over regions and knows only
how many operands each operation takes and leaves.  The validator types every instruction
(`Body.frames?`).  If the count has a result for a body that the validator accepts so far, the
two agree: the function is the only open frame, control reaches the end of the body, and the
frame has as many operands as were counted (`Program.stackHeight?_sound`).

So a `return` at that place, which the validator accepts for taking the results off the stack, may
be left out if the results are all there is to take.

The two go about it in different ways.  The count jumps to the closer of a region and takes its
block type at its word (`stack_height`), while the validator goes through the region and checks the
word. In front of every operation at the top level, though, the frame of the function has as many
operands as have been counted, and control reaches it: an operation from which control does not run
on has no effect that could be counted, so the count gives up there (`stack_effect`).

What the validator knows is more than a number.  As long as control reaches a frame, every operand
in it has a known type, so that a `return` that is accepted found its results and not unknown
operands (§3).
-/
import WasmTrim.Proofs.Inline.Targets
import WasmTrim.Proofs.Typing.Bytes

namespace WasmTrim

open Validation

/-! ## 1. The beginning of a body

The statement is about a part of a body, in which some regions may still be open; so it speaks of
the frames that the validator has open at that place, and not of its verdict. -/

/-- **The open frames after the beginning of a function.**  The validator is given one instruction
after the other, each as the bytes it is written as. -/
def Body.frames? (env : Env) (body : Body) : Option Validation.State :=
  body.foldlM (fun s i => run env s i.op.encode) (start env)

theorem Reader.read_bind_of_none {α β : Type} {r : Reader α} {bytes : Bytes}
    (h : r.read bytes = none) (next : α → Reader β) : (r >>= next).read bytes = none := by
  simp only [bind, Reader.bind, h]

namespace Typing

variable {env : Env} {s t : Validation.State} {o : Op}

/-- An alignment that announces the index of a memory has the offset read as that index, so that
the offset is missing. -/
theorem read_memArg {arg : MemArg} (h : arg.align / 64 % 2 = 1) (alignment : Validation.Alignment) :
    (memArg alignment).read arg.encode = none := by
  have halign := Leb128.readsAs_u32 arg.align (Leb128.unsigned arg.offset)
  have hoffset := Leb128.readsAs_u32 arg.offset []
  rw [List.append_nil] at hoffset
  by_cases ha : arg.align < 2 ^ 32
  · rw [if_pos ha, Option.map_some] at halign
    rw [memArg, MemArg.encode, Reader.read_bind_of_read halign]
    simp only [h, if_true]
    by_cases ho : arg.offset < 2 ^ 32
    · rw [if_pos ho, Option.map_some] at hoffset
      rw [Reader.read_bind_of_read hoffset]
      rfl
    · rw [if_neg ho] at hoffset
      exact Reader.read_bind_of_none hoffset _
  · rw [if_neg ha] at halign
    exact Reader.read_bind_of_none halign _

/-- The validator refuses an access that announces a memory, taken for itself. -/
theorem run_of_announcesMemory (h : o.announcesMemory = true) : run env s o.encode = none := by
  have hread : readRule.read o.encode = none := by
    cases o with
    | load access arg | store access arg =>
      have hnone := read_memArg (of_decide_eq_true h)
      cases access <;> exact Reader.read_bind_of_none (hnone _) _
    | _ => cases h
  obtain ⟨b, bytes, e⟩ := List.exists_cons_of_ne_nil o.encode_ne_nil
  rw [e] at hread ⊢
  rw [run_cons, hread]
  rfl

/-- **The bytes of one operation are checked as the operation is**, whatever its alignment: an
access that announces a memory has too few bytes when it stands by itself, and has no rule either.
-/
theorem run_encode_iff : run env s o.encode = some t ↔ checkOp env s o = some t ∧ o.Fits := by
  cases h : o.announcesMemory with
  | true =>
    rw [run_of_announcesMemory h]
    constructor
    · intro hrun
      cases hrun
    · rintro ⟨hcheck, -⟩
      rw [announcesMemory_of_checkOp hcheck] at h
      cases h
  | false =>
    have hrun : run env s (o.encode ++ []) = _ := run_encode h []
    rw [List.append_nil] at hrun
    rw [hrun]
    split
    · rename_i hf
      rw [and_iff_left hf]
      simp [run]
    · rename_i hf
      constructor
      · intro h
        cases h
      · rintro ⟨-, h⟩
        exact absurd h hf

end Typing

namespace Body

variable {env : Env} {body : Body} {s : Validation.State}

theorem frames?_concat (env : Env) (body : Body) (last : Instr) :
    frames? env (body ++ [last]) = (body.frames? env).bind fun s => run env s last.op.encode := by
  simp [frames?]

/-- **The validator checks the operations of a body**, and that their numbers have at most 32
bits. -/
theorem frames?_eq_some :
    body.frames? env = some s
      ↔ Typing.checkAll env (start env) body.ops = some s ∧ ∀ o ∈ body.ops, o.Fits := by
  suffices h : ∀ t, body.foldlM (fun s i => run env s i.op.encode) t = some s
      ↔ Typing.checkAll env t body.ops = some s ∧ ∀ o ∈ body.ops, o.Fits from h (start env)
  induction body with
  | nil => simp
  | cons i body ih =>
    intro t
    simp only [List.foldlM_cons, ops_cons, List.forall_mem_cons, Typing.checkAll_cons,
      Option.bind_eq_bind, Option.bind_eq_some_iff, Typing.run_encode_iff, ih]
    constructor
    · rintro ⟨u, ⟨hu, hi⟩, hs, hbody⟩
      exact ⟨⟨u, hu, hs⟩, hi, hbody⟩
    · rintro ⟨⟨u, hu, hs⟩, hi, hbody⟩
      exact ⟨u, ⟨hu, hi⟩, hs, hbody⟩

/-- The bytes of a body as a whole lead to the same frames. -/
theorem run_of_frames? (h : body.frames? env = some s) :
    run env (start env) (body.flatMap fun i => i.op.encode) = some s := by
  obtain ⟨hall, hfits⟩ := frames?_eq_some.mp h
  have hrun := (Typing.run_eq_some_iff (Typing.announcesMemory_of_checkAll hall)).mpr ⟨hall, hfits⟩
  rwa [ops, List.flatMap_map] at hrun

end Body

/-! ## 2. The frame of the function

A body that has a height is well nested, and so it parses; by the structure of the parsed body the
function is the only frame open behind it. -/

/-- A checked body begins with a step from some innermost frame. -/
theorem Typing.exists_firstStep {env : Env} {o : Op} {ops : List Op} {s t : Validation.State}
    (h : checkAll env s (o :: ops) = some t) :
    ∃ f outer u, s = f :: outer ∧ Step env f outer o u ∧ checkAll env u ops = some t := by
  obtain ⟨u, hu, hops⟩ := checkAll_cons_iff.mp h
  rcases s with _ | ⟨f, outer⟩
  · rw [checkOp_nil] at hu
    cases hu
  · exact ⟨f, outer, u, rfl, step_of_checkOp hu, hops⟩

/-- The number of open frames is the number of open regions. -/
theorem Typing.length_of_checkAll {env : Env} {ops : List Op} {s t : Validation.State} {m : Nat}
    (h : checkAll env s ops = some t) (hd : depthFrom s.length ops = some m) : t.length = m := by
  induction ops generalizing s with
  | nil =>
    obtain rfl := Option.some.inj h
    exact Option.some.inj hd
  | cons o ops ih =>
    obtain ⟨f, outer, u, rfl, hstep, hops⟩ := exists_firstStep h
    cases o with
    | enter kind result =>
      obtain ⟨f', -, rfl⟩ := hstep.enter_iff
      exact ih hops hd
    | close | delegate _ =>
      obtain ⟨rfl, -⟩ := hstep.of_closesRegion rfl
      cases outer with
      | nil => cases hd
      | cons g outer => exact ih hops hd
    | elseArm | catchTag _ | catchAll =>
      obtain ⟨f', rfl, -⟩ := hstep.of_startsArm rfl
      exact ih hops hd
    | _ =>
      obtain ⟨f', rfl, -⟩ := hstep.of_isPlain rfl
      exact ih hops hd

/-- An operation with a fixed effect neither opens nor closes a region. -/
theorem depthFrom_of_stackEffect? {o : Op} {effect : Nat × Nat} (h : o.stackEffect? = some effect)
    (n : Nat) (ops : List Op) : depthFrom n (o :: ops) = depthFrom n ops := by
  cases o with
  | enter | close | delegate => cases h
  | _ => rfl

/-- **A body with a height is well nested.**  The count passes over whole regions, and has no
result at a closer that it finds outside of them. -/
theorem Body.wellNested_of_heightFrom {signatureOf : Nat → Option Signature} {height height' : Nat}
    {body : Body} (h : heightFrom signatureOf height body = some height') : body.WellNested := by
  induction height, body using Body.heightFrom.induct with
  | case1 => rfl
  | case2 height i rest kind result hi ih =>
    simp only [heightFrom, hi] at h
    obtain ⟨k, hk, h⟩ := Option.bind_eq_some_iff.mp h
    obtain ⟨next, -, h⟩ := Option.bind_eq_some_iff.mp h
    obtain ⟨hinside, last, after, hdrop, hlast⟩ := depthFrom_of_closeOffset Nat.one_pos hk
    have hafter : depthFrom 1 (ops after) = some 1 := by
      have := ih k next h
      rw [← List.tail_drop, hdrop] at this
      exact this
    have hclose : depthFrom 2 (last.op :: ops after) = depthFrom 1 (ops after) := by
      revert hlast
      cases last.op with
      | close | delegate => exact fun _ => rfl
      | _ => exact fun h => by cases h
    have hrest : ops rest = ops (rest.take k) ++ (last.op :: ops after) := by
      rw [← Body.ops_cons, ← hdrop, ← Body.ops_append, List.take_append_drop]
    calc depthFrom 1 (ops (i :: rest)) = depthFrom 2 (ops rest) := by rw [ops_cons, hi]; rfl
      _ = depthFrom 2 (last.op :: ops after) := by
        rw [hrest, depthFrom_append, depthFrom_succ hinside, Option.bind_some]
      _ = some 1 := hclose.trans hafter
  | case3 height i rest target hi ih =>
    simp only [heightFrom, hi] at h
    obtain ⟨signature, -, h⟩ := Option.bind_eq_some_iff.mp h
    obtain ⟨next, -, h⟩ := Option.bind_eq_some_iff.mp h
    rw [WellNested, ops_cons, hi]
    exact ih next h
  | case4 height i rest henter hcall ih =>
    rw [heightFrom] at h
    split at h
    · rename_i hi
      exact (henter _ _ hi).elim
    · rename_i hi
      exact (hcall _ hi).elim
    · obtain ⟨effect, heffect, h⟩ := Option.bind_eq_some_iff.mp h
      obtain ⟨next, -, h⟩ := Option.bind_eq_some_iff.mp h
      rw [WellNested, ops_cons, depthFrom_of_stackEffect? heffect]
      exact ih next h

namespace Typing

variable {env : Env} {signatureOf : Nat → Option Signature}

/-- **The frame of the function after a body with a height.** No other frame is open, its operands
are as many as were counted, and its label and its results are those it began with. -/
theorem exists_frame {body : Body} {s : Validation.State} {height : Nat}
    (hsignature : ∀ t, signatureOf t = env.signatures[t]?)
    (hall : checkAll env (start env) body.ops = some s)
    (hheight : body.stackHeight? signatureOf = some height) :
    ∃ frame, s = [frame] ∧ HasHeight height frame ∧
      Alike (.enter .block ⟨[], env.results⟩) frame := by
  have hlength : s.length = 1 :=
    length_of_checkAll hall (Body.wellNested_of_heightFrom hheight)
  obtain ⟨frame, rfl⟩ := List.length_eq_one_iff.mp hlength
  obtain ⟨c, hwf, hops⟩ := Body.exists_code (isSome_parse hall)
  have hempty : HasHeight 0 (.enter .block ⟨[], env.results⟩) := ⟨rfl, rfl⟩
  have hcount : Body.heightFrom signatureOf 0 (c.ops.map Op.plain) = some height := by
    rw [← hops, Body.heightFrom_ops]
    exact hheight
  rw [hops] at hall
  obtain ⟨x, hx, halike⟩ := checkAll_code hwf hall
  obtain ⟨rfl, -⟩ := List.cons.inj hx
  exact ⟨frame, rfl, height_of_checkAll hsignature hwf hempty hcount hall, halike⟩

/-! ## 3. Operands of known types

Unknown operands come from popping below the bottom of a frame that control does not reach, and go
no further than that frame. -/

/-- While control reaches a frame, it has operands of known types only. -/
def Known (f : Frame) : Prop := f.unreachable = false → ∀ o ∈ f.operands, ∃ t, o = .known t

namespace Known

variable {f f' : Frame}

theorem start (kind : FrameKind) (type : RegionType) (ts : List OperandType) :
    Known (.start kind type ts) := by
  intro _ o ho
  obtain ⟨t, -, rfl⟩ := List.mem_map.mp ho
  exact ⟨t, rfl⟩

theorem stop (f : Frame) : Known f.stop := by
  intro h
  cases h

/-- What is popped off a frame that control reaches was there, and its type is known. -/
theorem popAny (h : Known f) {o : Operand} (hp : f.popAny = some (o, f')) :
    Known f' ∧ f'.unreachable = f.unreachable ∧
      (f.unreachable = false → f.operands = o :: f'.operands ∧ ∃ t, o = .known t) := by
  obtain ⟨kind, type, os, unreachable⟩ := f
  cases os with
  | nil =>
    cases unreachable with
    | false => cases hp
    | true =>
      obtain ⟨-, rfl⟩ := Prod.mk.inj (Option.some.inj hp)
      exact ⟨h, rfl, fun hu => by cases hu⟩
  | cons x os =>
    obtain ⟨rfl, rfl⟩ := Prod.mk.inj (Option.some.inj hp)
    exact ⟨fun hu o ho => h hu o (List.mem_cons_of_mem _ ho), rfl,
      fun hu => ⟨rfl, h hu x List.mem_cons_self⟩⟩

theorem pop (h : Known f) {t : OperandType} (hp : f.pop t = some f') :
    Known f' ∧ f'.unreachable = f.unreachable := by
  obtain ⟨o, ho, -⟩ := pop_eq_some.mp hp
  exact ⟨(h.popAny ho).1, (h.popAny ho).2.1⟩

theorem popAll (h : Known f) {ts : List OperandType} (hp : f.popAll ts = some f') :
    Known f' ∧ f'.unreachable = f.unreachable := by
  induction ts generalizing f' with
  | nil =>
    obtain rfl := Option.some.inj hp
    exact ⟨h, rfl⟩
  | cons t ts ih =>
    rw [popAll_cons] at hp
    obtain ⟨g, hg, hp⟩ := Option.bind_eq_some_iff.mp hp
    obtain ⟨hknown, hu⟩ := ih hg
    exact ⟨(hknown.pop hp).1, (hknown.pop hp).2.trans hu⟩

theorem pushOperand (h : Known f) {o : Operand} (ho : f.unreachable = false → ∃ t, o = .known t) :
    Known (f.pushOperand o) := by
  intro hu x hx
  rcases List.mem_cons.mp hx with rfl | hx
  · exact ho hu
  · exact h hu x hx

theorem pushAll (h : Known f) (ts : List OperandType) : Known (f.pushAll ts) := by
  induction ts generalizing f with
  | nil => exact h
  | cons t ts ih => exact ih (h.pushOperand fun _ => ⟨t, rfl⟩)

/-- Operands that serve as values of some types are of these types. -/
theorem operands_eq (h : Known f) (hu : f.unreachable = false) {ts : List ValueType}
    (hp : f.popAll (operandTypes ts) = some f') :
    f.operands = (ts.map fun t => Operand.known (.num t)).reverse ++ f'.operands := by
  induction ts generalizing f' with
  | nil =>
    obtain rfl := Option.some.inj hp
    rfl
  | cons t ts ih =>
    rw [operandTypes, List.map_cons, popAll_cons] at hp
    obtain ⟨g, hg, hp⟩ := Option.bind_eq_some_iff.mp hp
    obtain ⟨hknown, hgu⟩ := h.popAll hg
    obtain ⟨o, ho, hserves⟩ := pop_eq_some.mp hp
    obtain ⟨hoperands, u, rfl⟩ := (hknown.popAny ho).2.2 (hgu.trans hu)
    have e : u = .num t := by
      cases u with
      | num u => rw [of_decide_eq_true ((OperandType.serves_num u t).symm.trans hserves)]
      | _ => cases hserves
    rw [ih hg, hoperands, e, List.map_cons, List.reverse_cons, List.append_assoc]
    rfl

end Known

theorem exists_known_of_join? {t u : OperandType} {o : Operand}
    (h : Operand.join? (.known t) (.known u) = some o) : ∃ t, o = .known t := by
  -- references have no common type
  cases t with
  | ref _ => cases u <;> cases h
  | _ =>
    cases u with
    | ref _ => cases h
    | _ =>
      simp only [Operand.join?] at h
      split at h
      · exact ⟨_, (Option.some.inj h).symm⟩
      · cases h

/-- **One operation keeps the types of operands known**, in every frame that control reaches. The
operands that an unreachable frame makes up stay in that frame. -/
theorem Step.known {f : Frame} {outer s : Validation.State} {o : Op} (h : Step env f outer o s)
    (hk : ∀ g ∈ f :: outer, Known g) : ∀ g ∈ s, Known g := by
  obtain ⟨hf, houter⟩ := List.forall_mem_cons.mp hk
  have hleave : ∀ g ∈ leave f outer, Known g := by
    cases outer with
    | nil => exact fun g hg => by cases hg
    | cons g outer =>
      obtain ⟨hg, houter⟩ := List.forall_mem_cons.mp houter
      exact List.forall_mem_cons.mpr ⟨hg.pushAll _, houter⟩
  cases h with
  | close _ => exact hleave
  | delegate _ _ _ => exact hleave
  | enter hp =>
    have hout := List.forall_mem_cons.mpr ⟨(hf.popAll hp).1, houter⟩
    exact List.forall_mem_cons.mpr ⟨.start _ _ _, hout⟩
  | arrow _ hp => exact List.forall_mem_cons.mpr ⟨(hf.popAll hp).1.pushAll _, houter⟩
  | brIf _ hc hp => exact List.forall_mem_cons.mpr ⟨((hf.pop hc).1.popAll hp).1.pushAll _, houter⟩
  | drop hp => exact List.forall_mem_cons.mpr ⟨(hf.popAny hp).1, houter⟩
  | stop | brTable => exact List.forall_mem_cons.mpr ⟨.stop _, houter⟩
  | elseArm | catchTag | catchAll => exact List.forall_mem_cons.mpr ⟨.start _ _ _, houter⟩
  | select hc ha hb hj =>
    obtain ⟨h₁, -⟩ := hf.pop hc
    obtain ⟨h₂, hu₂, hknown₂⟩ := h₁.popAny ha
    obtain ⟨h₃, hu₃, hknown₃⟩ := h₂.popAny hb
    refine List.forall_mem_cons.mpr ⟨h₃.pushOperand fun hu => ?_, houter⟩
    -- both operands are known, and then so is their common type
    rw [hu₃] at hu
    obtain ⟨-, t, rfl⟩ := hknown₃ hu
    obtain ⟨-, t', rfl⟩ := hknown₂ (hu₂ ▸ hu)
    exact exists_known_of_join? hj

/-- **The types of operands stay known** from the start of a function on, where every local,
constant and result has a type of its own. -/
theorem known_of_checkAll {ops : List Op} {s t : Validation.State} (h : checkAll env s ops = some t)
    (hk : ∀ g ∈ s, Known g) : ∀ g ∈ t, Known g := by
  induction ops generalizing s with
  | nil =>
    obtain rfl := Option.some.inj h
    exact hk
  | cons o ops ih =>
    obtain ⟨f, outer, u, rfl, hstep, hops⟩ := exists_firstStep h
    exact ih hops (hstep.known hk)

theorem known_start (env : Env) : ∀ g ∈ start env, Known g :=
  List.forall_mem_singleton.mpr (.start _ _ _)

/-- **A complete frame of the function** has operands of the types of the results, and no others. -/
theorem operands_of_isComplete {ops : List Op} {frame : Frame}
    (hall : checkAll env (start env) ops = some [frame]) (hu : frame.unreachable = false)
    (ha : Alike (.enter .block ⟨[], env.results⟩) frame) (hc : frame.isComplete) :
    frame.operands = (env.result.types.map fun t => Operand.known (.num t)).reverse := by
  have e : frame.type.leaves = operandTypes env.result.types := congrArg RegionType.leaves ha.type
  rw [Frame.isComplete, e] at hc
  obtain ⟨x, hx, hempty⟩ := (Option.any_eq_true _ _).mp hc
  have hknown := known_of_checkAll hall (known_start env) frame List.mem_cons_self
  rw [hknown.operands_eq hu hx, List.isEmpty_iff.mp hempty, List.append_nil]

end Typing

/-! ## 4. Soundness

A `return` in front of which the height is that of the results is left out when a callee is prepared
(`prepare_body`); the second half of the statement says that this is safe. -/

/-- **The computed height is that of the validator.**  In a program whose functions stand at their
indices, take the beginning of any function that the validator accepts, and suppose that its height
is computed.  Then the frame of the function is the only one that is open, it has as many operands
as were computed, and control reaches it.

So if a `return` is accepted there and the height is the number of results, the `return` is left
out, and what remains ends with the results on the stack and nothing else: the function may be
closed at once. -/
theorem Program.stackHeight?_sound {p : Program}
    (hindex : ∀ (i : Nat) (f : Function), p.functions[i]? = some f → f.index = p.functionBase + i)
    {f : Function} {body : Body} {s : Validation.State} {height : Nat}
    (hbody : body.frames? (f.env p.surroundings) = some s)
    (hheight : body.stackHeight? p.signatureAt? = some height) :
    run (f.env p.surroundings) (start (f.env p.surroundings)) (body.flatMap fun i => i.op.encode)
      = some s ∧
    ∃ frame, s = [frame] ∧ frame.operands.length = height ∧ frame.unreachable = false ∧
      ∀ last : Instr, last.op = .ret → height = f.result.arity →
        (Body.frames? (f.env p.surroundings) (body ++ [last])).isSome →
          (f.withBody (body ++ [last])).withoutFinalReturn p.signatureAt? = body ∧
          frame.operands = (f.result.types.map fun t => Operand.known (.num t)).reverse ∧
          Body.frames? (f.env p.surroundings) (body ++ [Op.close.plain]) = some [] := by
  have hall := (Body.frames?_eq_some.mp hbody).1
  obtain ⟨frame, rfl, hframe, halike⟩ :=
    Typing.exists_frame (signatureAt?_eq hindex) hall hheight
  refine ⟨Body.run_of_frames? hbody, frame, rfl, hframe.length, hframe.reachable, ?_⟩
  intro last hlast harity haccepted
  subst harity
  have hcomplete : frame.isComplete := by
    obtain ⟨t, ht⟩ := Option.isSome_iff_exists.mp haccepted
    rw [Body.frames?_concat, hbody, Option.bind_some, hlast, Typing.run_encode_iff] at ht
    exact Typing.HasHeight.isComplete (f.env p.surroundings) hframe halike ht.1
  refine ⟨?_, Typing.operands_of_isComplete hall hframe.reachable halike hcomplete, ?_⟩
  · have hreturn : (body ++ [last]).getLast?.map Instr.op = some .ret := by
      rw [List.getLast?_concat, Option.map_some, hlast]
    have hdrop : (body ++ [last]).dropLast = body := List.dropLast_concat
    simp only [Function.withoutFinalReturn, Function.withBody, hreturn, hdrop, hheight, true_and,
      if_true]
  · have hclosable : frame.isClosable := by
      rw [Frame.isClosable, hcomplete, halike.kind]
      rfl
    rw [Body.frames?_concat, hbody, Option.bind_some, Op.op_plain, Typing.run_encode_iff]
    exact ⟨Typing.checkOp_of_step (.close hclosable), fun n hn => by cases hn⟩

/-- The beginning of a body that calls a function and an import, with code behind a trap inside of a
region. -/
def callsBeforeReturn : Body := List.map Op.plain
  [.localGet 0, .call 1, .localGet 0, .enter .ifThen none, .unreachable, .drop, .br 1, .close,
    .i32Const 5, .call 0]

/-- A function with that body and a `return` behind it. -/
def calling : Function :=
  (Function.declare 2 "checked" [("value", .i32)] (some .i32)).withBody
    (callsBeforeReturn ++ [Op.ret.plain])

/-- A program with that function and what it calls, so that the heights behind its calls are known.
-/
def callingProgram : Program where
  imports := [⟨"env", "log", ⟨[.i32], none⟩⟩]
  functions := [
    (Function.declare 1 "twice" [("value", .i32)] (some .i32)).withBody
      ([.localGet 0, .localGet 0, .num .i32Add].map Op.plain),
    calling]
  globals := []
  tags := []
  exceptions := []
  types := .empty

theorem Program.stackHeight?_sound_calling : ∃ frame : Frame,
    callsBeforeReturn.frames? (calling.env callingProgram.surroundings) = some [frame] ∧
      callsBeforeReturn.stackHeight? callingProgram.signatureAt? = some 1 ∧
      frame.operands = [.known .i32] ∧ frame.unreachable = false ∧
      calling.withoutFinalReturn callingProgram.signatureAt? = callsBeforeReturn := by
  have hindex : ∀ (i : Nat) (f : Function), callingProgram.functions[i]? = some f →
      f.index = callingProgram.functionBase + i := by
    intro i f hf
    match i with
    | 0 | 1 =>
      obtain rfl := Option.some.inj hf
      rfl
    | i + 2 => cases hf
  have hbody : callsBeforeReturn.frames? (calling.env callingProgram.surroundings)
      = some [⟨.block, ⟨[], [.i32]⟩, [.known .i32], false⟩] :=
    Body.frames?_eq_some.mpr ⟨by decide +kernel, by decide +kernel⟩
  have hheight : callsBeforeReturn.stackHeight? callingProgram.signatureAt? = some 1 := by
    decide +kernel
  have hreturn : calling.body.frames? (calling.env callingProgram.surroundings)
      = some [⟨.block, ⟨[], [.i32]⟩, [], true⟩] :=
    Body.frames?_eq_some.mpr ⟨by decide +kernel, by decide +kernel⟩
  have haccepted : (calling.body.frames? (calling.env callingProgram.surroundings)).isSome :=
    Option.isSome_iff_exists.mpr ⟨_, hreturn⟩
  obtain ⟨-, frame, hframe, -, hreachable, hlast⟩ :=
    Program.stackHeight?_sound hindex hbody hheight
  obtain ⟨hdrop, hoperands, -⟩ := hlast Op.ret.plain rfl rfl haccepted
  exact ⟨frame, hbody.trans (congrArg some hframe), hheight, hoperands, hreachable, hdrop⟩

end WasmTrim
