/-
# What labels name

A label counts regions outwards, so what it names depends on the regions that are open where it
stands.  `Body.openers` lists the positions at which these regions begin; it is the nesting at that
place (`Body.regions_openers`), with each region told apart from others of the same kind.

A pass that takes a piece out of a body must not let a label in the rest slip to another region.
`KeepsLabels` says so: the regions around an instruction that stays are those that were around it
before, up to where they have moved, and one opener that may have been replaced.

The nesting alone would not do.  It lists the kinds and results of the regions, so a label that
slips from one block to another of the same result would not show in it.  Positions tell regions
apart, and where a cut moves positions, the statement says which position has become which.

What is used of a cut is only that the openers behind it are those in front of it, once the moved
and the replaced ones are renamed.  For a well-nested cut they are, because it closes what it opens.
-/
import WasmTrim.Proofs.Rewrite

namespace WasmTrim

/-! ## 1. The regions that labels name

The stack of open regions once more, with positions in place of kinds.  A closer too many leaves it
empty, as it does there. -/

namespace Op

/-- The openers of the open regions after one more operation, which is at the given position. -/
def trackOpener (pos : Nat) (openers : List Nat) : Op → List Nat
  | .enter _ _ => pos :: openers
  | .close | .delegate _ => openers.tail
  | _ => openers

theorem trackOpener_of_isPlain {o : Op} (h : o.isPlain) (pos : Nat) (openers : List Nat) :
    o.trackOpener pos openers = openers := by
  cases o with
  | enter _ _ | close | delegate _ => cases h
  | _ => rfl

theorem trackOpener_of_startsArm {o : Op} (h : o.startsArm) (pos : Nat) (openers : List Nat) :
    o.trackOpener pos openers = openers := by
  cases o with
  | enter _ _ | close | delegate _ => cases h
  | _ => rfl

end Op

/-- The openers of the open regions after some more operations, the first of which is at the given
position. -/
def openersFrom (pos : Nat) (openers : List Nat) : List Op → List Nat
  | [] => openers
  | o :: ops => openersFrom (pos + 1) (o.trackOpener pos openers) ops

/-- **What the labels at a position refer to**: the positions at which the regions around it
begin, innermost first.  Label `d` names entry `d`, and a label past the last entry names the
function. -/
def Body.openers (body : Body) (pos : Nat) : List Nat := openersFrom 0 [] (body.ops.take pos)

@[simp] theorem Body.length_ops (body : Body) : body.ops.length = body.length := List.length_map ..

theorem openersFrom_append : ∀ (pos : Nat) (openers : List Nat) (a b : List Op),
    openersFrom pos openers (a ++ b)
      = openersFrom (pos + a.length) (openersFrom pos openers a) b
  | _, _, [], _ => rfl
  | pos, openers, o :: a, b => by
    rw [List.cons_append, openersFrom, openersFrom, openersFrom_append, List.length_cons,
      Nat.add_assoc, Nat.add_comm 1]

theorem mem_openersFrom {q : Nat} : ∀ {pos : Nat} {openers : List Nat} {ops : List Op},
    q ∈ openersFrom pos openers ops → q ∈ openers ∨ q < pos + ops.length
  | _, _, [], h => .inl h
  | pos, openers, o :: ops, h => by
    rw [openersFrom] at h
    rcases mem_openersFrom h with hm | hlt
    · cases o with
      | enter kind result =>
        rcases List.mem_cons.mp hm with rfl | hm
        · exact .inr (by simp)
        · exact .inl hm
      | close | delegate _ => exact .inl (List.mem_of_mem_tail hm)
      | _ => exact .inl hm
    · exact .inr (by rw [List.length_cons]; omega)

/-- Moving all positions by the same distance moves the openers. -/
theorem map_openersFrom {φ : Nat → Option Nat} : ∀ {pos pos' : Nat} {openers openers' : List Nat}
    (ops : List Op), (∀ q, φ (pos + q) = some (pos' + q)) → openers.map φ = openers'.map some →
      (openersFrom pos openers ops).map φ = (openersFrom pos' openers' ops).map some
  | _, _, _, _, [], _, h => h
  | pos, pos', openers, openers', o :: ops, hφ, h => by
    have h0 : φ pos = some pos' := hφ 0
    have ho : (o.trackOpener pos openers).map φ = (o.trackOpener pos' openers').map some := by
      cases o with
      | enter kind result => simp [Op.trackOpener, h0, h]
      | close | delegate _ => simp [Op.trackOpener, List.map_tail, h]
      | _ => exact h
    refine map_openersFrom ops (fun q => ?_) ho
    rw [Nat.add_assoc, hφ, Nat.add_assoc]

/-- The openers are those of the open regions, one for one: at the position of each opener stands
the operation that opened the region. -/
theorem regions_openersFrom {body : List Op} : ∀ {before ops after : List Op} {n : Nesting}
    {openers : List Nat}, body = before ++ (ops ++ after) →
      openers.map (body[·]?) = n.map (fun r => some (.enter r.kind r.result)) →
        (openersFrom before.length openers ops).map (body[·]?)
          = (n.observeAll ops).map fun r => some (.enter r.kind r.result)
  | _, [], _, _, _, _, h => h
  | before, o :: ops, after, n, openers, e, h => by
    have e' : body = (before ++ [o]) ++ (ops ++ after) := by simp [e]
    have hb : body[before.length]? = some o := by simp [e]
    have hl : before.length + 1 = (before ++ [o]).length := by simp
    rw [openersFrom, Nesting.observeAll, hl]
    refine regions_openersFrom e' ?_
    cases o with
    | enter kind result => simp [Op.trackOpener, Nesting.observe, hb, h]
    | close | delegate _ => simp [Op.trackOpener, Nesting.observe, List.map_tail, h]
    | _ => exact h

/-- **A label names an open region**: entry `d` of the openers is the position of the opener of the
region that label `d` stands for. -/
theorem Body.regions_openers (body : Body) (pos : Nat) :
    (body.openers pos).map (body.ops[·]?)
      = (Nesting.observeAll [] (body.ops.take pos)).map fun r => some (.enter r.kind r.result) :=
  @regions_openersFrom body.ops [] (body.ops.take pos) (body.ops.drop pos) [] [] (by simp) rfl

/-! ## 2. Whole codes

By induction on the structure of a code: after it the openers are those before it. -/

mutual

/-- A code closes the regions that it opens, so the openers behind it are those before it. -/
theorem Code.openersFrom_ops : ∀ {c : Code}, c.WellFormed → ∀ (pos : Nat) (openers : List Nat),
    openersFrom pos openers c.ops = openers
  | .done, _, _, _ => rfl
  | .op o rest, h, pos, openers => by
    rw [Code.WellFormed] at h
    rw [Code.ops, openersFrom, Op.trackOpener_of_isPlain h.1]
    exact Code.openersFrom_ops h.2 _ _
  | .region kind result body arms rest, h, pos, openers => by
    rw [Code.WellFormed] at h
    rw [Code.ops, openersFrom, Op.trackOpener, openersFrom_append, openersFrom_append,
      Code.openersFrom_ops h.2.1, Arms.openersFrom_ops h.2.2.1, Code.openersFrom_ops h.2.2.2]

/-- The arms of a region close it: behind them its opener is the one that is no longer open. -/
theorem Arms.openersFrom_ops : ∀ {a : Arms}, a.WellFormed → ∀ (pos q : Nat) (openers : List Nat),
    openersFrom pos (q :: openers) a.ops = openers
  | .close, _, _, _, _ => rfl
  | .delegate _, _, _, _, _ => rfl
  | .arm head body more, h, pos, q, openers => by
    rw [Arms.WellFormed] at h
    rw [Arms.ops, openersFrom, Op.trackOpener_of_startsArm h.1, openersFrom_append,
      Code.openersFrom_ops h.2.1, Arms.openersFrom_ops h.2.2]

end

/-- A well-nested body has a structure: a well-formed code whose operations it consists of. -/
theorem Body.exists_code {x : Body} (h : (Code.parse x.ops).isSome) :
    ∃ c : Code, c.WellFormed ∧ x.ops = c.ops := by
  obtain ⟨c, hc⟩ := Option.isSome_iff_exists.mp h
  obtain ⟨hops, hwf⟩ := Code.ops_of_parse hc
  exact ⟨c, hwf, hops.symm⟩

theorem Body.openersFrom_ops {x : Body} (h : (Code.parse x.ops).isSome) (pos : Nat)
    (openers : List Nat) : openersFrom pos openers x.ops = openers := by
  obtain ⟨c, hc, hx⟩ := exists_code h
  rw [hx, Code.openersFrom_ops hc]

/-! ## 3. Labels across a cut

Some instructions are cut out and others put in their place, and the positions behind the cut move.
A label keeps what it names if the same instruction is named, wherever that stands now. -/

/-- Where an instruction of `before ++ (cut ++ kept)` is in `before ++ (opening ++ kept)`.  One that
is cut is nowhere, except that the opening, if there is one, replaces the opener at `head`. -/
def movedTo (before cut opening : Body) (head pos : Nat) : Option Nat :=
  if pos < before.length then some pos
  else if before.length + cut.length ≤ pos then some (pos - cut.length + opening.length)
  else if 0 < opening.length ∧ pos = head then some before.length
  else none

/-- **Every label in the code around a cut names the same region as before.**  An instruction
outside of the cut is still there, and the regions around it begin with the instructions that they
began with, the opener at `head` being replaced by the opening. -/
def KeepsLabels (before cut opening kept : Body) (head : Nat) : Prop :=
  ∀ pos, pos < before.length ∨ before.length + cut.length ≤ pos →
    ∃ pos', movedTo before cut opening head pos = some pos' ∧
      (before ++ (opening ++ kept))[pos']? = (before ++ (cut ++ kept))[pos]? ∧
      (Body.openers (before ++ (opening ++ kept)) pos').map some
        = (Body.openers (before ++ (cut ++ kept)) pos).map (movedTo before cut opening head)

namespace KeepsLabels

variable {before cut opening kept : Body} {head : Nat}

/-- Openers in front of the cut stay where they are. -/
theorem map_movedTo {ops : List Op} (h : ops.length ≤ before.length) :
    (openersFrom 0 [] ops).map (movedTo before cut opening head)
      = (openersFrom 0 [] ops).map some := by
  refine List.map_congr_left fun q hq => ?_
  rcases mem_openersFrom hq with hq | hq
  · cases hq
  · have hlt : q < before.length := by omega
    rw [movedTo, if_pos hlt]

/-- It is enough to compare the regions that are open after the cut and after the opening. -/
theorem of_cut
    (h : (openersFrom before.length (openersFrom 0 [] before.ops) cut.ops).map
        (movedTo before cut opening head)
      = (openersFrom before.length (openersFrom 0 [] before.ops) opening.ops).map some) :
    KeepsLabels before cut opening kept head := by
  rintro pos (hp | hp)
  · -- in front of the cut nothing has changed, and nothing moves
    refine ⟨pos, by rw [movedTo, if_pos hp], ?_, ?_⟩
    · rw [List.getElem?_append_left hp, List.getElem?_append_left hp]
    · have htake : ∀ b : Body, (Body.ops (before ++ b)).take pos = before.ops.take pos := by
        intro b
        rw [Body.ops_append, List.take_append_of_le_length (by rw [Body.length_ops]; omega)]
      have hle : (before.ops.take pos).length ≤ pos := List.length_take_le ..
      rw [Body.openers, Body.openers, htake, htake, map_movedTo (by omega)]
  · -- behind it every position moves by the same distance
    have hmoved : ∀ d, movedTo before cut opening head (before.length + cut.length + d)
        = some (before.length + opening.length + d) := by
      intro d
      rw [movedTo, if_neg (by omega), if_pos (by omega)]
      congr 1
      omega
    obtain ⟨d, rfl⟩ := Nat.exists_eq_add_of_le hp
    refine ⟨_, hmoved d, ?_, ?_⟩
    · rw [List.getElem?_append_right (by omega), List.getElem?_append_right (by omega),
        List.getElem?_append_right (by omega), List.getElem?_append_right (by omega)]
      congr 1
      omega
    · have htake : ∀ b : Body,
          (Body.ops (before ++ (b ++ kept))).take (before.length + b.length + d)
            = before.ops ++ (b.ops ++ kept.ops.take d) := by
        intro b
        simp only [Body.ops_append, List.take_append, Body.length_ops]
        rw [List.take_of_length_le (by rw [Body.length_ops]; omega),
          List.take_of_length_le (by rw [Body.length_ops]; omega)]
        congr 3
        omega
      rw [Body.openers, Body.openers, htake, htake]
      simp only [openersFrom_append, Nat.zero_add, Body.length_ops]
      exact (map_openersFrom _ hmoved h).symm

end KeepsLabels

end WasmTrim
