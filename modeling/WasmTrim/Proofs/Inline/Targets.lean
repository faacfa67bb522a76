/-
# Where the branches of a prepared body lead

A body that stands for a call must not reach the labels of the caller.  Inside of the callee a
label may be as large as the number of regions around it, and then names the function; a `return`
leaves the function as well.  Preparation gives both a region to leave instead.

`Body.target?` says what a label names: the region that begins at some position, or no region of
the body at all.  A prepared body has only labels of the first kind (`Body.Closed`).  If it is
not in a block, that is so because nothing in it leaves the function (`Body.Untouched`).  If it is
in a block, all regions have moved by one position, the labels have stayed as they were, and the
block has taken the place of the function (`Body.InBlock`).

The statement does not speak of runs.  It is about what is written, for every callee whose regions
are well nested and that handles no exceptions, typed or not; that such a body does what the callee
does is `Proofs/Semantics/Inlining`, where types are assumed.

A label is compared with the number of open regions twice over, when it is asked whether a body
leaves early and when a `return` is given its number (`exits_early`, `prepare_body`).  Both times
the regions are those open in front of the instruction; an opener has no label, so it does not
matter that it opens one of its own.
-/
import WasmTrim.Proofs.Inline.Prepared
import WasmTrim.Proofs.Labels
import WasmTrim.Proofs.Typing.Inlining

namespace WasmTrim

/-! ## 1. Regions that balance

In a body that balances, what is open at a position depends on what stands before it and is never
less than was open at the start.  Put inside of a region, the body leaves that region open
throughout. -/

theorem depthFrom_append (n : Nat) (a b : List Op) :
    depthFrom n (a ++ b) = (depthFrom n a).bind fun m => depthFrom m b := by
  induction a generalizing n with
  | nil => rfl
  | cons o a ih =>
    cases o with
    | enter kind result => exact ih (n + 1)
    | close | delegate _ =>
      rcases n with _ | _ | n
      · rfl
      · rfl
      · exact ih (n + 1)
    | _ => exact ih n

/-- One more region around a piece stays around it, at each of its operations and at the end. -/
theorem depthFrom_succ {ops : List Op} {n m : Nat} (h : depthFrom n ops = some m) :
    depthFrom (n + 1) ops = some (m + 1) := by
  induction ops generalizing n with
  | nil => exact congrArg (Option.map (· + 1)) h
  | cons o ops ih =>
    cases o with
    | enter kind result => exact ih (n := n + 1) h
    | close | delegate _ =>
      rcases n with _ | _ | n
      · cases h
      · cases h
      · exact ih (n := n + 1) h
    | _ => exact ih (n := n) h

theorem isSome_depthFrom_take {n : Nat} {ops : List Op} (h : (depthFrom n ops).isSome) (k : Nat) :
    (depthFrom n (ops.take k)).isSome := by
  rw [← List.take_append_drop k ops, depthFrom_append] at h
  exact Option.isSome_of_isSome_bind h

/-- The search for a closer passes over regions that balance. -/
theorem closeOffset_append_of_depthFrom {body : Body} {n m : Nat}
    (h : depthFrom (n + 1) body.ops = some (m + 1)) (rest : Body) :
    Body.closeOffset (n + 1) (body ++ rest)
      = (Body.closeOffset (m + 1) rest).map (· + body.length) := by
  induction body generalizing n with
  | nil =>
    obtain rfl := Nat.succ.inj (Option.some.inj h)
    exact (Option.map_id' ..).symm
  | cons i body ih =>
    -- whatever the first instruction does to the count, it is passed over
    have hpass : ∀ d, depthFrom (d + 1) (Body.ops body) = some (m + 1) →
        (Body.closeOffset (d + 1) (body ++ rest)).map (· + 1)
          = (Body.closeOffset (m + 1) rest).map (· + (i :: body).length) := by
      intro d hd
      rw [ih hd, Option.map_map]
      rfl
    obtain ⟨o, marker⟩ := i
    cases o with
    | enter kind result => exact hpass (n + 1) h
    | close | delegate _ =>
      rcases n with _ | n
      · cases h
      · exact hpass n h
    | _ => exact hpass n h

/-- Under regions that begin in front of a piece, the openers of the piece move by one. -/
theorem openersFrom_succ (base : List Nat) {ops : List Op} (pos : Nat) (openers : List Nat)
    (h : (depthFrom (openers.length + 1) ops).isSome) :
    openersFrom (pos + 1) (openers.map (· + 1) ++ base) ops
      = (openersFrom pos openers ops).map (· + 1) ++ base := by
  induction ops generalizing pos openers with
  | nil => rfl
  | cons o ops ih =>
    cases o with
    | enter kind result => exact ih (pos + 1) (pos :: openers) h
    | close | delegate _ =>
      rcases openers with _ | ⟨q, openers⟩
      · cases h
      · exact ih (pos + 1) openers h
    | _ => exact ih (pos + 1) openers h

/-! ## 2. What a label names

A label counts the regions that are open where it stands, from the innermost one outwards.  The
number right after the last of them is the label of the function, and a closed body has no label
with that number. -/

namespace Body

/-- **The regions of a body are well nested**: each closer closes a region that was opened in
front of it, and no region is left open. -/
def WellNested (body : Body) : Prop := depthFrom 1 body.ops = some 1

/-- The position at which the region begins that a label names, if it names a region of the body
and not the function. -/
def target? (body : Body) (pos label : Nat) : Option Nat := (body.openers pos)[label]?

/-- **No label names anything outside of the body.** The depth of every label is less than the
number of regions that are open where it stands, so the label of the function itself is excluded as
well. -/
def Closed (body : Body) : Prop :=
  ∀ (pos : Nat) (i : Instr), body[pos]? = some i → ∀ label ∈ i.op.labels,
    label < (body.openers pos).length

/-- Labels name regions of the body, or the function, whose label comes right after those of the
regions that are open. -/
def InScope (body : Body) : Prop :=
  ∀ (pos : Nat) (i : Instr), body[pos]? = some i → ∀ label ∈ i.op.labels,
    label ≤ (body.openers pos).length

instance (body : Body) : Decidable body.WellNested := inferInstanceAs (Decidable (_ = _))

instance (body : Body) : Decidable body.InScope :=
  decidable_of_iff (∀ pos, (h : pos < body.length) → ∀ label ∈ (body.get ⟨pos, h⟩).op.labels,
      label ≤ (body.openers pos).length) <| by
    constructor
    · intro h pos i hi
      obtain ⟨hlt, rfl⟩ := List.getElem?_eq_some_iff.mp hi
      exact h pos hlt
    · intro h pos hlt
      exact h pos _ (List.getElem?_eq_getElem hlt)

/-- The first instructions of a body, none of which leaves the function, so that they can be used as
they are: every label in them names the same region as in the whole body. -/
structure Untouched (body : Body) (kept : Nat) (prepared : Body) : Prop where
  eq : prepared = body.take kept
  stays : ∀ {pos : Nat} {i : Instr}, pos < kept → body[pos]? = some i →
    i.op ≠ .ret ∧ ∀ label ∈ i.op.labels, ∃ region, body.target? pos label = some region ∧
      prepared.target? pos label = some region

/-- **The first instructions of a body in a block.**  The block encloses them and has the result
of the function.  A `return` has become a branch that leaves the block.  Every other instruction is
there as it was: a label that named the function now names the block, and a label that named a
region still names that region, which has moved along. -/
structure InBlock (result : ResultType) (body : Body) (kept : Nat) (prepared : Body) : Prop where
  opener : prepared[0]? = some (Op.enter .block result).plain
  closer : prepared[kept + 1]? = some Op.close.plain
  matching : prepared.matchingClose? 0 = some (kept + 1)
  length : prepared.length = kept + 2
  returns : ∀ {pos : Nat} {i : Instr}, pos < kept → body[pos]? = some i → i.op = .ret →
    ∃ label, prepared[pos + 1]? = some { i with op := .br label } ∧
      prepared.target? (pos + 1) label = some 0
  others : ∀ {pos : Nat} {i : Instr}, pos < kept → body[pos]? = some i → i.op ≠ .ret →
    prepared[pos + 1]? = some i ∧ ∀ label ∈ i.op.labels,
      prepared.target? (pos + 1) label = some ((body.target? pos label).elim 0 (· + 1))

variable {body : Body}

theorem openers_take {kept pos : Nat} (h : pos ≤ kept) :
    openers (body.take kept) pos = body.openers pos := by
  simp only [openers, ops, List.map_take, List.take_take, Nat.min_eq_left h]

theorem length_openers (body : Body) (pos : Nat) :
    (body.openers pos).length = (Nesting.observeAll [] (body.ops.take pos)).length := by
  simpa using congrArg List.length (body.regions_openers pos)

theorem target?_isSome {pos label : Nat} :
    (body.target? pos label).isSome ↔ label < (body.openers pos).length := by
  simp [target?]

/-! ## 3. Returns as branches

The branch for a `return` has the number of regions open there, which inside the block is the number
of the block. -/

theorem getElem?_branchReturns (n : Nesting) (body : Body) (pos : Nat) :
    (body.branchReturns n)[pos]? = body[pos]?.map fun i =>
      if i.op = .ret then { i with op := .br (n.observeAll (body.ops.take pos)).length }
      else i := by
  induction body generalizing n pos with
  | nil => rfl
  | cons i body ih =>
    cases pos with
    | zero => rfl
    | succ pos => exact ih (n.observe i.op) pos

theorem take_branchReturns (n : Nesting) (body : Body) (k : Nat) :
    (body.branchReturns n).take k = branchReturns n (body.take k) := by
  induction body generalizing n k with
  | nil => simp [branchReturns]
  | cons i body ih =>
    cases k with
    | zero => rfl
    | succ k => exact congrArg _ (ih (n.observe i.op) k)

theorem depthFrom_branchReturns (n : Nesting) (body : Body) (d : Nat) :
    depthFrom d (ops (body.branchReturns n)) = depthFrom d body.ops := by
  induction body generalizing n d with
  | nil => rfl
  | cons i body ih =>
    rw [branchReturns, ops_cons, ops_cons]
    split
    · rename_i hret
      rw [hret]
      exact ih _ d
    · simp only [depthFrom, ih]

theorem openersFrom_branchReturns (n : Nesting) (body : Body) (pos : Nat) (openers : List Nat) :
    openersFrom pos openers (ops (body.branchReturns n)) = openersFrom pos openers body.ops := by
  induction body generalizing n pos openers with
  | nil => rfl
  | cons i body ih =>
    rw [branchReturns, ops_cons, ops_cons, openersFrom, openersFrom, ih]
    split
    · rename_i hret
      rw [hret]
      rfl
    · rfl

theorem ops_branchReturns (n : Nesting) (body : Body) : ops (body.branchReturns n)
    = Congruence.substitute (fun n o => .op (if o = .ret then .br n.length else o) .done) n
        body.ops := by
  induction body generalizing n with
  | nil => rfl
  | cons i body ih =>
    rw [branchReturns, ops_cons, ops_cons, Congruence.substitute, ih]
    by_cases hret : i.op = .ret
    · rw [if_pos hret, hret]
      rfl
    · rw [if_neg hret, if_neg hret]
      split <;> rfl

theorem isSome_parse_branchReturns (h : (Code.parse body.ops).isSome) :
    (Code.parse (ops (body.branchReturns []))).isSome := by
  obtain ⟨c, hc⟩ := Option.isSome_iff_exists.mp h
  have htrivial : Congruence (fun _ => True) (fun _ _ _ => True) (fun _ _ _ => True) := by
    constructor <;> intros <;> trivial
  have hplain : ∀ o ∈ body.ops, o.isPlain → ∀ n : Nesting,
      (Code.op (if o = .ret then .br n.length else o) .done).WellFormed := by
    intro o _ hp n
    refine ⟨?_, trivial⟩
    split
    · rfl
    · exact hp
  obtain ⟨d, hd, -⟩ := htrivial.parse_substitute (fun _ _ _ => trivial) hplain
    (fun _ _ _ _ _ _ _ _ => trivial) hc
  rw [ops_branchReturns, hd]
  rfl

/-! ## 4. The block around a body

All positions move by one, and every opener has one more region around it.  The labels of regions
inside are the same numbers as before, and the label of the function has become that of the block.
-/

theorem WellNested.wrapped (h : body.WellNested) (result : ResultType) :
    WellNested (body.wrapped result) := by
  have hinside : depthFrom 2 (ops (body.branchReturns [])) = some 2 := by
    rw [depthFrom_branchReturns]
    exact depthFrom_succ h
  calc depthFrom 1 (ops (body.wrapped result))
      = depthFrom 2 (ops (body.branchReturns []) ++ [.close]) := by
        rw [Body.wrapped, List.cons_append, ops_cons, ops_append]
        rfl
    _ = some 1 := by
        rw [depthFrom_append, hinside]
        rfl

theorem WellNested.matchingClose?_wrapped (h : body.WellNested) (result : ResultType) :
    (body.wrapped result).matchingClose? 0 = some (body.length + 1) := by
  have hinside : depthFrom 1 (ops (body.branchReturns [])) = some 1 := by
    rw [depthFrom_branchReturns]
    exact h
  have hclose := closeOffset_append_of_depthFrom hinside [Op.close.plain]
  have hskip : (body.wrapped result).matchingClose? 0
      = ((closeOffset 1 (body.branchReturns [] ++ [Op.close.plain])).map (· + 1)).map (0 + ·) := rfl
  rw [hskip, hclose, length_branchReturns]
  simp [closeOffset, Op.plain, Op.opensRegion, Op.closesRegion]

theorem getElem?_wrapped {pos : Nat} (h : pos < body.length) (result : ResultType) :
    (body.wrapped result)[pos + 1]? = (body.branchReturns [])[pos]? := by
  rw [wrapped, List.cons_append, List.getElem?_cons_succ,
    List.getElem?_append_left (by rwa [length_branchReturns])]

/-- **The regions around an instruction in the block** are those that were around it, moved by one,
and the block. -/
theorem WellNested.openers_wrapped (h : body.WellNested) (result : ResultType) {pos : Nat}
    (hpos : pos ≤ body.length) :
    openers (body.wrapped result) (pos + 1) = (body.openers pos).map (· + 1) ++ [0] := by
  have hprefix : (depthFrom 1 (body.ops.take pos)).isSome :=
    isSome_depthFrom_take (by rw [h]; rfl) pos
  have htake : (ops (body.branchReturns [] ++ [Op.close.plain])).take pos
      = ops (branchReturns [] (body.take pos)) := by
    rw [← take_branchReturns, ops_append,
      List.take_append_of_le_length (by rwa [length_ops, length_branchReturns])]
    exact (List.map_take ..).symm
  calc openers (body.wrapped result) (pos + 1)
      = openersFrom 1 [0] ((ops (body.branchReturns [] ++ [Op.close.plain])).take pos) := rfl
    _ = openersFrom 1 [0] (body.ops.take pos) := by
        rw [htake, openersFrom_branchReturns]
        exact congrArg _ (List.map_take ..)
    _ = (body.openers pos).map (· + 1) ++ [0] := openersFrom_succ [0] 0 [] hprefix

/-- A label that named the function names the block, and one that named a region names it still. -/
theorem WellNested.target?_wrapped (h : body.WellNested) (result : ResultType) {pos label : Nat}
    (hpos : pos ≤ body.length) (hlabel : label ≤ (body.openers pos).length) :
    target? (body.wrapped result) (pos + 1) label
      = some ((body.target? pos label).elim 0 (· + 1)) := by
  rw [target?, h.openers_wrapped result hpos, target?]
  rcases Nat.lt_or_eq_of_le hlabel with hlt | heq
  · rw [List.getElem?_append_left (by rwa [List.length_map]), List.getElem?_map,
      List.getElem?_eq_getElem hlt]
    rfl
  · rw [List.getElem?_append_right (by rw [List.length_map]; omega), List.length_map, heq,
      Nat.sub_self, List.getElem?_eq_none (Nat.le_refl _)]
    rfl

theorem WellNested.inBlock (h : body.WellNested) (hscope : body.InScope) (result : ResultType) :
    InBlock result body body.length (body.wrapped result) where
  opener := rfl
  closer := by simp [Body.wrapped]
  matching := h.matchingClose?_wrapped result
  length := by simp [Body.wrapped]
  returns {pos i} hpos hi hret := by
    refine ⟨(body.openers pos).length, ?_, ?_⟩
    · rw [getElem?_wrapped hpos, getElem?_branchReturns, hi, Option.map_some, if_pos hret,
        length_openers]
    · rw [h.target?_wrapped result (Nat.le_of_lt hpos) (Nat.le_refl _), target?,
        List.getElem?_eq_none (Nat.le_refl _)]
      rfl
  others {pos i} hpos hi hne := by
    constructor
    · rw [getElem?_wrapped hpos, getElem?_branchReturns, hi, Option.map_some, if_neg hne]
    · intro label hl
      exact h.target?_wrapped result (Nat.le_of_lt hpos) (hscope pos i hi label hl)

/-- Nothing in a block leaves it for something outside: every label belongs to a region of the block
or to the block itself. -/
theorem InBlock.closed {result : ResultType} {kept : Nat} {prepared : Body}
    (h : InBlock result body kept prepared) (hkept : kept ≤ body.length) : prepared.Closed := by
  intro pos i hi label hl
  rw [← target?_isSome]
  rcases pos with _ | pos
  · -- the opener
    obtain rfl := Option.some.inj (hi.symm.trans h.opener)
    cases hl
  · have hlt : pos + 1 < kept + 2 := h.length ▸ (List.getElem?_eq_some_iff.mp hi).1
    rcases Nat.lt_or_eq_of_le (Nat.le_of_lt_succ (Nat.lt_of_succ_lt_succ hlt)) with hpos | rfl
    · obtain ⟨j, hj⟩ : ∃ j, body[pos]? = some j :=
        ⟨_, List.getElem?_eq_getElem (Nat.lt_of_lt_of_le hpos hkept)⟩
      by_cases hret : j.op = .ret
      · obtain ⟨label', hi', htarget⟩ := h.returns hpos hj hret
        obtain rfl := Option.some.inj (hi.symm.trans hi')
        obtain rfl := List.mem_singleton.mp hl
        rw [htarget]
        rfl
      · obtain ⟨hi', htarget⟩ := h.others hpos hj hret
        obtain rfl := Option.some.inj (hi.symm.trans hi')
        rw [htarget label hl]
        rfl
    · -- the closer
      obtain rfl := Option.some.inj (hi.symm.trans h.closer)
      cases hl

theorem isSome_parse_wrapped (h : (Code.parse body.ops).isSome) (result : ResultType) :
    (Code.parse (ops (body.wrapped result))).isSome := by
  obtain ⟨c, hc, hops⟩ := exists_code (isSome_parse_branchReturns h)
  have hblock : Code.WellFormed (.region .block result c .close .done) :=
    ⟨rfl, hc, trivial, trivial⟩
  have e : ops (body.wrapped result) = Code.ops (.region .block result c .close .done) := by
    rw [wrapped, List.cons_append, ops_cons, ops_append, hops]
    rfl
  rw [e, Code.parse_ops hblock]
  rfl

/-! ## 5. The first instructions of a body

A body from which a last `return` has been left out is the first part of the body before.  If
nothing in it leaves the function it is closed as it is (`exits_early`). -/

theorem InScope.take (h : body.InScope) (kept : Nat) : InScope (body.take kept) := by
  intro pos i hi label hl
  have hpos : pos < kept := by
    have := (List.getElem?_eq_some_iff.mp hi).1
    rw [List.length_take] at this
    omega
  rw [List.getElem?_take_of_lt hpos] at hi
  rw [openers_take (Nat.le_of_lt hpos)]
  exact h pos i hi label hl

theorem InBlock.of_take {result : ResultType} {kept : Nat} {prepared : Body}
    (h : InBlock result (body.take kept) kept prepared) : InBlock result body kept prepared where
  opener := h.opener
  closer := h.closer
  matching := h.matching
  length := h.length
  returns hpos hi := h.returns hpos (by rwa [List.getElem?_take_of_lt hpos])
  others {pos i} hpos hi hne := by
    have := h.others hpos (by rwa [List.getElem?_take_of_lt hpos]) hne
    simpa only [target?, openers_take (Nat.le_of_lt hpos)] using this

/-- What does not leave the function names only regions of the body. -/
theorem closed_of_exitsEarly (h : body.exitsEarly [] = false)
    (hx : ∀ i ∈ body, i.op.isException = false) : body.Closed := by
  intro pos i hi label hl
  have hlt : pos < body.ops.length := by
    rw [length_ops]
    exact (List.getElem?_eq_some_iff.mp hi).1
  have hop : body.ops[pos] = i.op := by
    have : body.ops[pos]? = some i.op := by rw [ops, List.getElem?_map, hi, Option.map_some]
    exact (List.getElem?_eq_some_iff.mp this).2
  have e : body.ops = body.ops.take pos ++ i.op :: body.ops.drop (pos + 1) := by
    rw [← hop, ← List.drop_eq_getElem_cons hlt, List.take_append_drop]
  rw [length_openers]
  exact Inline.lt_of_leaves (Inline.leaves_of_exitsEarly h e) (hx i (List.mem_of_getElem? hi)) hl

end Body

/-! ## 6. The prepared body

Which of the two forms is used depends on the body (`prepare_body`); in either, what a label named
in the callee it names in what stands for a call. -/

namespace Function

variable {f : Function}

/-- Preparation keeps a body, up to a last `return`: that one goes if what it would discard is
nothing. -/
def Keeps (f : Function) (kept : Nat) : Prop :=
  kept = f.body.length ∨
    kept + 1 = f.body.length ∧ ∃ last, f.body[kept]? = some last ∧ last.op = .ret

theorem exists_keeps (signatureOf : Nat → Option Signature) (f : Function) :
    ∃ kept, f.Keeps kept ∧ f.withoutFinalReturn signatureOf = f.body.take kept := by
  unfold withoutFinalReturn
  split
  · rename_i h
    obtain ⟨last, hlast, hret⟩ := Option.map_eq_some_iff.mp h.1
    rw [List.getLast?_eq_getElem?] at hlast
    have hlt := (List.getElem?_eq_some_iff.mp hlast).1
    exact ⟨f.body.length - 1, .inr ⟨by omega, last, hlast, hret⟩, List.dropLast_eq_take⟩
  · exact ⟨f.body.length, .inl rfl, (List.take_length ..).symm⟩

namespace Keeps

variable {kept : Nat}

theorem le_length (h : f.Keeps kept) : kept ≤ f.body.length := by
  rcases h with rfl | ⟨h, -⟩
  · exact Nat.le_refl _
  · omega

theorem body_eq (h : f.Keeps kept) :
    f.body = f.body.take kept ∨ ∃ last, f.body = f.body.take kept ++ [last] ∧ last.op = .ret := by
  rcases h with rfl | ⟨hlength, last, hlast, hret⟩
  · exact .inl (List.take_length ..).symm
  · refine .inr ⟨last, ?_, hret⟩
    calc f.body = f.body.take (kept + 1) := by rw [hlength, List.take_length]
      _ = f.body.take kept ++ [last] := by rw [List.take_add_one, hlast]; rfl

theorem wellNested (h : f.Keeps kept) (hnested : f.body.WellNested) :
    Body.WellNested (f.body.take kept) := by
  rcases h.body_eq with e | ⟨last, e, hret⟩
  · rwa [← e]
  · -- a `return` neither opens nor closes
    rw [Body.WellNested, e, Body.ops_append, depthFrom_append] at hnested
    obtain ⟨m, hm, hlast⟩ := Option.bind_eq_some_iff.mp hnested
    rw [Body.ops_cons, hret] at hlast
    obtain rfl := Option.some.inj hlast
    exact hm

theorem isSome_parse (h : f.Keeps kept) (hparse : (Code.parse f.body.ops).isSome) :
    (Code.parse (Body.ops (f.body.take kept))).isSome := by
  rcases h.body_eq with e | ⟨last, e, hret⟩
  · rwa [← e]
  · obtain ⟨c, hc, hops⟩ := Body.exists_code hparse
    rw [e, Body.ops_append, Body.ops_cons, hret] at hops
    obtain ⟨d, hd, hd', -⟩ := Code.exists_append_of_ops rfl hc hops.symm
    rw [← hd', Code.parse_ops hd]
    rfl

end Keeps

/-- **A prepared body is closed.**  If the regions of the callee are well nested, its labels name
regions of it or the function, and it has no exceptions, then its prepared body is well nested, has
no `return`, and no label in it names anything outside of it.  It is the body of the callee, up to a
last `return`: either as it was, and then nothing in it left the function; or in a block with the
result of the function, to which lead the branches that stand for a `return` and those that led
to the function, while every other branch leads to the region to which it led before. -/
theorem preparedBody_closed (signatureOf : Nat → Option Signature) (hnested : f.body.WellNested)
    (hx : ∀ i ∈ f.body, i.op.isException = false) (hscope : f.body.InScope) :
    (f.preparedBody signatureOf).WellNested ∧
    ((Code.parse f.body.ops).isSome → (Code.parse (f.preparedBody signatureOf).ops).isSome) ∧
    (∀ i ∈ f.preparedBody signatureOf, i.op ≠ .ret) ∧
    (f.preparedBody signatureOf).Closed ∧
    ∃ kept, f.Keeps kept ∧
      (f.body.Untouched kept (f.preparedBody signatureOf) ∨
        f.body.InBlock f.result kept (f.preparedBody signatureOf)) := by
  obtain ⟨kept, hkept, hbody⟩ := f.exists_keeps signatureOf
  have hfirst := hkept.wellNested hnested
  have hret : ∀ i ∈ f.preparedBody signatureOf, i.op ≠ .ret := by
    intro i hi e
    exact f.ret_notMem_preparedBody signatureOf (Body.mem_ops.mpr ⟨i, hi, e⟩)
  have hprepared : f.preparedBody signatureOf = if Body.exitsEarly [] (f.body.take kept) then
      Body.wrapped f.result (f.body.take kept) else f.body.take kept := by
    rw [← hbody]
    rfl
  cases hexits : Body.exitsEarly [] (f.body.take kept) with
  | true =>
    rw [hexits, if_pos rfl] at hprepared
    have hlength : (f.body.take kept).length = kept := List.length_take_of_le hkept.le_length
    have hblock := hfirst.inBlock (hscope.take kept) f.result
    rw [hlength] at hblock
    rw [hprepared] at hret ⊢
    exact ⟨hfirst.wrapped f.result,
      fun h => Body.isSome_parse_wrapped (hkept.isSome_parse h) f.result, hret,
      hblock.closed (Nat.le_of_eq hlength.symm), kept, hkept, .inr hblock.of_take⟩
  | false =>
    rw [hexits, if_neg Bool.false_ne_true] at hprepared
    have hclosed := Body.closed_of_exitsEarly hexits fun i hi => hx i (List.mem_of_mem_take hi)
    rw [hprepared] at hret ⊢
    refine ⟨hfirst, hkept.isSome_parse, hret, hclosed, kept, hkept, .inl ⟨rfl, ?_⟩⟩
    intro pos i hpos hi
    have hi' : (f.body.take kept)[pos]? = some i := by rwa [List.getElem?_take_of_lt hpos]
    refine ⟨hret i (List.mem_of_getElem? hi'), fun label hl => ?_⟩
    obtain ⟨region, hregion⟩ := Option.isSome_iff_exists.mp
      (Body.target?_isSome.mpr (hclosed pos i hi' label hl))
    refine ⟨region, ?_, hregion⟩
    rwa [Body.target?, ← Body.openers_take (Nat.le_of_lt hpos)]

/-- A callee that leaves early in three ways, by a `return` in two regions, by a branch and by one
entry of a branch table, and ends with a `return`. -/
def searching : Function :=
  (Function.declare 1 "search" [("limit", .i32)] (some .i32)).withBody <| List.map Op.plain
    [.enter .block (some .i32), .localGet 0, .enter .ifThen none, .i32Const 7, .ret, .close,
      .i32Const 8, .localGet 0, .brIf 1, .localGet 0, .brTable [0] 1, .close, .ret]

theorem preparedBody_closed_searching :
    searching.body.WellNested ∧ (∀ i ∈ searching.body, i.op.isException = false) ∧
      searching.body.InScope ∧ Body.Closed (searching.preparedBody fun _ => none) ∧
      ∃ kept, 12 ≤ kept ∧ searching.body.InBlock (some .i32) kept
        (searching.preparedBody fun _ => none) := by
  have hnested : searching.body.WellNested := by decide
  have hx : ∀ i ∈ searching.body, i.op.isException = false := by decide
  have hscope : searching.body.InScope := by decide
  obtain ⟨-, -, -, hclosed, kept, hkept, h⟩ :=
    preparedBody_closed (fun _ => none) hnested hx hscope
  have hlength : 12 ≤ kept := by
    rcases hkept with rfl | ⟨h, -⟩
    · decide
    · exact Nat.le_of_eq (Nat.succ.inj h.symm)
  refine ⟨hnested, hx, hscope, hclosed, kept, hlength, ?_⟩
  rcases h with h | h
  · have hfour : 4 < kept := by omega
    exact absurd rfl (h.stays hfour rfl).1
  · exact h

end Function

end WasmTrim
