/-
# Removing functions one after another

A removal moves the functions behind the removed one down by one, and every call follows.  The next
request speaks in the new numbers.  To tell what a call means after many removals, a ghost stands
beside the program: the list of the positions at which the functions that are left stood before all
removals (`Program.survivors`).  It gives every index its *referent*, an import or one of the
functions of the first program (`referent?`).

One removal leaves the referent of every call as it is, since imports lie below all functions and
since a call goes to the removed function only from that function itself
(`Program.Relinked.withoutFunction`).  So a program that came out of any number of removals is the
first one, less some functions, with the same calls by other numbers
(`Program.removals_keep_calls`).

The ghost is needed because numbers alone do not say enough.  After two removals the index 3 may
mean what was 5, and a statement that compares indices would have to compose renumberings; with
the positions at hand, each removal takes one entry out of a list, and an index refers to the entry
at its place.

A removal (`remove_function`) does not ask whether somebody calls the function.  If another function
does, the call keeps its number and goes to the successor; so the requests of the theorem are those
at which, in turn, no other function has such a call.  The inliner makes only such requests.
-/
import WasmTrim.Proofs.Inline.Provenance

namespace WasmTrim

open Inline.Inlined (position getElem?_eraseIdx_position exists_of_getElem?_eraseIdx)

/-! ## 1. What a call refers to

An import by its index, or a function by the position at which it stood at the start.  The list of
these positions shrinks with every removal, in step with the functions. -/

/-- Something that can be called: an import, or a function, by the position at which it stood before
all removals. -/
inductive Referent where
  | imported (position : Nat)
  | function (origin : Nat)
deriving DecidableEq

/-- What an index refers to, when the functions that are there stood at the positions `origins`. -/
def referent? (imports : Nat) (origins : List Nat) (index : Nat) : Option Referent :=
  if index < imports then some (.imported index)
  else (origins[index - imports]?).map .function

/-- Every index of a program refers to something: an import, or a function by its position at the
start. -/
theorem exists_referent?_range {imports count index : Nat} (h : index < imports + count) :
    ∃ r, referent? imports (List.range count) index = some r := by
  unfold referent?
  split
  · exact ⟨_, rfl⟩
  · rw [List.getElem?_range (by omega)]
    exact ⟨_, rfl⟩

/-- Without one function, an index moves and its position moves alike. -/
theorem apply_removing_position (imports k i : Nat) :
    (Compaction.removing [imports + k]).apply (imports + i) = imports + position k i := by
  rw [Compaction.apply_removing_one]
  unfold position
  split <;> split <;> omega

/-- **A removal keeps the referents**, that of the removed function apart. What a renumbered index
refers to after the removal is what the index referred to before it, counted in the program that
there was at the start. -/
theorem referent?_eraseIdx {imports k index : Nat} (origins : List Nat)
    (h : index ≠ imports + k) :
    referent? imports (origins.eraseIdx k) ((Compaction.removing [imports + k]).apply index)
      = referent? imports origins index := by
  by_cases himport : index < imports
  · rw [Compaction.apply_removing_one, if_neg (by omega)]
    simp only [referent?, if_pos himport]
  · obtain ⟨i, rfl⟩ : ∃ i, index = imports + i := ⟨index - imports, by omega⟩
    have hi : i ≠ k := by omega
    rw [apply_removing_position]
    simp only [referent?, Nat.not_lt.mpr (Nat.le_add_right _ _), if_false,
      Nat.add_sub_cancel_left, getElem?_eraseIdx_position hi]

/-! ## 2. Requests

A function may be asked to go only if nothing calls it, not even itself.  A request for an import or
for an index that is too large removes nothing. -/

namespace Program

/-- **A program is linked**: every function stands at its index, and every call goes to something
that is there. -/
structure Linked (p : Program) : Prop where
  indices : ∀ (i : Nat) (f : Function), p.functions[i]? = some f → f.index = p.functionBase + i
  targets : ∀ f ∈ p.functions, ∀ i ∈ f.body, ∀ target, i.op.callTarget? = some target →
    target < p.imports.length + p.functions.length

/-- No other function calls the function at an index, if one is there. -/
def Uncalled (p : Program) (index : Nat) : Prop :=
  ∀ f ∈ p.functions, f.index = index → ∀ g ∈ p.functions, g.index ≠ index →
    ∀ i ∈ g.body, i.op.callTarget? ≠ some index

instance (p : Program) (index : Nat) : Decidable (p.Uncalled index) :=
  inferInstanceAs (Decidable (∀ f ∈ p.functions, f.index = index → ∀ g ∈ p.functions,
    g.index ≠ index → ∀ i ∈ g.body, i.op.callTarget? ≠ some index))

/-- Every request finds its function, if there is one, called by no other one. -/
def UncalledInTurn (p : Program) : List Nat → Prop
  | [] => True
  | index :: requests => p.Uncalled index ∧ (p.withoutFunction index).UncalledInTurn requests

instance decidableUncalledInTurn : ∀ (p : Program) (requests : List Nat),
    Decidable (p.UncalledInTurn requests)
  | _, [] => inferInstanceAs (Decidable True)
  | p, index :: requests =>
    haveI := decidableUncalledInTurn (p.withoutFunction index) requests
    inferInstanceAs (Decidable (p.Uncalled index ∧ _))

/-- The program after a sequence of requests, each of which names a function by its index in the
program that it meets (`remove_function`). -/
def withoutFunctions (p : Program) (requests : List Nat) : Program :=
  requests.foldl withoutFunction p

/-- **What one request does to a linked program.**  Nothing, where no function has the index;
otherwise the function at its position goes. -/
theorem Linked.withoutFunction_cases {p : Program} (h : p.Linked) (index : Nat) :
    (p.withoutFunction index = p ∧
      (index < p.imports.length ∨ p.imports.length + p.functions.length ≤ index)) ∨
    ∃ k f, p.functions[k]? = some f ∧ f.index = index ∧ index = p.imports.length + k ∧
      p.withoutFunction index = { p with
        functions := (p.functions.eraseIdx k).map
          (Function.compactCalls (.removing [index])) } := by
  by_cases hrange : p.imports.length ≤ index ∧ index < p.imports.length + p.functions.length
  · obtain ⟨k, rfl⟩ : ∃ k, index = p.imports.length + k := ⟨index - p.imports.length, by omega⟩
    have hk := List.getElem?_eq_getElem (show k < p.functions.length by omega)
    have hindex : p.functions[k].index = p.imports.length + k := h.indices k _ hk
    refine .inr ⟨k, _, hk, hindex, rfl, ?_⟩
    have hremoved := removeFunction_of_getElem? h.indices hk
    rw [hindex] at hremoved
    rw [withoutFunction, hremoved]
  · refine .inl ⟨?_, by omega⟩
    have hnone : p.removeFunction index = none := by
      refine removeFunction_eq_none_iff.mpr fun f hf hindex => hrange ?_
      obtain ⟨i, hi⟩ := List.getElem?_of_mem hf
      have hlt := (List.getElem?_eq_some_iff.mp hi).1
      have := h.indices i f hi
      rw [functionBase] at this
      omega
    rw [withoutFunction, hnone]

/-- The functions that a removal leaves, with their new positions. -/
theorem exists_of_removed {p : Program} {k index j : Nat} {g : Function}
    (hg : ((p.functions.eraseIdx k).map (Function.compactCalls (.removing [index])))[j]? = some g) :
    ∃ i f, i ≠ k ∧ j = position k i ∧ p.functions[i]? = some f ∧
      g = f.compactCalls (.removing [index]) := by
  rw [List.getElem?_map] at hg
  obtain ⟨f, hf, rfl⟩ := Option.map_eq_some_iff.mp hg
  obtain ⟨i, hi, hj, hf⟩ := exists_of_getElem?_eraseIdx hf
  exact ⟨i, f, hi, hj, hf, rfl⟩

/-- In a linked program a call of the function at `k` stands in that function. -/
theorem Uncalled.callTarget?_ne {p : Program} {index k i : Nat} {f g : Function}
    (h : p.Uncalled index) (hp : p.Linked) (hk : p.functions[k]? = some f) (hf : f.index = index)
    (hi : p.functions[i]? = some g) (hne : i ≠ k) :
    ∀ x ∈ g.body, x.op.callTarget? ≠ some index := by
  refine h f (List.mem_of_getElem? hk) hf g (List.mem_of_getElem? hi) fun hg => hne ?_
  have h₁ := hp.indices k f hk
  have h₂ := hp.indices i g hi
  omega

/-- **A removal keeps programs linked**, if nothing calls the function that is removed: every call
still names an import or a function that is there. -/
theorem Linked.withoutFunction {p : Program} {index : Nat} (h : p.Linked)
    (hu : p.Uncalled index) : (p.withoutFunction index).Linked := by
  rcases h.withoutFunction_cases index with ⟨e, -⟩ | ⟨k, f, hk, hf, rfl, e⟩
  · rw [e]
    exact h
  rw [e]
  have hlt := (List.getElem?_eq_some_iff.mp hk).1
  constructor
  · intro j g hg
    obtain ⟨i, f', hi, rfl, hf', rfl⟩ := exists_of_removed hg
    have hindex : f'.index = p.imports.length + i := h.indices i f' hf'
    simp only [Function.compactCalls, hindex, apply_removing_position]
    rfl
  · intro g hg x hx target htarget
    obtain ⟨j, hj⟩ := List.getElem?_of_mem hg
    obtain ⟨i, f', hi, rfl, hf', rfl⟩ := exists_of_removed hj
    obtain ⟨y, hy, rfl⟩ := List.mem_map.mp hx
    rw [Instr.op_mapCall, Op.callTarget?_mapCall, Option.map_eq_some_iff] at htarget
    obtain ⟨old, hold, rfl⟩ := htarget
    have hne : old ≠ p.imports.length + k := by
      rintro rfl
      exact hu.callTarget?_ne h hk hf hf' hi y hy hold
    have hbound := h.targets f' (List.mem_of_getElem? hf') y hy old hold
    simp only [Compaction.apply_removing_one, List.length_map, List.length_eraseIdx_of_lt hlt]
    split <;> omega

end Program

/-! ## 3. The same calls by other numbers

Two programs, one of which has come of the other by removals, are compared instruction by
instruction: all are the same but the calls, and these refer to the same. -/

/-- The same instruction, where a call names what it named before: `before` and `after` tell what
the old and the new indices refer to. -/
inductive Instr.Relinked (before after : Nat → Option Referent) : Instr → Instr → Prop where
  | other {i : Instr} (h : i.op.callTarget? = none) : Relinked before after i i
  | call {i : Instr} {target target' : Nat} {r : Referent} (h : i.op.callTarget? = some target)
    (old : before target = some r) (new : after target' = some r) :
    Relinked before after i (i.mapCall fun _ => target')

theorem Instr.Relinked.mapCall {before after after' : Nat → Option Referent} {i j : Instr}
    {φ : Nat → Nat} (h : i.Relinked before after j)
    (hφ : ∀ target, j.op.callTarget? = some target → after' (φ target) = after target) :
    i.Relinked before after' (j.mapCall φ) := by
  cases h with
  | other h =>
    have e : i.mapCall φ = i := by
      obtain ⟨op, m⟩ := i
      cases op with
      | call | returnCall => cases h
      | _ => rfl
    rw [e]
    exact .other h
  | @call target target' r h old new =>
    have e : (i.mapCall fun _ => target').mapCall φ = i.mapCall fun _ => φ target' := by
      obtain ⟨op, m⟩ := i
      cases op <;> rfl
    rw [e]
    refine .call h old ?_
    rw [hφ target' (by simp [h]), new]

/-- The same function at another index, with its calls relinked: each call refers to what it
referred to, under the number that this has now. -/
structure Function.Relinked (before after : Nat → Option Referent) (f g : Function) : Prop where
  same : g = { f with index := g.index, body := g.body }
  body : List.Forall₂ (Instr.Relinked before after) f.body g.body

theorem Function.Relinked.compactCalls {before after after' : Nat → Option Referent}
    {f g : Function} {c : Compaction} (h : f.Relinked before after g)
    (hc : ∀ i ∈ g.body, ∀ target, i.op.callTarget? = some target →
      after' (c.apply target) = after target) :
    f.Relinked before after' (g.compactCalls c) where
  same := by
    rw [h.same]
    rfl
  body := by
    have hbody := h.body
    rw [Function.compactCalls]
    generalize f.body = old, g.body = new at hbody hc
    induction hbody with
    | nil => exact .nil
    | cons hi _ ih =>
      refine .cons (hi.mapCall (hc _ List.mem_cons_self)) (ih fun j hj => ?_)
      exact hc j (List.mem_cons_of_mem _ hj)

/-- **A program with the same calls**: of the functions of `p` those at the positions `origins` are
left, in their order, and every call of theirs refers to what it referred to in `p`. -/
structure Program.Relinked (p : Program) (origins : List Nat) (q : Program) : Prop where
  same : q = { p with functions := q.functions }
  order : origins.Pairwise (· < ·)
  length : origins.length = q.functions.length
  functions : ∀ (k : Nat) (g : Function), q.functions[k]? = some g →
    ∃ origin f, origins[k]? = some origin ∧ p.functions[origin]? = some f ∧
      f.Relinked (referent? p.imports.length (List.range p.functions.length))
        (referent? p.imports.length origins) g

namespace Program

variable {p q : Program} {origins : List Nat}

theorem Relinked.imports (h : p.Relinked origins q) : q.imports = p.imports := by
  rw [h.same]

/-- A linked program has the same calls as itself, before anything has been removed from it. -/
theorem Linked.relinked (h : p.Linked) : p.Relinked (List.range p.functions.length) p where
  same := rfl
  order := List.pairwise_lt_range
  length := List.length_range
  functions := by
    intro k f hf
    have hk := (List.getElem?_eq_some_iff.mp hf).1
    refine ⟨k, f, List.getElem?_range hk, hf, rfl, List.forall₂_same.mpr fun i hi => ?_⟩
    cases hi' : i.op.callTarget? with
    | none => exact .other hi'
    | some target =>
      obtain ⟨r, hr⟩ := exists_referent?_range (h.targets f (List.mem_of_getElem? hf) i hi _ hi')
      have := Instr.Relinked.call hi' hr hr
      rwa [Instr.mapCall_of_callTarget? hi'] at this

/-! ## 4. Any number of removals

Requests are made one after the other, each in the numbers that the one before has left. -/

/-- The positions at which the functions stood that a request leaves. -/
def survive (imports : Nat) (origins : List Nat) (index : Nat) : List Nat :=
  if index < imports then origins else origins.eraseIdx (index - imports)

/-- The positions at which the functions stood that a sequence of requests leaves. -/
def survivors (imports : Nat) (origins requests : List Nat) : List Nat :=
  requests.foldl (survive imports) origins

/-- **One removal keeps the calls.** Every call in the program that is left refers to what it
referred to in the program at the start, through all removals made so far. -/
theorem Relinked.withoutFunction {index : Nat} (h : p.Relinked origins q) (hq : q.Linked)
    (hu : q.Uncalled index) :
    p.Relinked (survive p.imports.length origins index) (q.withoutFunction index) := by
  have himports := h.imports
  rcases hq.withoutFunction_cases index with ⟨e, hout⟩ | ⟨k, f, hk, hf, hindex, e⟩
  · -- the ghost has no position at this index either
    have hstays : survive p.imports.length origins index = origins := by
      unfold survive
      split
      · rfl
      · refine List.eraseIdx_of_length_le ?_
        rw [himports] at hout
        rw [h.length]
        omega
    rw [e, hstays]
    exact h
  · rw [himports] at hindex
    subst hindex
    have hgoes : survive p.imports.length origins (p.imports.length + k) = origins.eraseIdx k := by
      rw [survive, if_neg (by omega), Nat.add_sub_cancel_left]
    rw [e, hgoes]
    refine ⟨?_, h.order.sublist (List.eraseIdx_sublist _ _), ?_, fun j g hg => ?_⟩
    · rw [h.same]
    · rw [List.length_map, List.length_eraseIdx, List.length_eraseIdx, h.length]
    · obtain ⟨i, g', hi, rfl, hg', rfl⟩ := exists_of_removed hg
      obtain ⟨origin, f', horigin, hf', hrelinked⟩ := h.functions i g' hg'
      refine ⟨origin, f', by rw [getElem?_eraseIdx_position hi, horigin], hf', ?_⟩
      refine hrelinked.compactCalls fun x hx target htarget => referent?_eraseIdx origins ?_
      rintro rfl
      exact hu.callTarget?_ne hq hk hf hg' hi x hx htarget

/-- **Any number of removals keeps the calls**, in whatever order they are asked for, as long as no
function is called when its turn comes. A request for a function that is not there changes nothing.
-/
theorem Relinked.withoutFunctions {requests : List Nat} (h : p.Relinked origins q) (hq : q.Linked)
    (hu : q.UncalledInTurn requests) :
    (q.withoutFunctions requests).Linked ∧
      p.Relinked (survivors p.imports.length origins requests) (q.withoutFunctions requests) := by
  induction requests generalizing q origins with
  | nil => exact ⟨hq, h⟩
  | cons index requests ih =>
    obtain ⟨hindex, hrest⟩ := hu
    exact ih (h.withoutFunction hq hindex) (hq.withoutFunction hindex) hrest

/-- **Removals keep the call graph.**  After any sequence of requests on a linked program, each of
which finds its function called by no other one, every function stands at its index again; the
functions that are left are the old ones in their order, and every call of theirs refers to the
same import or the same function as before; and a request for an index that no function has
removes nothing. -/
theorem removals_keep_calls (p : Program) (requests : List Nat) (hp : p.Linked)
    (hu : p.UncalledInTurn requests) :
    (p.withoutFunctions requests).Linked ∧
      p.Relinked (survivors p.imports.length (List.range p.functions.length) requests)
        (p.withoutFunctions requests) ∧
      ∀ (q : Program) (index : Nat), (∀ f ∈ q.functions, f.index ≠ index) →
        q.removeFunction index = none ∧ q.withoutFunction index = q := by
  obtain ⟨hlinked, hrelinked⟩ := hp.relinked.withoutFunctions hp hu
  refine ⟨hlinked, hrelinked, fun q index hnone => ?_⟩
  have hremoved := removeFunction_eq_none_iff.mpr hnone
  exact ⟨hremoved, by rw [withoutFunction, hremoved]⟩

/-- A program where one function is called by itself and by one that nobody calls. -/
def callers : Program where
  imports := [⟨"env", "print", ⟨[.i32], none⟩⟩]
  functions := [
    (Function.declare 1 "helper" [] none).withBody ([.call 0].map Op.plain),
    (Function.declare 2 "endless" [] none).withBody ([.returnCall 2].map Op.plain),
    (Function.declare 3 "forgotten" [] none).withBody ([.call 1, .call 2, .call 4].map Op.plain),
    (Function.declare 4 "main" [] none).withBody
      ([.call 0, .call 1, .nop, .returnCall 4].map Op.plain)]
  globals := []
  tags := []
  exceptions := []
  types := .empty

theorem removals_keep_calls_callers :
    let left := callers.withoutFunctions [3, 9, 2, 0]
    left.functions.map Function.name = ["helper", "main"] ∧
      (left.functions.map fun f => f.body.map Instr.op)
        = [[.call 0], [.call 0, .call 1, .nop, .returnCall 2]] ∧
      left.Linked ∧ callers.Relinked [0, 3] left := by
  intro left
  have hp : callers.Linked := by
    refine ⟨fun i f hf => ?_, by decide +kernel⟩
    match i with
    | 0 | 1 | 2 | 3 =>
      obtain rfl := Option.some.inj hf
      rfl
    | i + 4 => cases hf
  have hu : callers.UncalledInTurn [3, 9, 2, 0] := by decide +kernel
  obtain ⟨hlinked, hrelinked, -⟩ := removals_keep_calls callers [3, 9, 2, 0] hp hu
  exact ⟨by decide +kernel, by decide +kernel, hlinked, hrelinked⟩

end Program

end WasmTrim
