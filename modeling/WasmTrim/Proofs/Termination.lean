/-
# How long the work can take

Every repetition of the optimizer uses something up.

* A scan takes turns: it applies a rule or steps over an instruction.  A rule lowers the weight of
  the body, twice its length plus the number of `local.set`s, and sends the scan back by at most
  five instructions, so no scan takes more turns than five times the weight plus the length
  (`Peephole.Turns.length_add_remaining_le`).
* A round of the passes on a function lowers the weight plus the number of locals whenever it
  changes anything (`Optimize.round_lightens`).  A function that is still changing after 64 rounds
  was therefore at least that heavy (`Optimize.le_load_of_notConverged`).
* An inlining pass that changes anything removes a function (`Inline.inlineFunctions_effect`), so a
  program in which inlining does not settle in 16 further passes has lost that many
  (`Optimize.length_of_notSettled`).

Nothing is asked of bodies, tables of locals or programs: regions may be left open, locals may be
missing, and several functions may have the same index.

The three bounds tell when the two bounds built into the optimizer (`MAX_ITERATIONS` and
`MAX_INLINE_ROUNDS`) can be felt at all.  A function whose weight and locals come to less than 64
always converges; a program that does not lose sixteen functions always settles.  They are
sufficient and not meant to be sharp: a round that changes anything usually changes more than the
one unit that is counted.

Weight alone would not do for a round.  A local that nothing uses is removed without any change of
the body, which is why locals are counted along (`Function.load`).  And a scan needs more than the
weight of the body too, since it also takes turns in which nothing changes.
-/
import WasmTrim.Proofs.Positional.Completeness
import WasmTrim.Proofs.Positional.Inlining

namespace WasmTrim

/-! ## 1. The turns of a scan

A turn tries the rules at the focus, and either applies one or steps forward.  The loop in `rewrite`
makes one turn each time round. -/

namespace Peephole

/-- One turn of the scan: it applies the first rule that matches, or steps over an instruction. -/
inductive Turn (s : Scope) : Cursor → Cursor → Prop where
  | apply {seen rest : Body} {y : Instr} {r : Rule} {c : Cursor}
      (h : firstMatch Rule.all s ⟨y :: seen, rest⟩ = some (r, c)) : Turn s ⟨seen, y :: rest⟩ c
  | step {seen rest : Body} {y : Instr} (h : firstMatch Rule.all s ⟨y :: seen, rest⟩ = none) :
      Turn s ⟨seen, y :: rest⟩ ⟨y :: seen, rest⟩

/-- Several turns, one after the other, with their number, from the cursor at the start to that at
the end. -/
inductive Turns (s : Scope) : Nat → Cursor → Cursor → Prop where
  | none (c : Cursor) : Turns s 0 c c
  | cons {c d e : Cursor} {n : Nat} (h : Turn s c d) (h' : Turns s n d e) : Turns s (n + 1) c e

/-- How many turns are left at most: one for each instruction ahead, and five for each unit of
weight, since a rule may send the scan back by that much. -/
def Cursor.remaining (c : Cursor) : Nat := 5 * c.weight + c.rest.length

theorem Turn.remaining_lt {s : Scope} {c d : Cursor} (h : Turn s c d) :
    d.remaining < c.remaining := by
  cases h with
  | apply h =>
    have hprogress := reduceAt_progress (reduceAt_of_firstMatch h).2
    have hlighter := hprogress.lighter
    have hnear := hprogress.near
    simp only [Cursor.remaining, Cursor.weight, Body.weight_cons, List.length_cons]
      at hlighter hnear ⊢
    omega
  | step h =>
    simp only [Cursor.remaining, Cursor.weight, Body.weight_cons, List.length_cons]
    omega

/-- **Turns are bounded**, by the length of the body and its weight. Going forward uses up the one,
and applying a rule uses up enough of the other to pay for going back. -/
theorem Turns.length_add_remaining_le {s : Scope} {n : Nat} {c d : Cursor} (h : Turns s n c d) :
    n + d.remaining ≤ c.remaining := by
  induction h with
  | none c => omega
  | cons h _ ih =>
    have := h.remaining_lt
    omega

/-- **A scan is a sequence of turns to the end of the body.** The scan is defined without counting;
this gives the count. -/
theorem exists_turns_scanFrom (s : Scope) (seen rest : Body) :
    ∃ n, Turns s n ⟨seen, rest⟩ ⟨(scanFrom Rule.all s seen rest).body.reverse, []⟩ := by
  fun_induction scanFrom Rule.all s seen rest with
  | case1 seen => exact ⟨0, by rw [List.reverse_reverse]; exact .none _⟩
  | case2 seen y rest r c hmatch _ out ih =>
    obtain ⟨n, hturns⟩ := ih
    exact ⟨n + 1, .cons (.apply hmatch) hturns⟩
  | case3 seen y rest hmatch ih =>
    obtain ⟨n, hturns⟩ := ih
    exact ⟨n + 1, .cons (.step hmatch) hturns⟩

/-- A rule makes the body lighter and not longer, wherever the cursor goes afterwards. -/
theorem body_of_reduceAt {s : Scope} {c c' : Cursor} {r : Rule} (h : reduceAt s c r = some c') :
    c'.body.weight < c.body.weight ∧ c'.body.length ≤ c.body.length := by
  refine ⟨?_, ?_⟩
  · rw [Cursor.weight_body, Cursor.weight_body]
    exact (reduceAt_progress h).lighter
  · obtain ⟨seen, rest⟩ := c
    cases seen with
    | nil =>
      -- without a focus no rule has anything to look at
      cases r <;> simp [reduceAt, setGet, getDrop, teeDrop, constDrop, eqz, extendWrap,
        convertTrunc, foldTrunc, foldConvert, tailCall, loopIncrement, postIncrement, paramShuffle,
        transparentBlock, deadTypeCase, emptyTypeSwitch, deadLastType] at h
    | cons y seen =>
      have hshorter := (reduceAt_resumes h).shorter
      simp only [Cursor.body, List.length_append, List.length_reverse, List.length_cons]
      omega

/-- Every firing of a scan takes its part of the weight. -/
theorem weight_scanFrom (s : Scope) (seen rest : Body) :
    (scanFrom Rule.all s seen rest).body.weight + (scanFrom Rule.all s seen rest).firings.length
        ≤ seen.weight + rest.weight ∧
      (scanFrom Rule.all s seen rest).body.length ≤ seen.length + rest.length := by
  fun_induction scanFrom Rule.all s seen rest with
  | case1 seen => simp
  | case2 seen y rest r c hmatch _ out ih =>
    obtain ⟨hweight, hlength⟩ := body_of_reduceAt (reduceAt_of_firstMatch hmatch).2
    simp only [Cursor.body, Body.weight_append, Body.weight_reverse, Body.weight_cons,
      List.length_append, List.length_reverse, List.length_cons] at hweight hlength ⊢
    refine ⟨?_, ?_⟩
    · have := ih.1
      simp only [out]
      omega
    · have := ih.2
      simp only [out]
      omega
  | case3 seen y rest hmatch ih =>
    simp only [Body.weight_cons, List.length_cons] at ih ⊢
    refine ⟨?_, ?_⟩
    · have := ih.1
      omega
    · have := ih.2
      omega

end Peephole

/-! ## 2. What a pass takes away

The load of a function counts its instructions by weight, and its locals.  Each pass is shown to
lower it when it reports a change, and never to raise it. -/

namespace Function

/-- The weight of the body plus the number of locals. -/
def load (f : Function) : Nat := f.body.weight + f.locals.size

/-- **A pass lightens a function**: the body does not get longer, the load does not grow, and it
falls if the pass reports a change. -/
structure Lightens (f : Function) (r : Function × Bool × Trace) : Prop where
  shorter : r.1.body.length ≤ f.body.length
  lighter : r.1.load ≤ f.load
  falls : r.2.1 = true → r.1.load < f.load

/-- A pass that is left out lightens nothing and reports that it has changed nothing. -/
theorem Lightens.skip (f : Function) : f.Lightens (f, false, []) :=
  ⟨Nat.le_refl _, Nat.le_refl _, fun h => Bool.noConfusion h⟩

end Function

namespace Peephole

theorem simplify_lightens (ctx : Context) (f : Function) : f.Lightens (simplify ctx f) := by
  obtain ⟨hweight, hlength⟩ := weight_scanFrom (ctx.scope f) [] f.body
  simp only [Body.weight_nil, List.length_nil, Nat.zero_add] at hweight hlength
  refine ⟨hlength, ?_, fun hchanged => ?_⟩
  · simp only [Function.load, simplify, scan]
    omega
  · simp only [simplify, scan, Outcome.changed, Bool.not_eq_true', List.isEmpty_eq_false_iff,
      ← List.length_pos_iff] at hchanged
    simp only [Function.load, simplify, scan]
    omega

end Peephole

namespace Folding

/-- Every fold makes the body lighter: the folds that were made can be counted against the weight
that is gone. The body never gets longer. -/
theorem weight_foldFrom : ∀ (rest seen : Body),
    (foldFrom seen rest).body.weight + (foldFrom seen rest).folds.length
        ≤ seen.weight + rest.weight ∧
      (foldFrom seen rest).body.length ≤ seen.length + rest.length
  | [], seen => by simp [foldFrom]
  | i :: rest, seen => by
    simp only [foldFrom]
    split
    · rename_i f below hfold
      obtain ⟨_, _, rfl, -, -⟩ := fold?_eq_some hfold
      obtain ⟨hweight, hlength⟩ := weight_foldFrom rest ((Op.const f.value).plain :: below)
      have hi := i.op.two_le_weight
      have hconst : ∀ v : Value, (Op.const v).weight = 2 := fun _ => rfl
      simp only [Body.weight_cons, List.length_cons, Op.op_plain, hconst] at hweight hlength ⊢
      omega
    · obtain ⟨hweight, hlength⟩ := weight_foldFrom rest (i :: seen)
      simp only [Body.weight_cons, List.length_cons] at hweight hlength ⊢
      omega

theorem foldConstants_lightens (f : Function) : f.Lightens (foldConstants f) := by
  obtain ⟨hweight, hlength⟩ := weight_foldFrom f.body []
  simp only [Body.weight_nil, List.length_nil, Nat.zero_add] at hweight hlength
  refine ⟨hlength, ?_, fun hchanged => ?_⟩
  · simp only [Function.load, foldConstants, foldBody]
    omega
  · simp only [foldConstants, foldBody, Bool.not_eq_true', List.isEmpty_eq_false_iff,
      ← List.length_pos_iff] at hchanged
    simp only [Function.load, foldConstants, foldBody]
    omega

end Folding

namespace DeadLocals

/-- A store that is dropped takes at least one off the weight. -/
theorem weight_dropStore (dead : Nat → Bool) (i : Instr) :
    Body.weight (dropStore dead i) + (writes dead i).toNat ≤ i.op.weight ∧
      (dropStore dead i).length ≤ 1 := by
  obtain ⟨op, m⟩ := i
  cases op with
  | localSet l => cases hl : dead l <;> simp [dropStore, writes, Op.storedLocal?, hl]
  | localTee l => cases hl : dead l <;> simp [dropStore, writes, Op.storedLocal?, hl]
  | _ => simp [dropStore, writes, Op.storedLocal?]

theorem weight_dropStores (dead : Nat → Bool) : ∀ body : Body,
    Body.weight (body.flatMap (dropStore dead)) + (body.any (writes dead)).toNat
        ≤ body.weight ∧
      (body.flatMap (dropStore dead)).length ≤ body.length
  | [] => by simp
  | i :: body => by
    obtain ⟨hweight, hlength⟩ := weight_dropStores dead body
    obtain ⟨hi, hi'⟩ := weight_dropStore dead i
    simp only [List.flatMap_cons, Body.weight_append, List.any_cons, List.length_append,
      Body.weight_cons, List.length_cons]
    refine ⟨?_, by omega⟩
    have hor : (writes dead i || body.any (writes dead)).toNat
        ≤ (writes dead i).toNat + (body.any (writes dead)).toNat := by
      cases writes dead i <;> cases List.any body (writes dead) <;> decide
    omega

/-- Renumbering the locals keeps the weight, which depends on the kinds of operations only. -/
theorem weight_map_mapLocal (g : Nat → Nat) (body : Body) :
    Body.weight (body.map (Instr.mapLocal g)) = body.weight := by
  induction body with
  | nil => rfl
  | cons i body ih =>
    obtain ⟨op, m⟩ := i
    have hop : (Instr.mapLocal g ⟨op, m⟩).op.weight = op.weight := by cases op <;> rfl
    simp only [List.map_cons, Body.weight_cons, hop, ih]

/-- A table gets smaller when a local that it has is removed. -/
theorem size_compact_lt {t : LocalTable} {c : Compaction} {l : Local} (hl : l ∈ t.entries)
    (hc : l.index ∈ c.removed) : (t.compact c).size < t.size := by
  have hnone : l.compact? c = none := by
    rw [Local.compact?, Compaction.get?_eq_none_iff.mpr hc, Option.map_none]
  obtain ⟨before, after, e⟩ := List.append_of_mem hl
  have hbefore := List.length_filterMap_le (Local.compact? c) before
  have hafter := List.length_filterMap_le (Local.compact? c) after
  simp only [LocalTable.size, LocalTable.compact, e, List.filterMap_append, List.filterMap_cons,
    hnone, List.length_append, List.length_cons]
  omega

theorem eliminate_lightens (f : Function) : f.Lightens (eliminate f) := by
  obtain ⟨hweight, hlength⟩ := weight_dropStores (isUnread f) f.body
  simp only [eliminate]
  split
  · refine ⟨hlength, ?_, fun hchanged => ?_⟩
    · simp only [Function.load, dropStores]
      omega
    · dsimp only at hchanged
      rw [hchanged, Bool.toNat_true] at hweight
      simp only [Function.load, dropStores]
      omega
  · rename_i hunused
    obtain ⟨index, hindex⟩ := List.exists_mem_of_ne_nil _ fun e => hunused (List.isEmpty_iff.mpr e)
    obtain ⟨l, hl, rfl⟩ := List.mem_map.mp (List.mem_filter.mp hindex).1
    have hsize : ((dropStores f).locals.compact (.removing (unused (dropStores f)))).size
        < f.locals.size := size_compact_lt hl (Compaction.mem_removing.mpr hindex)
    have hfalls : (removeLocals (dropStores f) (unused (dropStores f))).load < f.load := by
      simp only [Function.load, removeLocals, Function.compactLocals, weight_map_mapLocal]
      simp only [dropStores] at hsize hweight ⊢
      omega
    refine ⟨?_, Nat.le_of_lt hfalls, fun _ => hfalls⟩
    simpa only [removeLocals, Function.compactLocals, List.length_map, dropStores] using hlength

end DeadLocals

/-! ## 3. Reports without warnings

A warning that some repetition was cut short is found in a trace exactly where the repetition ends,
so the rest of the trace has to be known to hold none. -/

/-- A report that holds no warning, so that nothing of it is shown unless the settings are verbose.
-/
def Trace.Quiet (t : Trace) : Prop := ∀ e ∈ t, e.isWarning = false

namespace Trace.Quiet

theorem nil : Quiet [] := fun _ h => absurd h List.not_mem_nil

theorem cons {e : Event} {t : Trace} (he : e.isWarning = false) (h : Quiet t) : Quiet (e :: t) :=
  List.forall_mem_cons.mpr ⟨he, h⟩

theorem append {t u : Trace} (h : Quiet t) (h' : Quiet u) : Quiet (t ++ u) :=
  fun e he => (List.mem_append.mp he).elim (h e) (h' e)

theorem map {α : Type} {g : α → Event} (hg : ∀ a, (g a).isWarning = false) (l : List α) :
    Quiet (l.map g) := List.forall_mem_map.mpr fun a _ => hg a

/-- A warning of two reports comes from the second if the first is quiet. -/
theorem mem_append {e : Event} {t u : Trace} (h : Quiet t) (he : e.isWarning = true) :
    e ∈ t ++ u ↔ e ∈ u := by
  refine ⟨fun hm => (List.mem_append.mp hm).elim (fun ht => ?_) id, List.mem_append_right t⟩
  rw [h e ht] at he
  cases he

end Trace.Quiet

namespace Optimize

open Trace

variable {level : Level} {ctx : Peephole.Context}

theorem round_quiet (f : Function) : Quiet (round level ctx f).2.2 := by
  have hsimplify : ∀ f, Quiet (Peephole.simplify ctx f).2.2 := by
    intro f e he
    obtain ⟨x, -, hx⟩ := List.mem_flatMap.mp he
    simp only [Peephole.Firing.events] at hx
    split at hx
    · simp only [List.mem_cons, List.not_mem_nil, or_false] at hx
      rcases hx with rfl | rfl <;> rfl
    · simp only [List.mem_cons, List.not_mem_nil, or_false] at hx
      rw [hx]
      rfl
  have hfold : ∀ f, Quiet (Folding.foldConstants f).2.2 := fun f => .map (fun _ => rfl) _
  have heliminate : ∀ f, Quiet (DeadLocals.eliminate f).2.2 := by
    intro f
    simp only [DeadLocals.eliminate]
    split <;> exact .cons rfl (.map (fun _ => rfl) _)
  simp only [round]
  refine .append (.append (hsimplify f) ?_) ?_
  · split
    · exact hfold _
    · exact .nil
  · split
    · exact heliminate _
    · exact .nil

/-! ## 4. Rounds

A round with a change lowers the load, so there are no more such rounds than the load of the
function at the start (`MAX_ITERATIONS`). -/

/-- **A round lightens a function.** No pass adds to the load, and every change of every pass takes
something off it. -/
theorem round_lightens (f : Function) : f.Lightens (round level ctx f) := by
  have hsimplify := Peephole.simplify_lightens ctx f
  have hfold : ∀ f : Function, f.Lightens
      (if level.atLeast .fold then Folding.foldConstants f else (f, false, [])) := by
    intro f
    split
    · exact Folding.foldConstants_lightens f
    · exact .skip f
  have heliminate : ∀ f : Function, f.Lightens
      (if level.atLeast .inline then DeadLocals.eliminate f else (f, false, [])) := by
    intro f
    split
    · exact DeadLocals.eliminate_lightens f
    · exact .skip f
  have h₂ := hfold (Peephole.simplify ctx f).1
  have h₃ := heliminate (if level.atLeast .fold then
    Folding.foldConstants (Peephole.simplify ctx f).1
    else ((Peephole.simplify ctx f).1, false, [])).1
  have hfolded := Nat.le_trans h₂.lighter hsimplify.lighter
  refine ⟨?_, ?_, fun hchanged => ?_⟩
  · exact Nat.le_trans h₃.shorter (Nat.le_trans h₂.shorter hsimplify.shorter)
  · exact Nat.le_trans h₃.lighter hfolded
  · -- one of the three passes has changed something, and the others do no harm
    simp only [round, Bool.or_eq_true] at hchanged
    rcases hchanged with (h | h) | h
    · exact Nat.lt_of_le_of_lt (Nat.le_trans h₃.lighter h₂.lighter) (hsimplify.falls h)
    · exact Nat.lt_of_le_of_lt h₃.lighter (Nat.lt_of_lt_of_le (h₂.falls h) hsimplify.lighter)
    · exact Nat.lt_of_lt_of_le (h₃.falls h) hfolded

/-- **Rounds that are cut short have each taken something.** So the load of the function was at
least the number of rounds, and a function with a smaller load always converges. -/
theorem le_load_of_notConverged {name : String} {n : Nat} : ∀ (left : Nat) (f : Function),
    .notConverged name n ∈ (converge level ctx left f).2 → left ≤ f.load
  | 0, f, _ => Nat.zero_le _
  | left + 1, f, h => by
    simp only [converge] at h
    split at h
    · rename_i hchanged
      have hfalls := (round_lightens f).falls hchanged
      have hleft := le_load_of_notConverged left _ (((round_quiet f).mem_append rfl).mp h)
      omega
    · rw [(round_quiet f).mem_append rfl] at h
      simp at h

/-- No pass on a function makes its body longer, nor do all the rounds together. Only inlining does.
-/
theorem length_converge_le : ∀ (left : Nat) (f : Function),
    (converge level ctx left f).1.body.length ≤ f.body.length
  | 0, f => Nat.le_refl _
  | left + 1, f => by
    have hround : (round level ctx f).1.body.length ≤ f.body.length := (round_lightens f).shorter
    simp only [converge]
    split
    · exact Nat.le_trans (length_converge_le left _) hround
    · exact hround

/-- The passes on the functions never report that inlining was cut short. -/
theorem notSettled_notMem_converge {n : Nat} : ∀ (left : Nat) (f : Function),
    .notSettled n ∉ (converge level ctx left f).2
  | 0, f => by simp [converge]
  | left + 1, f => by
    simp only [converge]
    split
    · rw [(round_quiet f).mem_append rfl]
      exact notSettled_notMem_converge left _
    · rw [(round_quiet f).mem_append rfl]
      simp

end Optimize

/-! ## 5. Inlining

Inlining may make bodies longer, and the load is no measure for it.  But it removes a function each
time (`inline_functions`). -/

namespace Inline

open Trace

theorem expandCalls_quiet {callee : Function} {prepared : Body} {caller : String} :
    ∀ {body : Body} {t : LocalTable} {out : Expansion},
      expandCalls callee prepared caller body t = .ok out → Quiet out.trace
  | [], t, out, h => by
    obtain rfl := Except.ok.inj h
    exact .nil
  | i :: body, t, out, h => by
    simp only [expandCalls, bind, Except.bind] at h
    split at h
    · split at h
      · cases h
      · split at h
        · cases h
        · rename_i rest hrest
          obtain rfl := Except.ok.inj h
          refine .cons rfl (.append (fun e he => ?_) (expandCalls_quiet hrest))
          obtain ⟨j, -, hj⟩ := List.mem_filterMap.mp he
          exact Positional.renamed?_isWarning hj
    · split at h
      · cases h
      · rename_i rest hrest
        obtain rfl := Except.ok.inj h
        exact (expandCalls_quiet hrest : Quiet rest.trace)

/-- What inlining into one function keeps: its index, and that no warning has been given. -/
theorem inlineInto_quiet {callee f f' : Function} {prepared : Body} {t : Trace}
    (h : inlineInto callee prepared f = .ok (f', t)) : f'.index = f.index ∧ Quiet t := by
  simp only [inlineInto, bind, Except.bind] at h
  split at h
  · cases h
  · rename_i out hout
    obtain ⟨rfl, rfl⟩ := Prod.mk.inj (Except.ok.inj h)
    exact ⟨rfl, expandCalls_quiet hout⟩

theorem inlineIntoAll_quiet {callee : Function} {prepared : Body} :
    ∀ {fs fs' : List Function} {t : Trace}, inlineIntoAll callee prepared fs = .ok (fs', t) →
      fs'.map Function.index = fs.map Function.index ∧ Quiet t
  | [], fs', t, h => by
    obtain ⟨rfl, rfl⟩ := Prod.mk.inj (Except.ok.inj h)
    exact ⟨rfl, .nil⟩
  | f :: fs, fs', t, h => by
    simp only [inlineIntoAll, bind, Except.bind] at h
    split at h
    · split at h
      · cases h
      · rename_i rest hrest
        obtain ⟨gs, t₁⟩ := rest
        obtain ⟨rfl, rfl⟩ := Prod.mk.inj (Except.ok.inj h)
        obtain ⟨hmap, hquiet⟩ := inlineIntoAll_quiet hrest
        exact ⟨by simp only [List.map_cons, hmap], hquiet⟩
    · split at h
      · cases h
      · rename_i r hr
        obtain ⟨g, t₁⟩ := r
        dsimp only at h
        split at h
        · cases h
        · rename_i rest hrest
          obtain ⟨gs, t₂⟩ := rest
          obtain ⟨rfl, rfl⟩ := Prod.mk.inj (Except.ok.inj h)
          obtain ⟨hmap, hquiet⟩ := inlineIntoAll_quiet hrest
          obtain ⟨hindex, hquiet'⟩ := inlineInto_quiet hr
          exact ⟨by simp only [List.map_cons, hmap, hindex], hquiet'.append hquiet⟩

/-- **Inlining a function removes one**, also when others have the same index. Nothing is assumed of
the program, and the warnings of the optimizer are not given here. -/
theorem inlineCallee_effect {p p' : Program} {callee : Function} {t : Trace}
    (hm : callee ∈ p.functions) (h : inlineCallee p callee = .ok (p', t)) :
    p'.functions.length + 1 = p.functions.length ∧ Quiet t := by
  simp only [inlineCallee, bind, Except.bind] at h
  split at h
  · cases h
  · rename_i r hr
    obtain ⟨fs, t₁⟩ := r
    obtain ⟨rfl, rfl⟩ := Prod.mk.inj (Except.ok.inj h)
    obtain ⟨hmap, hquiet⟩ := inlineIntoAll_quiet hr
    refine ⟨?_, hquiet⟩
    have hlength : fs.length = p.functions.length := by
      simpa only [List.length_map] using congrArg List.length hmap
    have hindex : callee.index ∈ fs.map Function.index := by
      rw [hmap]
      exact List.mem_map_of_mem hm
    simp only [Program.withoutFunction]
    split
    · rename_i removed p' hremoved
      have := Program.length_of_removeFunction hremoved
      dsimp only at this
      omega
    · rename_i hnone
      obtain ⟨g, hg, e⟩ := List.mem_map.mp hindex
      exact absurd e (Program.removeFunction_eq_none_iff.mp hnone g hg)

/-- **An inlining pass that changes anything removes a function**, and one that removes none has
changed nothing, so the number of functions bounds the number of such passes. -/
theorem inlineEach_effect : ∀ {names : List String} {p q : Program} {changed : Bool} {t : Trace},
    inlineEach names p = .ok (q, changed, t) →
      q.functions.length + changed.toNat ≤ p.functions.length ∧ Quiet t
  | [], p, q, changed, t, h => by
    obtain ⟨rfl, rfl, rfl⟩ := by simpa [inlineEach] using h
    exact ⟨Nat.le_refl _, .nil⟩
  | name :: names, p, q, changed, t, h => by
    unfold inlineEach at h
    split at h
    · exact inlineEach_effect h
    · rename_i callee hcallee
      split at h
      · simp only [bind, Except.bind] at h
        split at h
        · cases h
        · rename_i r hr
          obtain ⟨p', t₁⟩ := r
          dsimp only at h
          split at h
          · cases h
          · rename_i r' hr'
            obtain ⟨q', changed', t₂⟩ := r'
            obtain ⟨rfl, rfl, rfl⟩ := by simpa [pure, Except.pure] using h
            obtain ⟨hremoved, hquiet⟩ :=
              inlineCallee_effect (List.mem_of_find?_eq_some hcallee) hr
            obtain ⟨hle, hquiet'⟩ := inlineEach_effect hr'
            refine ⟨?_, hquiet.append hquiet'⟩
            simp only [Bool.toNat_true]
            omega
      · simp only [bind, Except.bind] at h
        split at h
        · cases h
        · rename_i r hr
          obtain ⟨q', changed', t₁⟩ := r
          obtain ⟨rfl, rfl, rfl⟩ := by simpa [pure, Except.pure] using h
          obtain ⟨hle, hquiet⟩ := inlineEach_effect hr
          exact ⟨hle, .cons rfl hquiet⟩

theorem inlineFunctions_effect {p q : Program} {changed : Bool} {t : Trace}
    (h : inlineFunctions p = .ok (q, changed, t)) :
    q.functions.length + changed.toNat ≤ p.functions.length ∧ Quiet t := by
  simp only [inlineFunctions, bind, Except.bind] at h
  split at h
  · cases h
  · rename_i r hr
    obtain ⟨q', changed', t'⟩ := r
    obtain ⟨rfl, rfl, rfl⟩ := by simpa [pure, Except.pure] using h
    obtain ⟨hle, hquiet⟩ := inlineEach_effect hr
    exact ⟨hle, .append (.cons rfl (.map (fun _ => rfl) _)) hquiet⟩

end Inline

/-! ## 6. The program

A round of inlining that is not the last one has removed a function, and the passes between add none
(`MAX_INLINE_ROUNDS`). -/

namespace Optimize

variable {c : Config} {n : Nat}

theorem notSettled_notMem_optimizeFunctions (p : Program) :
    .notSettled n ∉ (optimizeFunctions c p).2 := by
  intro h
  simp only [optimizeFunctions, List.mem_flatMap, List.mem_map] at h
  obtain ⟨_, ⟨f, -, rfl⟩, hf⟩ := h
  exact notSettled_notMem_converge maxRounds f hf

/-- **Inlining that is cut short has removed a function in each turn**, and inlining that is not
has added none. -/
theorem length_of_settle : ∀ {left : Nat} {p q : Program} {t : Trace},
    settle c left p = .ok (q, t) → q.functions.length ≤ p.functions.length ∧
      (.notSettled n ∈ t → q.functions.length + left ≤ p.functions.length)
  | 0, p, q, t, h => by
    obtain ⟨rfl, -⟩ := Prod.mk.inj (Except.ok.inj h)
    exact ⟨Nat.le_refl _, fun _ => Nat.le_refl _⟩
  | left + 1, p, q, t, h => by
    simp only [settle, bind, Except.bind] at h
    split at h
    · cases h
    · rename_i r hr
      obtain ⟨p₁, changed, t₁⟩ := r
      obtain ⟨hle, hquiet⟩ := Inline.inlineFunctions_effect hr
      dsimp only at h
      split at h
      · rename_i hchanged
        rw [hchanged, Bool.toNat_true] at hle
        split at h
        · cases h
        · rename_i r' hr'
          obtain ⟨p₂, t₂⟩ := r'
          obtain ⟨rfl, rfl⟩ := Prod.mk.inj (Except.ok.inj h)
          obtain ⟨hle', hcut⟩ := length_of_settle hr'
          rw [length_optimizeFunctions] at hle' hcut
          dsimp only
          refine ⟨by omega, fun hm => ?_⟩
          rw [List.append_assoc, hquiet.mem_append rfl, List.mem_append] at hm
          have := hcut (hm.resolve_left (notSettled_notMem_optimizeFunctions p₁))
          omega
      · obtain ⟨rfl, rfl⟩ := Prod.mk.inj (Except.ok.inj h)
        refine ⟨by omega, fun hm => ?_⟩
        rw [hquiet.mem_append rfl] at hm
        simp at hm

theorem length_of_run {p q : Program} {t : Trace} (h : run c p = .ok (q, t))
    (hm : .notSettled n ∈ t) : q.functions.length + maxInlineRounds ≤ p.functions.length := by
  have hfirst : ∀ {p₁ : Program} {t₁ : Trace}, inlineFirst c p = .ok (p₁, t₁) →
      p₁.functions.length ≤ p.functions.length ∧ Trace.Quiet t₁ := by
    intro p₁ t₁ h₁
    simp only [inlineFirst, bind, Except.bind] at h₁
    split at h₁
    · split at h₁
      · cases h₁
      · rename_i r hr
        obtain ⟨p', changed, t'⟩ := r
        obtain ⟨rfl, rfl⟩ := Prod.mk.inj (Except.ok.inj h₁)
        obtain ⟨hle, hquiet⟩ := Inline.inlineFunctions_effect hr
        exact ⟨Nat.le_trans (Nat.le_add_right _ _) hle, hquiet⟩
    · obtain ⟨rfl, rfl⟩ := Prod.mk.inj (Except.ok.inj h₁)
      exact ⟨Nat.le_refl _, .nil⟩
  have hwarning : .notSettled n ∉ (if c.tailCalls then [.tailCallsEnabled] else [] : Trace) := by
    split <;> simp
  simp only [run, bind, Except.bind, pure, Except.pure] at h
  split at h
  · obtain ⟨-, rfl⟩ := Prod.mk.inj (Except.ok.inj h)
    simp at hm
  · split at h
    · cases h
    · rename_i r hr
      obtain ⟨p₁, t₁⟩ := r
      obtain ⟨hle, hquiet⟩ := hfirst hr
      have hquiet' : .notSettled n ∉ t₁ := fun h => Bool.noConfusion (hquiet _ h)
      have hfunctions := notSettled_notMem_optimizeFunctions (c := c) (n := n) p₁
      split at h
      · obtain ⟨-, rfl⟩ := Prod.mk.inj (Except.ok.inj h)
        simp only [List.mem_append, hwarning, hquiet', or_self] at hm
      · split at h
        · obtain ⟨-, rfl⟩ := Prod.mk.inj (Except.ok.inj h)
          simp only [List.mem_append, hwarning, hquiet', hfunctions, or_self] at hm
        · split at h
          · cases h
          · rename_i r' hr'
            obtain ⟨p₂, t₂⟩ := r'
            obtain ⟨rfl, rfl⟩ := Prod.mk.inj (Except.ok.inj h)
            simp only [List.mem_append, hwarning, hquiet', hfunctions, false_or] at hm
            have := (length_of_settle hr').2 hm
            rw [length_optimizeFunctions] at this
            exact Nat.le_trans this hle

end Optimize

/-- **Inlining that does not settle has removed at least sixteen functions**, one in each of the
extra rounds. A program with fewer functions always settles. -/
theorem length_of_notSettled {c : Config} {p q : Program} {t : Trace} {n : Nat}
    (h : optimize c p = .ok (q, t)) (hm : .notSettled n ∈ t) :
    q.functions.length + Optimize.maxInlineRounds ≤ p.functions.length := by
  simp only [optimize, bind, Except.bind] at h
  split at h
  · cases h
  · rename_i r hr
    obtain ⟨q', t'⟩ := r
    obtain ⟨rfl, rfl⟩ := Prod.mk.inj (Except.ok.inj h)
    exact Optimize.length_of_run hr (List.mem_filter.mp hm).1

/-! ## 7. The bounds

All of them in one statement, with the two warnings as the evidence that a bound was reached. -/

open Peephole in
/-- **The work on a program is bounded.**  For any function, context and level: a scan takes at most
five times the weight plus the length of the body in turns and comes to the end of the body; every
rule makes the body lighter and not longer; every pass keeps the length of the body and the load
from growing and lowers the load when it reports a change; and only a function with a load of at
least 64 can be reported as not converged.  For any program: inlining is reported as not settled
only if at least 16 functions were removed. -/
theorem work_bounded :
    (∀ (s : Scope) (body : Body),
      (∃ n, Turns s n (.start body) ⟨(scan Rule.all s body).body.reverse, []⟩) ∧
      ∀ n c, Turns s n (.start body) c → n ≤ 5 * body.weight + body.length) ∧
    (∀ (s : Scope) (c c' : Cursor) (r : Rule), reduceAt s c r = some c' →
      2 * c'.body.length + c'.body.countP (fun i => i.op.isLocalSet)
          < 2 * c.body.length + c.body.countP (fun i => i.op.isLocalSet) ∧
        c'.body.length ≤ c.body.length) ∧
    (∀ (level : Level) (ctx : Context) (f : Function),
      f.Lightens (simplify ctx f) ∧ f.Lightens (Folding.foldConstants f) ∧
      f.Lightens (DeadLocals.eliminate f) ∧
      (Optimize.optimizeFunction level ctx f).1.body.length ≤ f.body.length ∧
      ∀ name n, .notConverged name n ∈ (Optimize.optimizeFunction level ctx f).2 →
        64 ≤ 2 * f.body.length + f.body.countP (fun i => i.op.isLocalSet) + f.locals.size) ∧
    (∀ (c : Config) (p q : Program) (t : Trace) (n : Nat), optimize c p = .ok (q, t) →
      .notSettled n ∈ t → q.functions.length + 16 ≤ p.functions.length) := by
  refine ⟨fun s body => ⟨?_, fun n c h => ?_⟩, fun s c c' r h => body_of_reduceAt h,
    fun level ctx f => ⟨simplify_lightens ctx f, Folding.foldConstants_lightens f,
      DeadLocals.eliminate_lightens f, Optimize.length_converge_le _ f,
      fun name n h => Optimize.le_load_of_notConverged _ f h⟩,
    fun c p q t n h hm => length_of_notSettled h hm⟩
  · exact exists_turns_scanFrom s [] body
  · have hle := h.length_add_remaining_le
    simp only [Cursor.remaining, Cursor.start, Cursor.weight, Body.weight_nil, Nat.zero_add] at hle
    omega

end WasmTrim
