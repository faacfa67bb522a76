/-
# The passes on one function by position

The scan, the folding of constants and the removal of locals as loops over positions.  The scan
keeps the stack of open regions beside the position and builds it anew after each rule; folding
starts at the third instruction and goes back by one after each fold; a local is renumbered by a
search for the place of its index among the removed ones and a subtraction.

Each loop has a measure that must decrease, and stops with a trap when it does not.  Every loop here
runs to its end and gives what the pass of the library gives (`simplifyAt_eq`, `foldConstantsAt_eq`,
`eliminateAt_eq`).  What a pass reports depends on whether everything is to be reported; what it
does to the function does not.

The measures are those of the walks.  A rule may send the scan back, so its distance from the end
alone says nothing; but a rule makes the body lighter, and by enough to pay for going back
(`Positional.remaining_lt_of_progress`).  A fold makes the body shorter by two and sends the loop
back by one.  Renumbering goes through its entries once.

For each loop one lemma is about one turn with the body cut at the position, and an induction along
the walk makes of it a statement about all turns.
-/
import WasmTrim.DeadLocals
import WasmTrim.Folding
import WasmTrim.Peephole.Scan
import WasmTrim.Proofs.Locals
import WasmTrim.Proofs.Positional.Regions

namespace WasmTrim.Positional

open Peephole

/-! ## 1. The scan

The loop keeps a tracker of the open regions, shows it every instruction before the rules are tried
there, and after a rule builds it anew from the body up to the place where it goes on (`rewrite`).
That the tracker is always the one for its position is part of what is shown. -/

/-- The first rule that applies at a position, in the order of the list, and what it does (`RULES`).
-/
def firstAttempt (verbose : Bool) (s : Scope) (n : Nesting) (body : Body) (i : Nat) :
    List Rule → Checked (Option (Rule × Edit))
  | [] => .ok none
  | r :: rules => do
    match ← attempt verbose s n body i r with
    | some e => return some (r, e)
    | none => firstAttempt verbose s n body i rules

theorem firstAttempt_eq (verbose : Bool) (s : Scope) (y : Instr) (seen rest : Body) :
    ∀ rules : List Rule, firstAttempt verbose s (Nesting.ofReversed (y :: seen))
        (seen.reverse ++ y :: rest) seen.length rules
      = .ok ((firstMatch rules s ⟨y :: seen, rest⟩).map fun m =>
          (m.1, Edit.ofCursor (Trace.shown verbose (announcement m.1 y)) m.2))
  | [] => rfl
  | r :: rules => by
    simp only [firstAttempt, attempt_eq, bind, Except.bind]
    cases hr : reduceAt s ⟨y :: seen, rest⟩ r with
    | some c => simp [firstMatch, hr, pure, Except.pure]
    | none =>
      simp only [Option.map_none, firstAttempt_eq verbose s y seen rest rules, firstMatch,
        List.findSome?_cons, hr]

/-- How far a scan is from its end, in steps: a rule makes the body lighter by at least one, and may
be followed by five steps that make up for going back. -/
def remaining (body : Body) (i : Nat) : Nat := 5 * body.weight + (body.length - i)

/-- Scans from a position, with the regions open there: one turn of the loop in `rewrite`, and then
the rest of it. -/
def scanAt (verbose : Bool) (s : Scope) (name : String) (body : Body) (i : Nat) (n : Nesting) :
    Checked (Body × Bool × Trace) :=
  if _h : i < body.length then do
    let focus ← item body i
    let n := n.observe focus.op
    match ← firstAttempt verbose s n body i Rule.all with
    | some (r, e) =>
      if _lower : remaining e.body e.resume < remaining body i then do
        let before ← slice e.body 0 e.resume
        let (body, _, t) ← scanAt verbose s name e.body e.resume (Nesting.ofBody before)
        return (body, true, e.report ++ note verbose (.applied name r i) ++ t)
      else .error .stalled
    | none => scanAt verbose s name body (i + 1) n
  else .ok (body, false, [])
termination_by remaining body i
decreasing_by
  · exact _lower
  · unfold remaining
    omega

/-- The report on a firing is what its rule says itself and the application. -/
theorem shown_events (verbose : Bool) (name : String) (r : Rule) (i : Nat) (y : Instr) :
    Trace.shown verbose (Firing.events name ⟨r, i, y⟩)
      = Trace.shown verbose (announcement r y) ++ note verbose (.applied name r i) := by
  have happ : Firing.events name ⟨r, i, y⟩ = announcement r y ++ [.applied name r i] := by
    obtain ⟨op, m⟩ := y
    cases r with
    | deadTypeCase =>
      -- the one rule that says something itself, and only at the marker of a case
      rcases m with _ | marker
      · rfl
      · cases marker <;> rfl
    | _ => rfl
  rw [happ, Trace.shown_append, note_eq rfl]

/-- Every rule brings the scan closer to its end, in the measure by which the loop is seen to
terminate. -/
theorem remaining_lt_of_progress {y : Instr} {seen rest : Body} {c : Cursor}
    (h : Progress ⟨y :: seen, rest⟩ c) :
    remaining c.body c.seen.length < remaining (seen.reverse ++ y :: rest) seen.length := by
  have hlighter := h.lighter
  have hnear := h.near
  simp only [remaining, Cursor.body, List.length_append, List.length_reverse,
    List.length_cons, Body.weight_append, Body.weight_reverse, Body.weight_cons, Cursor.weight]
    at hlighter hnear ⊢
  omega

/-- **The scan by position** runs to its end and gives what the scan of a cursor gives. -/
theorem scanAt_eq (verbose : Bool) (s : Scope) (name : String) (seen rest : Body) :
    scanAt verbose s name (seen.reverse ++ rest) seen.length (Nesting.ofReversed seen)
      = .ok ((scanFrom Rule.all s seen rest).body, (scanFrom Rule.all s seen rest).changed,
          Trace.shown verbose ((scanFrom Rule.all s seen rest).firings.flatMap
            (Firing.events name))) := by
  fun_induction scanFrom Rule.all s seen rest with
  | case1 seen =>
    rw [scanAt, dif_neg (by simp), List.append_nil]
    rfl
  | case2 seen y rest r c hmatch progress out ih =>
    have hitem : item (seen.reverse ++ y :: rest) seen.length = .ok y :=
      item_at seen.reverse y rest rfl (by simp)
    have hfirst := firstAttempt_eq verbose s y seen rest Rule.all
    rw [hmatch, Nesting.ofReversed_cons] at hfirst
    have hslice : slice c.body 0 c.seen.length = .ok c.seen.reverse :=
      slice_at [] c.seen.reverse c.rest rfl rfl (by simp)
    rw [scanAt, dif_pos (by simp)]
    simp only [hitem, bind, Except.bind, hfirst, Option.map_some, Edit.ofCursor]
    rw [dif_pos (remaining_lt_of_progress progress), hslice]
    dsimp only
    rw [← Nesting.ofReversed_eq, Cursor.body, ih]
    simp only [pure, Except.pure, Outcome.changed, List.isEmpty_cons, Bool.not_false,
      List.flatMap_cons, Trace.shown_append, shown_events, out]
  | case3 seen y rest hmatch ih =>
    have hitem : item (seen.reverse ++ y :: rest) seen.length = .ok y :=
      item_at seen.reverse y rest rfl (by simp)
    have hfirst := firstAttempt_eq verbose s y seen rest Rule.all
    rw [hmatch, Nesting.ofReversed_cons] at hfirst
    rw [scanAt, dif_pos (by simp)]
    simp only [hitem, bind, Except.bind, hfirst, Option.map_none]
    simpa only [List.reverse_cons, List.append_assoc, List.singleton_append, List.length_cons,
      Nesting.ofReversed_cons] using ih

/-- Simplifies the body of a function by one scan (`rewrite`), from the first instruction on. -/
def simplifyAt (verbose : Bool) (ctx : Context) (f : Function) :
    Checked (Function × Bool × Trace) := do
  let (body, changed, t) ← scanAt verbose (ctx.scope f) f.name f.body 0 []
  return ({ f with body }, changed, t)

theorem simplifyAt_eq (verbose : Bool) (ctx : Context) (f : Function) :
    simplifyAt verbose ctx f = .ok ((simplify ctx f).1, (simplify ctx f).2.1,
      Trace.shown verbose (simplify ctx f).2.2) := by
  have hscan := scanAt_eq verbose (ctx.scope f) f.name [] f.body
  simp only [List.reverse_nil, List.nil_append, List.length_nil] at hscan
  simp only [simplifyAt, simplify, scan, bind, Except.bind]
  rw [show ([] : Nesting) = Nesting.ofReversed [] from rfl, hscan]
  rfl

/-! ## 2. Constants

Folding needs two instructions before the one it looks at, so it starts at position two, and when it
goes back it stops there (`fold`).  The walk over a list has no such bound; it need not
have one, since a fold is never found earlier. -/

/-- The value of an operation on two constants, if it is evaluated at all (`evaluate`). -/
def evaluate (lhs rhs op : Op) : Option (Folding.Fold) :=
  match rhs, lhs with
  | .const rhs, .const lhs =>
    match op with
    | .num op => (op.evaluate? lhs rhs).map fun value => ⟨lhs, rhs, op, value⟩
    | _ => none
  | _, _ => none

/-- How far folding is from its end: a step forward costs one, and a fold costs two instructions and
gives back one step. -/
def foldsLeft (body : Body) (i : Nat) : Nat := 2 * body.length - i

/-- Folds from a position on, with the index that `fold` keeps: the operator stands at it and the
operands before it. Every access and both subtractions are checked. -/
def foldAt (verbose : Bool) (name : String) (body : Body) (i : Nat) :
    Checked (Body × Bool × Trace) :=
  if _h : i < body.length then do
    let first ← sub i 2
    let second ← sub i 1
    let lhs ← item body first
    let rhs ← item body second
    let op ← item body i
    match evaluate lhs.op rhs.op op.op with
    | none => foldAt verbose name body (i + 1)
    | some f => do
      let folded ← splice body first (i + 1) [(Op.const f.value).plain]
      if _lower : foldsLeft folded (max second 2) < foldsLeft body i then do
        let (body, _, t) ← foldAt verbose name folded (max second 2)
        return (body, true, note verbose (.folded name f.lhs f.rhs f.op f.value) ++ t)
      else .error .stalled
  else .ok (body, false, [])
termination_by foldsLeft body i
decreasing_by
  · unfold foldsLeft
    omega
  · exact _lower

/-- The report on some folds, one event for each and in their order (`fold`). -/
def foldEvents (name : String) (folds : List Folding.Fold) : Trace :=
  folds.map fun x => .folded name x.lhs x.rhs x.op x.value

theorem fold?_pair (x lhs rhs : Instr) (below : Body) :
    Folding.fold? x (rhs :: lhs :: below) = (evaluate lhs.op rhs.op x.op).map (·, below) := by
  obtain ⟨ol, ml⟩ := lhs
  obtain ⟨or, mr⟩ := rhs
  obtain ⟨ox, mx⟩ := x
  cases or with
  | const b =>
    cases ol with
    | const a =>
      cases ox with
      | num op =>
        simp only [Folding.fold?, evaluate, Option.map_map]
        rfl
      | _ => rfl
    | _ => rfl
  | _ => rfl

/-- One step of folding, at a position with two instructions before it. -/
theorem foldAt_step (verbose : Bool) (name : String) (a rest : Body) (lhs rhs x : Instr) :
    foldAt verbose name (a ++ lhs :: rhs :: x :: rest) (a.length + 2)
      = match evaluate lhs.op rhs.op x.op with
        | none => foldAt verbose name (a ++ lhs :: rhs :: x :: rest) (a.length + 3)
        | some f => do
          let (body, _, t) ←
            foldAt verbose name (a ++ (Op.const f.value).plain :: rest) (max (a.length + 1) 2)
          return (body, true, note verbose (.folded name f.lhs f.rhs f.op f.value) ++ t) := by
  have hsecond : sub (a.length + 2) 1 = .ok (a.length + 1) := sub_add _ 1
  have hlhs : item (a ++ lhs :: rhs :: x :: rest) a.length = .ok lhs := item_at a _ _ rfl rfl
  have hrhs : item (a ++ lhs :: rhs :: x :: rest) (a.length + 1) = .ok rhs :=
    item_at (a ++ [lhs]) rhs (x :: rest) (by simp) (by simp)
  have hx : item (a ++ lhs :: rhs :: x :: rest) (a.length + 2) = .ok x :=
    item_at (a ++ [lhs, rhs]) x rest (by simp) (by simp)
  have hcut : ∀ y, splice (a ++ lhs :: rhs :: x :: rest) a.length (a.length + 2 + 1) [y]
      = .ok (a ++ y :: rest) := by
    intro y
    exact (splice_at a [lhs, rhs, x] rest rfl rfl rfl [y]).trans (by simp)
  rw [foldAt, dif_pos (by simp)]
  simp only [sub_add, hsecond, hlhs, hrhs, hx, bind, Except.bind, hcut]
  cases evaluate lhs.op rhs.op x.op with
  | none => rfl
  | some f =>
    dsimp only
    rw [dif_pos]
    simp only [foldsLeft, List.length_append, List.length_cons]
    omega

/-- **Folding by position** runs to its end.  It starts at the third instruction, since no fold ends
before, and for the same reason goes back no further. -/
theorem foldAt_eq (verbose : Bool) (name : String) (seen rest : Body) :
    foldAt verbose name (seen.reverse ++ rest) (max seen.length 2)
      = .ok ((Folding.foldFrom seen rest).body, !(Folding.foldFrom seen rest).folds.isEmpty,
          Trace.shown verbose (foldEvents name (Folding.foldFrom seen rest).folds)) := by
  fun_induction Folding.foldFrom seen rest with
  | case1 seen =>
    rw [foldAt, dif_neg (by simp only [List.append_nil, List.length_reverse]; omega),
      List.append_nil]
    rfl
  | case2 seen x rest f below hfold out ih =>
    match seen, hfold with
    | [], hfold | [_], hfold => simp [Folding.fold?] at hfold
    | rhs :: lhs :: seen, hfold =>
      rw [fold?_pair] at hfold
      obtain ⟨g, hvalue, e⟩ := Option.map_eq_some_iff.mp hfold
      obtain ⟨rfl, rfl⟩ := Prod.mk.inj e
      have hstep := foldAt_step verbose name seen.reverse rest lhs rhs x
      simp only [List.length_reverse, hvalue] at hstep
      simp only [List.reverse_cons, List.append_assoc, List.cons_append, List.nil_append,
        List.length_cons] at ih ⊢
      rw [show max (seen.length + 1 + 1) 2 = seen.length + 2 by omega, hstep, ih]
      simp only [bind, Except.bind, pure, Except.pure, List.isEmpty_cons, Bool.not_false]
      rw [note_eq rfl, ← Trace.shown_append]
      rfl
  | case3 seen x rest hfold ih =>
    simp only [List.reverse_cons, List.append_assoc, List.singleton_append, List.length_cons] at ih
    match seen, hfold, ih with
    | [], _, ih | [_], _, ih => exact ih
    | rhs :: lhs :: seen, hfold, ih =>
      rw [fold?_pair] at hfold
      have hstep := foldAt_step verbose name seen.reverse rest lhs rhs x
      simp only [List.length_reverse, Option.map_eq_none_iff.mp hfold] at hstep
      simp only [List.reverse_cons, List.append_assoc, List.cons_append, List.nil_append,
        List.length_cons] at ih ⊢
      rw [show max (seen.length + 1 + 1 + 1) 2 = seen.length + 3 by omega] at ih
      rw [show max (seen.length + 1 + 1) 2 = seen.length + 2 by omega, hstep, ih]

/-- Folds the constants of a function (`fold`), starting where two operands can stand before the
operator. -/
def foldConstantsAt (verbose : Bool) (f : Function) : Checked (Function × Bool × Trace) := do
  let (body, changed, t) ← foldAt verbose f.name f.body 2
  return ({ f with body }, changed, t)

theorem foldConstantsAt_eq (verbose : Bool) (f : Function) :
    foldConstantsAt verbose f = .ok ((Folding.foldConstants f).1, (Folding.foldConstants f).2.1,
      Trace.shown verbose (Folding.foldConstants f).2.2) := by
  have hfold := foldAt_eq verbose f.name [] f.body
  simp only [List.reverse_nil, List.nil_append, List.length_nil, Nat.zero_max] at hfold
  simp only [foldConstantsAt, hfold, bind, Except.bind]
  rfl

/-! ## 3. Renumbering

A new index is the old one less the number of removed indices below it, which is found by a binary
search in the removed ones (`get`).  The difference cannot be negative, since at most `i` different
numbers are below `i`. -/

/-- The new index, by the place of the old one among those that are removed. -/
def remapIndex (c : Compaction) (old : Nat) : Checked (Option Nat) :=
  let below := c.removed.findIdx (old ≤ ·)
  if c.removed[below]? = some old then .ok none
  else do
    let new ← sub old below
    return some new

/-- In an increasing list the numbers below a bound are a first part of the list. -/
theorem findIdx_eq_countP (old : Nat) : ∀ {removed : List Nat}, removed.Pairwise (· < ·) →
    removed.findIdx (old ≤ ·) = removed.countP (· < old)
  | [], _ => rfl
  | x :: removed, h => by
    obtain ⟨hx, hr⟩ := List.pairwise_cons.mp h
    rw [List.findIdx_cons, List.countP_cons, findIdx_eq_countP old hr]
    by_cases hle : old ≤ x
    · have hzero : removed.countP (· < old) = 0 :=
        List.countP_eq_zero.mpr fun y hy => by
          simpa using Nat.le_of_lt (Nat.lt_of_le_of_lt hle (hx y hy))
      simp [hle, hzero, Nat.not_lt.mpr hle]
    · simp [hle, Nat.not_le.mp hle]

/-- The place of a member is where it stands, as a binary search in the sorted list finds it. -/
theorem getElem?_findIdx (old : Nat) {removed : List Nat} (h : removed.Pairwise (· < ·)) :
    removed[removed.findIdx (old ≤ ·)]? = some old ↔ old ∈ removed := by
  refine ⟨List.mem_of_getElem?, fun hmem => ?_⟩
  induction removed with
  | nil => simp at hmem
  | cons x removed ih =>
    obtain ⟨hx, hr⟩ := List.pairwise_cons.mp h
    rw [List.findIdx_cons]
    rcases List.mem_cons.mp hmem with rfl | hmem
    · simp
    · have hlt := hx old hmem
      simpa [Nat.not_le.mpr hlt] using ih hr hmem

theorem remapIndex_eq (c : Compaction) (old : Nat) : remapIndex c old = .ok (c.get? old) := by
  have hle : c.removed.findIdx (old ≤ ·) ≤ old := by
    rw [findIdx_eq_countP old c.increasing]
    exact Compaction.below_le c old
  unfold remapIndex Compaction.get?
  simp only [getElem?_findIdx old c.increasing]
  split
  · rfl
  · rw [sub_of_le hle, findIdx_eq_countP old c.increasing]
    rfl

theorem isIdentity_removing (indices : List Nat) :
    (Compaction.removing indices).isIdentity = indices.isEmpty := by
  rw [Bool.eq_iff_iff, Compaction.isIdentity, List.isEmpty_iff, List.isEmpty_iff,
    List.eq_nil_iff_forall_not_mem, List.eq_nil_iff_forall_not_mem]
  simp only [Compaction.mem_removing]

/-- Renumbers entries and leaves out those that are removed.  What is left is in the same order. -/
def remapEntries (c : Compaction) : (entries : List Local) →
    Checked { left : List Local // (left.map Local.name).Sublist (entries.map Local.name) }
  | [] => .ok ⟨[], .refl _⟩
  | l :: entries => do
    let left ← remapEntries c entries
    match ← remapIndex c l.index with
    | some index => return ⟨{ l with index } :: left.1, left.2.cons_cons _⟩
    | none => return ⟨left.1, left.2.cons _⟩

theorem remapEntries_eq (c : Compaction) : ∀ entries : List Local,
    ∃ left, remapEntries c entries = .ok left ∧ left.1 = entries.filterMap (Local.compact? c)
  | [] => ⟨_, rfl, rfl⟩
  | l :: entries => by
    obtain ⟨left, e, h⟩ := remapEntries_eq c entries
    simp only [remapEntries, e, remapIndex_eq, bind, Except.bind, List.filterMap_cons,
      Local.compact?, ← h]
    cases c.get? l.index with
    | some index => exact ⟨_, rfl, rfl⟩
    | none => exact ⟨_, rfl, rfl⟩

/-- Renumbers the locals of a table and leaves out those that are removed (`eliminate`). The entries
stay sorted by name. -/
def remapTable (c : Compaction) (t : LocalTable) : Checked LocalTable := do
  let left ← remapEntries c t.entries
  return ⟨left.1, List.pairwise_map.mp ((List.pairwise_map.mpr t.sorted).sublist left.2)⟩

theorem remapTable_eq (c : Compaction) (t : LocalTable) : remapTable c t = .ok (t.compact c) := by
  obtain ⟨⟨left, hsub⟩, e, rfl⟩ := remapEntries_eq c t.entries
  simp only [remapTable, e, bind, Except.bind]
  rfl

/-- Renumbers an operand; one that was removed stays (`apply`). The subtraction in it is a checked
one, like every other. -/
def remapOperand (c : Compaction) (old : Nat) : Checked Nat := do
  match ← remapIndex c old with
  | some new => return new
  | none => return old

theorem remapOperand_eq (c : Compaction) (old : Nat) : remapOperand c old = .ok (c.apply old) := by
  simp only [remapOperand, remapIndex_eq, bind, Except.bind, Compaction.apply]
  cases c.get? old <;> rfl

/-- Renumbers the local that an instruction reads or writes, if it does (`local_index_mut`). -/
def remapLocal (c : Compaction) (i : Instr) : Checked Instr :=
  match i.op.localIndex? with
  | some old => do
    let new ← remapOperand c old
    return i.mapLocal fun _ => new
  | none => .ok i

theorem remapLocal_eq (c : Compaction) (i : Instr) :
    remapLocal c i = .ok (i.mapLocal c.apply) := by
  obtain ⟨op, m⟩ := i
  cases op <;> simp only [remapLocal, Op.localIndex?, remapOperand_eq, bind, Except.bind] <;> rfl

/-- Renumbers the function that an instruction calls, if it does (`call_target_mut`). -/
def remapCall (c : Compaction) (i : Instr) : Checked Instr :=
  match i.op.callTarget? with
  | some old => do
    let new ← remapOperand c old
    return i.mapCall fun _ => new
  | none => .ok i

theorem remapCall_eq (c : Compaction) (i : Instr) : remapCall c i = .ok (i.mapCall c.apply) := by
  obtain ⟨op, m⟩ := i
  cases op <;> simp only [remapCall, Op.callTarget?, remapOperand_eq, bind, Except.bind] <;> rfl

/-- A checked map of a total function has a result, which is the map. -/
theorem mapM_ok {α β : Type} {f : α → Checked β} {g : α → β} (h : ∀ a, f a = .ok (g a)) :
    ∀ l : List α, l.mapM f = .ok (l.map g)
  | [] => rfl
  | a :: l => by
    rw [List.mapM_cons, h, mapM_ok h l]
    rfl

/-! ## 4. Dead locals

The body is copied with every dead store replaced or left out; then the locals that nothing names
any more are taken out of the table, and the body is renumbered (`eliminate`). -/

/-- Removes dead stores and then unused locals (`eliminate`), with the reports written only if
everything is to be reported, and every renumbering checked. -/
def eliminateAt (verbose : Bool) (f : Function) : Checked (Function × Bool × Trace) := do
  let stored := f.body.any (DeadLocals.writes (DeadLocals.isUnread f))
  let g := DeadLocals.dropStores f
  let dead := DeadLocals.unused g
  let report := note verbose (.useCounts g.name (DeadLocals.useCounts g))
    ++ (dead.map (DeadLocals.removal g)).flatMap (note verbose)
  let c := Compaction.removing dead
  if c.isIdentity then return (g, stored, report)
  else do
    let locals ← remapTable c g.locals
    let body ← g.body.mapM (remapLocal c)
    return ({ g with locals, body }, true, report)

theorem flatMap_note (verbose : Bool) : ∀ {t : Trace}, (∀ e ∈ t, e.isWarning = false) →
    t.flatMap (note verbose) = t.shown verbose
  | [], _ => rfl
  | e :: t, h => by
    rw [List.flatMap_cons, flatMap_note verbose fun x hx => h x (List.mem_cons_of_mem _ hx),
      note_eq (h e List.mem_cons_self), ← Trace.shown_append]
    rfl

theorem eliminateAt_eq (verbose : Bool) (f : Function) :
    eliminateAt verbose f = .ok ((DeadLocals.eliminate f).1, (DeadLocals.eliminate f).2.1,
      Trace.shown verbose (DeadLocals.eliminate f).2.2) := by
  have hreport : ∀ g : Function, note verbose (.useCounts g.name (DeadLocals.useCounts g))
      ++ ((DeadLocals.unused g).map (DeadLocals.removal g)).flatMap (note verbose)
      = Trace.shown verbose (.useCounts g.name (DeadLocals.useCounts g)
          :: (DeadLocals.unused g).map (DeadLocals.removal g)) := by
    intro g
    rw [flatMap_note verbose (List.forall_mem_map.mpr fun _ _ => rfl), note_eq rfl,
      ← Trace.shown_append]
    rfl
  simp only [eliminateAt, DeadLocals.eliminate, hreport, isIdentity_removing, remapTable_eq,
    mapM_ok (remapLocal_eq _), bind, Except.bind]
  split <;> rfl

end WasmTrim.Positional
