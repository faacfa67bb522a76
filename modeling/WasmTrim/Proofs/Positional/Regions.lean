/-
# The rules on whole regions by position

The rules that look further than the last few instructions: at every read of a local, at the end of
a region, at the other arm of a condition.  A position of an `end` is used only after it was found.
The one count that goes down, the depth in the search for an `else`, starts inside a region whose
`end` is known, and does not fall below zero before it (`elseArm_eq`).

With these all rules are together, and each does to the body what the rule of the same name does to
a cursor (`attempt_eq`).

A rule on a region computes several positions at once: where the region opens, where its `else` is,
where it is closed.  Each of them is found in the body and not computed from the others, so that all
there is to show is that they stand in this order.  The list is cut at each of them in turn
(`cut_of_closeOffset`, `cut_of_afterElse`, `cut_of_findIdx?`), and what a rule reads, overwrites or
drops is then one of the pieces.

The rules come in the order in which a scan tries them (`rewrite`): those that count the reads of a
local, transparent blocks, and the cases of a dispatch over runtime types.
-/
import WasmTrim.Proofs.Positional.Rules

namespace WasmTrim.Positional

open Peephole

/-! ## 1. Rules that read the whole body

The reads of a local are counted over all positions (`count_gets`), so no place of the body is out
of range.  A block opened at the focus is followed to its end (`transparent_block`). -/

def paramShuffleAt (body : Body) (i : Nat) : Checked (Option Edit) :=
  match window 3 body i with
  | some [first, second, third] =>
    match third.op, second.op, first.op with
    | .localGet read, .localTee y, .localSet x =>
      if x = read ∧ x ≠ y ∧ body.reads x = 1 ∧ body.reads y = 0 then do
        let start ← sub i 2
        let body ← splice body start (i + 1) []
        return some ⟨body, start, []⟩
      else .ok none
    | _, _, _ => .ok none
  | _ => .ok none

theorem paramShuffleAt_eq (y : Instr) (seen rest : Body) :
    paramShuffleAt (seen.reverse ++ y :: rest) seen.length
      = .ok ((paramShuffle ⟨y :: seen, rest⟩).map (Edit.ofCursor [])) := by
  obtain ⟨oy, my⟩ := y
  match seen with
  | [] =>
    rw [paramShuffleAt, window_of_lt (by simp)]
    cases oy <;> rfl
  | [⟨ox, mx⟩] =>
    rw [paramShuffleAt, window_of_lt (by simp)]
    cases oy with
    | localGet read => cases ox <;> rfl
    | _ => rfl
  | ⟨ox, mx⟩ :: ⟨oz, mz⟩ :: seen =>
    have hbody : (⟨ox, mx⟩ :: ⟨oz, mz⟩ :: seen).reverse ++ ⟨oy, my⟩ :: rest
        = seen.reverse ++ ([⟨oz, mz⟩, ⟨ox, mx⟩, ⟨oy, my⟩] ++ rest) := by simp
    have hreads : ∀ l, Body.reads (seen.reverse ++ ([⟨oz, mz⟩, ⟨ox, mx⟩, ⟨oy, my⟩] ++ rest)) l
        = Cursor.reads ⟨⟨oy, my⟩ :: ⟨ox, mx⟩ :: ⟨oz, mz⟩ :: seen, rest⟩ l := by
      intro l
      rw [← Cursor.reads_body]
      simp [Cursor.body]
    have hwindow : window 3 (seen.reverse ++ ([⟨oz, mz⟩, ⟨ox, mx⟩, ⟨oy, my⟩] ++ rest))
        (seen.length + 2) = some [⟨oz, mz⟩, ⟨ox, mx⟩, ⟨oy, my⟩] :=
      window_at seen.reverse _ rest rfl (by simp) rfl
    have hcut : splice (seen.reverse ++ ([⟨oz, mz⟩, ⟨ox, mx⟩, ⟨oy, my⟩] ++ rest)) seen.length
        (seen.length + 2 + 1) [] = .ok (seen.reverse ++ [] ++ rest) :=
      splice_at seen.reverse _ rest rfl (by simp) (by simp) []
    have hlength : (⟨ox, mx⟩ :: ⟨oz, mz⟩ :: seen : Body).length = seen.length + 2 := rfl
    rw [hbody, hlength, paramShuffleAt, hwindow]
    cases oy with
    | localGet read =>
      cases ox with
      | localTee y =>
        cases oz with
        | localSet x =>
          simp only [paramShuffle, hreads]
          split
          · simp only [sub_add, bind, Except.bind, hcut, pure, Except.pure, Option.map_some,
              Edit.ofCursor, Cursor.body, List.append_nil]
          · rfl
        | _ => rfl
      | _ => rfl
    | _ => rfl

/-- The end of a region that opens here, found by counting (`matching_end`): the first closer at
which as many regions have been closed as opened. -/
theorem matchingEnd_enter {i : Nat} {body : Body} {kind : RegionKind} {result : ResultType}
    {m : Option Marker} (a inside : Body) (hbody : body = a ++ ⟨.enter kind result, m⟩ :: inside)
    (hi : i = a.length) :
    matchingEnd body i = .ok ((inside.closeOffset 1).map (i + 1 + ·)) := by
  rw [matchingEnd_at a _ hbody hi, Body.closeOffset,
    if_pos (show (Op.enter kind result).opensRegion = true from rfl), Option.map_map]
  congr 2
  funext k
  simp only [Function.comp]
  omega

/-- Where a region is closed, the rest of the body is cut in three. -/
theorem cut_of_closeOffset {n k : Nat} {rest : Body} (h : rest.closeOffset n = some k) :
    ∃ inside close after, rest = inside ++ close :: after ∧ inside.length = k := by
  have hlt := Body.closeOffset_lt h
  refine ⟨rest.take k, rest[k], rest.drop (k + 1), ?_, by simp; omega⟩
  rw [← List.drop_eq_getElem_cons hlt, List.take_append_drop]

def transparentBlockAt (body : Body) (i : Nat) : Checked (Option Edit) := do
  let focus ← item body i
  match focus.op with
  | .enter .block _ =>
    match ← matchingEnd body i with
    | none => .ok none
    | some last => do
      let close ← item body last
      if close.marker = some .typeSwitchEnd then .ok none
      else do
        let inside ← slice body (i + 1) last
        if inside.any (·.op.referencesLabel) then .ok none
        else do
          let body ← remove body last
          let body ← remove body i
          return some ⟨body, i, []⟩
  | _ => .ok none

theorem transparentBlockAt_eq (y : Instr) (seen rest : Body) :
    transparentBlockAt (seen.reverse ++ y :: rest) seen.length
      = .ok ((transparentBlock ⟨y :: seen, rest⟩).map (Edit.ofCursor [])) := by
  obtain ⟨oy, my⟩ := y
  have hitem : item (seen.reverse ++ ⟨oy, my⟩ :: rest) seen.length = .ok ⟨oy, my⟩ :=
    item_at seen.reverse _ rest rfl (by simp)
  simp only [transparentBlockAt, hitem, bind, Except.bind]
  cases oy with
  | enter kind result =>
    cases kind with
    | block =>
      simp only [transparentBlock,
        matchingEnd_enter seen.reverse rest rfl List.length_reverse.symm]
      cases hk : Body.closeOffset 1 rest with
      | none => rfl
      | some k =>
        obtain ⟨inside, close, after, rfl, rfl⟩ := cut_of_closeOffset hk
        have hclose : item
            (seen.reverse ++ ⟨.enter .block result, my⟩ :: (inside ++ close :: after))
            (seen.length + 1 + inside.length) = .ok close :=
          item_at (seen.reverse ++ ⟨.enter .block result, my⟩ :: inside) close after (by simp)
            (by simp; omega)
        have hinside : slice
            (seen.reverse ++ ⟨.enter .block result, my⟩ :: (inside ++ close :: after))
            (seen.length + 1) (seen.length + 1 + inside.length) = .ok inside :=
          slice_at (seen.reverse ++ [⟨.enter .block result, my⟩]) inside (close :: after) (by simp)
            (by simp) (by simp)
        have hend : remove
            (seen.reverse ++ ⟨.enter .block result, my⟩ :: (inside ++ close :: after))
            (seen.length + 1 + inside.length)
            = .ok (seen.reverse ++ ⟨.enter .block result, my⟩ :: inside ++ after) :=
          remove_at (seen.reverse ++ ⟨.enter .block result, my⟩ :: inside) close after (by simp)
            (by simp; omega)
        have hopen : remove
            (seen.reverse ++ ⟨.enter .block result, my⟩ :: inside ++ after) seen.length
            = .ok (seen.reverse ++ (inside ++ after)) :=
          remove_at seen.reverse ⟨.enter .block result, my⟩ (inside ++ after) (by simp) (by simp)
        have hbind : ∀ g : Nat → Option Cursor, (some inside.length >>= g) = g inside.length :=
          fun _ => rfl
        simp only [Option.map_some, hclose, hinside, hend, hopen, pure, Except.pure, hbind,
          List.drop_left, List.take_left]
        by_cases hmark : close.marker = some .typeSwitchEnd
        · rw [if_pos hmark, if_pos (.inl hmark)]
          rfl
        · by_cases hlabel : inside.any (·.op.referencesLabel)
          · rw [if_neg hmark, if_pos hlabel, if_pos (.inr hlabel)]
            rfl
          · rw [if_neg hmark, if_neg hlabel, if_neg (not_or.mpr ⟨hmark, hlabel⟩)]
            rfl
    | _ => rfl
  | _ => rfl

/-! ## 2. The other arm of a condition

The search goes from the instruction behind the `if` up to the end of its region.  It counts the
regions that it enters and leaves, and the number could become negative only at a closer of the `if`
itself, which lies outside of the range. -/

/-- The position of an `else` at the given depth, among the given number of instructions from a
position on. -/
def elseArm (body : Body) : Nat → Nat → Nat → Checked (Option Nat)
  | 0, _, _ => .ok none
  | count + 1, i, depth => do
    let x ← item body i
    if x.op.opensRegion then elseArm body count (i + 1) (depth + 1)
    else if x.op.closesRegion then do
      let depth ← sub depth 1
      elseArm body count (i + 1) depth
    else if x.op = .elseArm ∧ depth = 0 then .ok (some i)
    else elseArm body count (i + 1) depth

/-- What follows an `else` is the last part of what stood around it. -/
theorem cut_of_afterElse : ∀ {depth : Nat} {body arm : Body}, afterElse depth body = some arm →
    ∃ before x, body = before ++ x :: arm
  | _, [], _, h => by simp [afterElse] at h
  | depth, i :: rest, arm, h => by
    simp only [afterElse] at h
    split at h
    · obtain ⟨before, x, rfl⟩ := cut_of_afterElse h
      exact ⟨i :: before, x, rfl⟩
    · split at h
      · obtain ⟨before, x, rfl⟩ := cut_of_afterElse h
        exact ⟨i :: before, x, rfl⟩
      · split at h
        · obtain rfl := Option.some.inj h
          exact ⟨[], i, rfl⟩
        · obtain ⟨before, x, rfl⟩ := cut_of_afterElse h
          exact ⟨i :: before, x, rfl⟩

/-- **The search for an `else`** inside a region whose end is known.  The depth does not fall below
zero, since the region would end there. -/
theorem elseArm_eq : ∀ (w a b : Body) (depth : Nat),
    Body.closeOffset (depth + 1) (w ++ b) = some w.length →
    elseArm (a ++ (w ++ b)) w.length a.length depth
      = .ok ((afterElse depth w).map fun arm => a.length + (w.length - (arm.length + 1)))
  | [], _, _, _, _ => rfl
  | x :: w, a, b, depth, h => by
    have hitem : item (a ++ (x :: w ++ b)) a.length = .ok x := item_at a x (w ++ b) rfl rfl
    -- one step further, with the instruction moved to the part before
    have hstep : ∀ d, Body.closeOffset (d + 1) (w ++ b) = some w.length →
        elseArm (a ++ (x :: w ++ b)) w.length (a.length + 1) d
          = .ok ((afterElse d w).map fun arm =>
              a.length + ((x :: w).length - (arm.length + 1))) := by
      intro d hd
      have hmove := elseArm_eq w (a ++ [x]) b d hd
      simp only [List.append_assoc, List.cons_append, List.nil_append, List.length_append,
        List.length_cons, List.length_nil, Nat.zero_add] at hmove ⊢
      rw [hmove]
      congr 1
      cases harm : afterElse d w with
      | none => rfl
      | some arm =>
        obtain ⟨before, z, rfl⟩ := cut_of_afterElse harm
        simp only [Option.map_some, List.length_append, List.length_cons]
        congr 1
        omega
    have hdrop : ∀ d, (Body.closeOffset d (w ++ b)).map (· + 1) = some (x :: w).length →
        Body.closeOffset d (w ++ b) = some w.length := by
      intro d hd
      obtain ⟨k, hk, e⟩ := Option.map_eq_some_iff.mp hd
      rw [hk, Nat.succ.inj e]
    simp only [List.cons_append, Body.closeOffset] at h
    simp only [List.length_cons, elseArm, hitem, bind, Except.bind, afterElse]
    by_cases hopen : x.op.opensRegion
    · rw [if_pos hopen] at h ⊢
      rw [hstep _ (hdrop _ h), if_pos hopen]
      rfl
    · rw [if_neg hopen] at h ⊢
      rw [if_neg hopen]
      by_cases hclose : x.op.closesRegion
      · rw [if_pos hclose] at h ⊢
        rw [if_pos hclose]
        cases depth with
        | zero => simp at h
        | succ d =>
          rw [sub_add]
          exact hstep d (hdrop _ h)
      · rw [if_neg hclose] at h ⊢
        rw [if_neg hclose]
        by_cases helse : x.op = .elseArm ∧ depth = 0
        · rw [if_pos helse, if_pos helse]
          simp
        · rw [if_neg helse, if_neg helse]
          exact hstep depth (hdrop _ h)

/-! ## 3. Dispatch over runtime types

A case of a type that is never constructed goes, with the guard in front of it (`dead_type_case`);
a dispatch that has lost all its cases drops the value it was to look at (`empty_type_switch`). -/

/-- What a rule reports itself when it is applied, before the scan reports the rule: the type whose
case is removed, and nothing for other rules. -/
def announcement (r : Rule) (focus : Instr) : Trace :=
  match r, focus.marker with
  | .deadTypeCase, some (.typeCase t) => [.deadCase t]
  | _, _ => []

def deadTypeCaseAt (verbose : Bool) (s : Scope) (body : Body) (i : Nat) :
    Checked (Option Edit) := do
  let focus ← item body i
  match focus.marker with
  | some (.typeCase t) =>
    if s.types.isConstructed t then .ok none
    else do
      let ahead ← slice body i body.length
      match ahead.findIdx? stopsGuard with
      | none => .ok none
      | some offset => do
        let opener ← item body (i + offset)
        match opener.op with
        | .enter .ifThen result =>
          match ← matchingEnd body (i + offset) with
          | none => .ok none
          | some last => do
            let count ← sub last (i + offset + 1)
            let report := note verbose (.deadCase t)
            match ← elseArm body count (i + offset + 1) 0 with
            | some middle => do
              let body ← splice body i (middle + 1) [(Op.enter .block result).plain]
              return some ⟨body, i, report⟩
            | none => do
              let body ← splice body i (last + 1) []
              return some ⟨body, i, report⟩
        | _ => .ok none
  | _ => .ok none

/-- The first instruction of a kind, and what stands before it. -/
theorem cut_of_findIdx? {p : Instr → Bool} : ∀ {body : Body} {k : Nat}, body.findIdx? p = some k →
    ∃ before x after, body = before ++ x :: after ∧ before.length = k
      ∧ body.dropWhile (fun i => !p i) = x :: after
  | [], _, h => by simp at h
  | i :: rest, k, h => by
    rw [List.findIdx?_cons] at h
    by_cases hp : p i
    · rw [if_pos hp] at h
      obtain rfl := Option.some.inj h
      exact ⟨[], i, rest, rfl, rfl, by simp [hp]⟩
    · rw [if_neg hp] at h
      obtain ⟨j, hj, rfl⟩ := Option.map_eq_some_iff.mp h
      obtain ⟨before, x, after, rfl, rfl, hd⟩ := cut_of_findIdx? hj
      exact ⟨i :: before, x, after, rfl, rfl, by simpa [hp] using hd⟩

theorem dropWhile_of_findIdx?_eq_none {p : Instr → Bool} : ∀ {body : Body},
    body.findIdx? p = none → body.dropWhile (fun i => !p i) = []
  | [], _ => rfl
  | i :: rest, h => by
    have hp : p i = false := List.findIdx?_eq_none_iff.mp h i List.mem_cons_self
    rw [List.findIdx?_cons, hp] at h
    simpa [hp] using dropWhile_of_findIdx?_eq_none (Option.map_eq_none_iff.mp h)

/-- The guard of a dead case ends at an `if`: what is cut out goes to its `else`, if there is one,
and to its end otherwise. -/
theorem deadTypeCaseAt_ifThen (verbose : Bool) {s : Scope} {y : Instr} {seen rest : Body}
    {t : RuntimeType} (hmark : y.marker = some (.typeCase t)) (ht : ¬ s.types.isConstructed t)
    {before inside : Body} {result : ResultType} {m : Option Marker}
    (hguard : (y :: rest).findIdx? stopsGuard = some before.length)
    (hcut : y :: rest = before ++ ⟨.enter .ifThen result, m⟩ :: inside)
    (hdrop : (y :: rest).dropWhile (fun i => !stopsGuard i)
      = ⟨.enter .ifThen result, m⟩ :: inside) :
    deadTypeCaseAt verbose s (seen.reverse ++ y :: rest) seen.length
      = .ok ((deadTypeCase s ⟨y :: seen, rest⟩).map
          (Edit.ofCursor (Trace.shown verbose (announcement .deadTypeCase y)))) := by
  have hitem : item (seen.reverse ++ y :: rest) seen.length = .ok y :=
    item_at seen.reverse _ rest rfl (by simp)
  have hahead : slice (seen.reverse ++ y :: rest) seen.length (seen.reverse ++ y :: rest).length
      = .ok (y :: rest) := slice_at seen.reverse (y :: rest) [] (by simp) (by simp) (by simp)
  have hopener : item (seen.reverse ++ y :: rest) (seen.length + before.length)
      = .ok ⟨.enter .ifThen result, m⟩ :=
    item_at (seen.reverse ++ before) _ inside (by simp [hcut]) (by simp)
  have hend : matchingEnd (seen.reverse ++ y :: rest) (seen.length + before.length)
      = .ok ((inside.closeOffset 1).map (seen.length + before.length + 1 + ·)) :=
    matchingEnd_enter (seen.reverse ++ before) inside (by rw [hcut, List.append_assoc]) (by simp)
  have hreport : note verbose (.deadCase t)
      = Trace.shown verbose (announcement .deadTypeCase y) := by
    rw [note_eq rfl]
    simp only [announcement, hmark]
  simp only [deadTypeCaseAt, hitem, hahead, bind, Except.bind, deadTypeCase, hmark, if_neg ht,
    hguard, hdrop, hopener, hend, hreport]
  cases hk : Body.closeOffset 1 inside with
  | none => rfl
  | some k =>
    obtain ⟨arms, close, after, rfl, rfl⟩ := cut_of_closeOffset hk
    have hcount : sub (seen.length + before.length + 1 + arms.length)
        (seen.length + before.length + 1) = .ok arms.length := by
      rw [Nat.add_comm _ arms.length, sub_add]
    have helse := elseArm_eq arms
      (seen.reverse ++ (before ++ [⟨.enter .ifThen result, m⟩])) (close :: after) 0 hk
    simp only [List.append_assoc, List.length_append, List.length_reverse, List.length_cons,
      List.length_nil, Nat.zero_add, List.cons_append, List.nil_append, ← Nat.add_assoc] at helse
    have hdone : (arms ++ close :: after).drop (arms.length + 1) = after := by
      simp [List.drop_append]
    simp only [hcut, Option.map_some, Option.bind_some, hcount, helse, List.take_left,
      List.drop_left, hdone]
    cases harm : afterElse 0 arms with
    | none =>
      have hsplice := splice_at seen.reverse
        (before ++ ⟨.enter .ifThen result, m⟩ :: (arms ++ [close])) after
        (l := seen.reverse ++ (before ++ ⟨.enter .ifThen result, m⟩ :: (arms ++ close :: after)))
        (i := seen.length) (j := seen.length + before.length + 1 + arms.length + 1)
        (by simp) (by simp) (by simp; omega) []
      simp only [Option.map_none, hsplice]
      simp [pure, Except.pure, Edit.ofCursor, Cursor.body]
    | some arm =>
      obtain ⟨first, x, rfl⟩ := cut_of_afterElse harm
      have hsplice := splice_at seen.reverse
        (before ++ ⟨.enter .ifThen result, m⟩ :: (first ++ [x])) (arm ++ close :: after)
        (l := seen.reverse ++ (before ++ ⟨.enter .ifThen result, m⟩
          :: (first ++ x :: arm ++ close :: after)))
        (i := seen.length) (j := seen.length + before.length + 1
          + ((first ++ x :: arm).length - (arm.length + 1)) + 1)
        (by simp) (by simp) (by simp; omega) [(Op.enter .block result).plain]
      simp only [Option.map_some, hsplice]
      simp [pure, Except.pure, Edit.ofCursor, Cursor.body]

theorem deadTypeCaseAt_eq (verbose : Bool) (s : Scope) (y : Instr) (seen rest : Body) :
    deadTypeCaseAt verbose s (seen.reverse ++ y :: rest) seen.length
      = .ok ((deadTypeCase s ⟨y :: seen, rest⟩).map
          (Edit.ofCursor (Trace.shown verbose (announcement .deadTypeCase y)))) := by
  have hitem : item (seen.reverse ++ y :: rest) seen.length = .ok y :=
    item_at seen.reverse _ rest rfl (by simp)
  have hahead : slice (seen.reverse ++ y :: rest) seen.length (seen.reverse ++ y :: rest).length
      = .ok (y :: rest) := slice_at seen.reverse (y :: rest) [] (by simp) (by simp) (by simp)
  cases hmark : y.marker with
  | none =>
    simp only [deadTypeCaseAt, hitem, bind, Except.bind, deadTypeCase, hmark]
    rfl
  | some marker =>
    cases marker with
    | typeSwitch | typeSwitchEnd =>
      simp only [deadTypeCaseAt, hitem, bind, Except.bind, deadTypeCase, hmark]
      rfl
    | typeCase t =>
      by_cases ht : s.types.isConstructed t
      · simp only [deadTypeCaseAt, hitem, bind, Except.bind, deadTypeCase, hmark, if_pos ht]
        rfl
      · cases hguard : List.findIdx? stopsGuard (y :: rest) with
        | none =>
          simp only [deadTypeCaseAt, hitem, hahead, bind, Except.bind, deadTypeCase, hmark,
            if_neg ht, hguard, dropWhile_of_findIdx?_eq_none hguard]
          rfl
        | some offset =>
          obtain ⟨before, ⟨op, m⟩, inside, hcut, rfl, hdrop⟩ := cut_of_findIdx? hguard
          by_cases hop : ∃ result, op = .enter .ifThen result
          · obtain ⟨result, rfl⟩ := hop
            exact deadTypeCaseAt_ifThen verbose hmark ht hguard hcut hdrop
          · have hopener : item (seen.reverse ++ y :: rest) (seen.length + before.length)
                = .ok ⟨op, m⟩ :=
              item_at (seen.reverse ++ before) _ inside (by simp [hcut]) (by simp)
            simp only [deadTypeCaseAt, hitem, hahead, bind, Except.bind, deadTypeCase, hmark,
              if_neg ht, hguard, hdrop, hopener]
            split
            · exact absurd ⟨_, rfl⟩ hop
            · split
              · rename_i e
                obtain ⟨e, -⟩ := List.cons.inj e
                exact absurd ⟨_, congrArg Instr.op e⟩ hop
              · rfl

def emptyTypeSwitchAt (body : Body) (i : Nat) : Checked (Option Edit) := do
  let focus ← item body i
  if focus.marker ≠ some .typeSwitchEnd ∨ focus.op ≠ .close ∨ i < 2 then .ok none
  else do
    let opener ← item body (← sub i 1)
    if opener.op ≠ .enter .block none then .ok none
    else do
      let start ← sub i 2
      let capture ← item body start
      if capture.marker = some .typeSwitch ∧ capture.op.isLocalSet then do
        let body ← splice body start (i + 1) [Op.drop.plain]
        return some ⟨body, start, []⟩
      else .ok none

theorem emptyTypeSwitchAt_eq (y : Instr) (seen rest : Body) :
    emptyTypeSwitchAt (seen.reverse ++ y :: rest) seen.length
      = .ok ((emptyTypeSwitch ⟨y :: seen, rest⟩).map (Edit.ofCursor [])) := by
  have hitem : item (seen.reverse ++ y :: rest) seen.length = .ok y :=
    item_at seen.reverse _ rest rfl (by simp)
  simp only [emptyTypeSwitchAt, hitem, bind, Except.bind]
  obtain ⟨oy, my⟩ := y
  by_cases hy : my ≠ some .typeSwitchEnd ∨ oy ≠ .close ∨ seen.length < 2
  · rw [if_pos hy]
    unfold emptyTypeSwitch
    split
    · rename_i e
      simp only [Cursor.mk.injEq, List.cons.injEq, Instr.mk.injEq] at e
      obtain ⟨⟨⟨rfl, rfl⟩, rfl⟩, -⟩ := e
      simp only [ne_eq, not_true_eq_false, List.length_cons, false_or] at hy
      omega
    · rfl
  · rw [if_neg hy]
    simp only [not_or, Classical.not_not, Nat.not_lt] at hy
    obtain ⟨rfl, rfl, hlen⟩ := hy
    match seen, hlen with
    | ⟨ox, mx⟩ :: ⟨oz, mz⟩ :: seen, _ =>
      have hbody : (⟨ox, mx⟩ :: ⟨oz, mz⟩ :: seen).reverse ++ ⟨.close, some .typeSwitchEnd⟩ :: rest
          = seen.reverse ++ ([⟨oz, mz⟩, ⟨ox, mx⟩, ⟨.close, some .typeSwitchEnd⟩] ++ rest) := by simp
      have hlength : (⟨ox, mx⟩ :: ⟨oz, mz⟩ :: seen : Body).length = seen.length + 1 + 1 := rfl
      have hopener : item
          (seen.reverse ++ ([⟨oz, mz⟩, ⟨ox, mx⟩, ⟨.close, some .typeSwitchEnd⟩] ++ rest))
          (seen.length + 1) = .ok ⟨ox, mx⟩ :=
        item_at (seen.reverse ++ [⟨oz, mz⟩]) _ (⟨.close, some .typeSwitchEnd⟩ :: rest)
          (by simp) (by simp)
      have hcapture : item
          (seen.reverse ++ ([⟨oz, mz⟩, ⟨ox, mx⟩, ⟨.close, some .typeSwitchEnd⟩] ++ rest))
          seen.length = .ok ⟨oz, mz⟩ := item_at seen.reverse _ _ rfl (by simp)
      have hcut : splice
          (seen.reverse ++ ([⟨oz, mz⟩, ⟨ox, mx⟩, ⟨.close, some .typeSwitchEnd⟩] ++ rest))
          seen.length (seen.length + 1 + 1 + 1) [Op.drop.plain]
          = .ok (seen.reverse ++ [Op.drop.plain] ++ rest) :=
        splice_at seen.reverse _ rest rfl (by simp) (by simp) _
      have hstart : sub (seen.length + 1 + 1) 2 = .ok seen.length := sub_add _ 2
      rw [hbody, hlength]
      simp only [sub_add, hstart, hopener, hcapture, hcut, pure, Except.pure]
      by_cases hx : ox = .enter .block none
      · subst hx
        rw [if_neg (not_not_intro rfl)]
        cases oz with
        | localSet l =>
          by_cases hz : mz = some .typeSwitch
          · subst hz
            simp [Op.isLocalSet, emptyTypeSwitch, Edit.ofCursor, Cursor.body]
          · rw [if_neg fun hc => hz hc.1]
            unfold emptyTypeSwitch
            split
            · rename_i e
              simp only [Cursor.mk.injEq, List.cons.injEq, Instr.mk.injEq] at e
              exact absurd e.1.2.2.1.2 hz
            · rfl
        | _ => simp [Op.isLocalSet, emptyTypeSwitch]
      · rw [if_pos hx]
        unfold emptyTypeSwitch
        split
        · rename_i e
          simp only [Cursor.mk.injEq, List.cons.injEq, Instr.mk.injEq] at e
          exact absurd e.1.2.1.1 hx
        · rfl

def deadLastTypeAt (s : Scope) (body : Body) (i : Nat) : Checked (Option Edit) :=
  match s.lastType with
  | none => .ok none
  | some last => do
    let focus ← item body i
    if focus.op.storedLocal? = some last ∧ body.reads last = 0 then
      if focus.op.isLocalSet then do
        let body ← put body i Op.drop.plain
        return some ⟨body, i, []⟩
      else do
        let body ← remove body i
        return some ⟨body, i, []⟩
    else .ok none

theorem deadLastTypeAt_eq (s : Scope) (y : Instr) (seen rest : Body) :
    deadLastTypeAt s (seen.reverse ++ y :: rest) seen.length
      = .ok ((deadLastType s ⟨y :: seen, rest⟩).map (Edit.ofCursor [])) := by
  unfold deadLastTypeAt
  cases hlast : s.lastType with
  | none => simp [deadLastType, hlast]
  | some last =>
    have hitem : item (seen.reverse ++ y :: rest) seen.length = .ok y :=
      item_at seen.reverse _ rest rfl (by simp)
    have hreads : Body.reads (seen.reverse ++ y :: rest) last
        = Cursor.reads ⟨y :: seen, rest⟩ last := by
      rw [← Cursor.reads_body]
      simp [Cursor.body]
    have hput := put_at seen.reverse y rest rfl rfl Op.drop.plain
    have hremove := remove_at seen.reverse y rest rfl rfl
    rw [List.length_reverse] at hput hremove
    obtain ⟨oy, my⟩ := y
    simp only [hitem, hreads, bind, Except.bind, deadLastType, hlast]
    cases oy with
    | localSet l =>
      simp only [Op.storedLocal?, Option.some.injEq, Op.isLocalSet, if_true, hput, pure,
        Except.pure]
      split <;> rfl
    | localTee l =>
      simp only [Op.storedLocal?, Option.some.injEq, Op.isLocalSet, hremove, pure, Except.pure]
      split <;> rfl
    | _ => rfl

/-! ## 4. All rules

One equation for each rule, put together by cases on the rule. -/

/-- Tries a rule at a position, with the regions open there. -/
def attempt (verbose : Bool) (s : Scope) (n : Nesting) (body : Body) (i : Nat) :
    Rule → Checked (Option Edit)
  | .setGet => onPair setGetPattern body i
  | .getDrop => onPair getDropPattern body i
  | .teeDrop => onPair teeDropPattern body i
  | .constDrop => onPair constDropPattern body i
  | .eqz => onPair eqzPattern body i
  | .extendWrap => onPair extendWrapPattern body i
  | .convertTrunc => onPair convertTruncPattern body i
  | .foldTrunc => onPair foldTruncPattern body i
  | .foldConvert => onPair foldConvertPattern body i
  | .tailCall => onPair (tailCallPattern s n) body i
  | .loopIncrement => loopIncrementAt n body i
  | .postIncrement => postIncrementAt s n body i
  | .paramShuffle => paramShuffleAt body i
  | .transparentBlock => transparentBlockAt body i
  | .deadTypeCase => deadTypeCaseAt verbose s body i
  | .emptyTypeSwitch => emptyTypeSwitchAt body i
  | .deadLastType => deadLastTypeAt s body i

/-- **A rule by position** never fails, and does to the body what the rule does to a cursor. -/
theorem attempt_eq (verbose : Bool) (s : Scope) (y : Instr) (seen rest : Body) (r : Rule) :
    attempt verbose s (Nesting.ofReversed (y :: seen)) (seen.reverse ++ y :: rest) seen.length r
      = .ok ((reduceAt s ⟨y :: seen, rest⟩ r).map
          (Edit.ofCursor (Trace.shown verbose (announcement r y)))) := by
  cases r with
  | setGet =>
    exact onPair_eq _ setGet (fun _ => by obtain ⟨op, m⟩ := y; cases op <;> rfl)
      fun x below _ => setGet_pair
  | getDrop =>
    exact onPair_eq _ getDrop (fun _ => by obtain ⟨op, m⟩ := y; cases op <;> rfl)
      fun x below _ => getDrop_pair
  | teeDrop =>
    exact onPair_eq _ teeDrop (fun _ => by obtain ⟨op, m⟩ := y; cases op <;> rfl)
      fun x below _ => teeDrop_pair
  | constDrop =>
    exact onPair_eq _ constDrop (fun _ => by obtain ⟨op, m⟩ := y; cases op <;> rfl)
      fun x below _ => constDrop_pair
  | eqz =>
    exact onPair_eq _ eqz (fun _ => by unfold eqz; split <;> simp_all)
      fun x below _ => eqz_pair
  | extendWrap =>
    exact onPair_eq _ extendWrap (fun _ => by unfold extendWrap; split <;> simp_all)
      fun x below _ => extendWrap_pair
  | convertTrunc =>
    exact onPair_eq _ convertTrunc (fun _ => by obtain ⟨op, m⟩ := y; cases op <;> rfl)
      fun x below _ => convertTrunc_pair
  | foldTrunc =>
    exact onPair_eq _ foldTrunc (fun _ => by obtain ⟨op, m⟩ := y; cases op <;> rfl)
      fun x below _ => foldTrunc_pair
  | foldConvert =>
    exact onPair_eq _ foldConvert (fun _ => by obtain ⟨op, m⟩ := y; cases op <;> rfl)
      fun x below _ => foldConvert_pair
  | tailCall =>
    exact onPair_eq _ (tailCall s) (fun _ => by obtain ⟨op, m⟩ := y; cases op <;> rfl)
      fun x below e => by subst e; exact tailCall_pair s
  | loopIncrement => exact loopIncrementAt_eq y seen rest
  | postIncrement => exact postIncrementAt_eq s y seen rest
  | paramShuffle => exact paramShuffleAt_eq y seen rest
  | transparentBlock => exact transparentBlockAt_eq y seen rest
  | deadTypeCase => exact deadTypeCaseAt_eq verbose s y seen rest
  | emptyTypeSwitch => exact emptyTypeSwitchAt_eq y seen rest
  | deadLastType => exact deadLastTypeAt_eq s y seen rest

end WasmTrim.Positional
