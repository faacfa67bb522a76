/-
# The peephole rules by position

Each rule here looks at a position of the body, at positions before it and after it, and changes
the body in place: it overwrites, removes and cuts out instructions at positions that it computes.
A rule that applies tells the position from which the scan goes on.

None of these accesses can fail, whatever the body looks like: a rule touches only what it has just
seen.  This module has the rules on a few neighbouring instructions; each does to the body what the
rule of the same name does to a cursor (`onPair_eq`, `loopIncrementAt_eq`, `postIncrementAt_eq`).

A rule by position is written as it is carried out.  It asks for a window of instructions that ends
at its position, and does not apply if there are not that many; it compares them with what it is
looking for; and if they match it changes the body and names the position from which to go on.  A
rule on a cursor does all of this with one pattern.  The two are compared on a body that is cut at
the position, where the window is the last of the instructions already seen (`window_at`).

That a rule does not apply has to be shown as well, and is the longer half where the pattern is
long: the increments look at up to seven instructions, some before and some behind the focus.
-/
import WasmTrim.Event
import WasmTrim.Peephole.Reduction
import WasmTrim.Proofs.Positional.Access

namespace WasmTrim.Positional

open Peephole

/-! ## 1. Outcomes

A rule that announces itself does so only if everything is to be reported, so the announcement is
part of the outcome and not of the change. -/

/-- What a rule that applies gives: the new body, where to go on, and what it reports itself. -/
structure Edit where
  body : Body
  resume : Nat
  report : Trace

/-- Reports an event if everything is to be reported, as the source does in each place where it logs
something that is not a warning. -/
def note (verbose : Bool) (e : Event) : Trace := if verbose then [e] else []

theorem note_eq {e : Event} (h : e.isWarning = false) (verbose : Bool) :
    note verbose e = Trace.shown verbose [e] := by
  cases verbose <;> simp [note, Trace.shown, h]

/-- The outcome of a rule on a cursor, as the outcome of a rule by position. -/
def Edit.ofCursor (report : Trace) (c : Cursor) : Edit := ⟨c.body, c.seen.length, report⟩

/-! ## 2. Rules on two instructions

Ten rules look at two operations and do one of a few things with them.  They are one definition,
which is given for each rule what it makes of a pair of operations (`set_get`, `get_drop`,
`tee_drop`, `const_drop`, `eqz`, `extend_wrap`, `convert_trunc`, `fold_trunc`, `fold_convert`,
`tail_call`). -/

/-- What becomes of two instructions: they vanish, or one of them stays with another operation and
with its marker. -/
inductive PairEdit where
  | vanish
  /-- The first stays with another operation. -/
  | keepFirst (op : Op)
  /-- The second stays with another operation. -/
  | keepSecond (op : Op)

/-- What is left of the two: nothing, or one instruction with the marker of the one it replaces. -/
def PairEdit.rest (x y : Instr) : PairEdit → Body
  | vanish => []
  | keepFirst op => [{ x with op }]
  | keepSecond op => [{ y with op }]

/-- Changes the two instructions that end at a position, and goes on at the first of the two places.
-/
def PairEdit.perform (body : Body) (i : Nat) : PairEdit → Checked Edit
  | vanish => do
    let j ← sub i 1
    let body ← splice body j (i + 1) []
    return ⟨body, j, []⟩
  | keepFirst op => do
    let j ← sub i 1
    let x ← item body j
    let body ← put body j { x with op }
    let body ← remove body i
    return ⟨body, j, []⟩
  | keepSecond op => do
    let y ← item body i
    let body ← put body i { y with op }
    let j ← sub i 1
    let body ← remove body j
    return ⟨body, j, []⟩

/-- A rule that looks at the operations of two instructions, at its position and right before it.
The pattern says whether it applies and what it does. -/
def onPair (pattern : Op → Op → Option PairEdit) (body : Body) (i : Nat) : Checked (Option Edit) :=
  match window 2 body i with
  | some [x, y] =>
    match pattern x.op y.op with
    | some e => do
      let edit ← e.perform body i
      return some edit
    | none => .ok none
  | _ => .ok none

def setGetPattern (x y : Op) : Option PairEdit :=
  match y, x with
  | .localGet read, .localSet written =>
    if written = read then some (.keepFirst (.localTee written)) else none
  | _, _ => none

def getDropPattern (x y : Op) : Option PairEdit :=
  match y, x with
  | .drop, .localGet _ | .drop, .globalGet _ => some .vanish
  | _, _ => none

def teeDropPattern (x y : Op) : Option PairEdit :=
  match y, x with
  | .drop, .localTee l => some (.keepFirst (.localSet l))
  | _, _ => none

def constDropPattern (x y : Op) : Option PairEdit :=
  match y, x with
  | .drop, .const _ => some .vanish
  | _, _ => none

def eqzPattern (x y : Op) : Option PairEdit :=
  match y, x with
  | .num .i32Eq, .const (.i32 v) => if v = 0 then some (.keepSecond (.num .i32Eqz)) else none
  | .num .i64Eq, .const (.i64 v) => if v = 0 then some (.keepSecond (.num .i64Eqz)) else none
  | _, _ => none

def extendWrapPattern (x y : Op) : Option PairEdit :=
  match y, x with
  | .num .i32WrapI64, .num op =>
    if op = .i64ExtendI32S ∨ op = .i64ExtendI32U then some .vanish else none
  | _, _ => none

def convertTruncPattern (x y : Op) : Option PairEdit :=
  match y, x with
  | .num trunc, .num convert => if undoes trunc convert then some .vanish else none
  | _, _ => none

def foldTruncPattern (x y : Op) : Option PairEdit :=
  match y, x with
  | .num op, .const (.f64 x) => (op.truncate? x).map fun v => .keepFirst (.const v)
  | _, _ => none

def foldConvertPattern (x y : Op) : Option PairEdit :=
  match y, x with
  | .num op, .const v => (op.convert? v).map fun x => .keepFirst (.const (.f64 x))
  | _, _ => none

def tailCallPattern (s : Scope) (n : Nesting) (x y : Op) : Option PairEdit :=
  match y, x with
  | .ret, .call target =>
    if s.tailCalls && !n.insideTry && s.resultsOf target = some s.results then
      some (.keepFirst (.returnCall target))
    else none
  | _, _ => none

/-- The edit never fails on two instructions that are there. -/
theorem PairEdit.perform_at (e : PairEdit) (a b : Body) (x y : Instr) :
    e.perform (a ++ x :: y :: b) (a.length + 1) = .ok ⟨a ++ (e.rest x y ++ b), a.length, []⟩ := by
  have hx := item_at a x (y :: b) rfl rfl
  have hy : item (a ++ x :: y :: b) (a.length + 1) = .ok y :=
    item_at (a ++ [x]) y b (by simp) (by simp)
  cases e with
  | vanish =>
    have hcut : splice (a ++ x :: y :: b) a.length (a.length + 1 + 1) [] = .ok (a ++ [] ++ b) :=
      splice_at a [x, y] b (by simp) rfl (by simp) []
    simp only [perform, sub_add, bind, Except.bind, hcut, pure, Except.pure, rest,
      List.append_nil, List.nil_append]
  | keepFirst op =>
    have hput := put_at a x (y :: b) rfl rfl { x with op }
    have hcut : remove (a ++ { x with op } :: y :: b) (a.length + 1)
        = .ok (a ++ [{ x with op }] ++ b) := remove_at _ y b (by simp) (by simp)
    simp only [perform, sub_add, bind, Except.bind, hx, hput, hcut, pure, Except.pure, rest,
      List.append_assoc]
  | keepSecond op =>
    have hput : put (a ++ x :: y :: b) (a.length + 1) { y with op }
        = .ok (a ++ [x] ++ { y with op } :: b) := put_at _ y b (by simp) (by simp) _
    have hcut : remove (a ++ [x] ++ { y with op } :: b) a.length = .ok (a ++ { y with op } :: b) :=
      remove_at a x _ (by simp) rfl
    simp only [perform, sub_add, bind, Except.bind, hy, hput, hcut, pure, Except.pure, rest]
    rfl

/-- **A rule on two instructions by position** does to the body what it does to a cursor. -/
theorem onPair_eq (pattern : Op → Op → Option PairEdit) (rule : Cursor → Option Cursor)
    {y : Instr} {seen rest : Body} (hone : seen = [] → rule ⟨[y], rest⟩ = none)
    (htwo : ∀ x below, seen = x :: below → rule ⟨y :: x :: below, rest⟩
      = (pattern x.op y.op).map fun e => ⟨below, e.rest x y ++ rest⟩) :
    onPair pattern (seen.reverse ++ y :: rest) seen.length
      = .ok ((rule ⟨y :: seen, rest⟩).map (Edit.ofCursor [])) := by
  cases seen with
  | nil => rw [onPair, window_of_lt (by simp), hone rfl]; rfl
  | cons x seen =>
    have hbody : (x :: seen).reverse ++ y :: rest = seen.reverse ++ x :: y :: rest := by simp
    have hlength : (x :: seen).length = seen.reverse.length + 1 := by simp
    have hwindow : window 2 (seen.reverse ++ x :: y :: rest) (seen.reverse.length + 1)
        = some [x, y] := window_at seen.reverse [x, y] rest (by simp) (by simp) rfl
    rw [hbody, hlength, onPair, hwindow, htwo x seen rfl]
    dsimp only
    cases pattern x.op y.op with
    | none => rfl
    | some e =>
      dsimp only
      rw [PairEdit.perform_at]
      simp only [bind, Except.bind, pure, Except.pure, Option.map_some, Edit.ofCursor, Cursor.body,
        List.length_reverse]

section

variable {x y : Instr} {seen rest : Body}

theorem setGet_pair : setGet ⟨y :: x :: seen, rest⟩
    = (setGetPattern x.op y.op).map fun e => ⟨seen, e.rest x y ++ rest⟩ := by
  obtain ⟨ox, mx⟩ := x
  obtain ⟨oy, my⟩ := y
  cases oy with
  | localGet read =>
    cases ox with
    | localSet written =>
      simp only [setGet, setGetPattern]
      split <;> rfl
    | _ => rfl
  | _ => rfl

theorem getDrop_pair : getDrop ⟨y :: x :: seen, rest⟩
    = (getDropPattern x.op y.op).map fun e => ⟨seen, e.rest x y ++ rest⟩ := by
  obtain ⟨ox, mx⟩ := x
  obtain ⟨oy, my⟩ := y
  cases oy with
  | drop => cases ox <;> rfl
  | _ => rfl

theorem teeDrop_pair : teeDrop ⟨y :: x :: seen, rest⟩
    = (teeDropPattern x.op y.op).map fun e => ⟨seen, e.rest x y ++ rest⟩ := by
  obtain ⟨ox, mx⟩ := x
  obtain ⟨oy, my⟩ := y
  cases oy with
  | drop => cases ox <;> rfl
  | _ => rfl

theorem constDrop_pair : constDrop ⟨y :: x :: seen, rest⟩
    = (constDropPattern x.op y.op).map fun e => ⟨seen, e.rest x y ++ rest⟩ := by
  obtain ⟨ox, mx⟩ := x
  obtain ⟨oy, my⟩ := y
  cases oy with
  | drop => cases ox <;> rfl
  | _ => rfl

theorem eqz_pair : eqz ⟨y :: x :: seen, rest⟩
    = (eqzPattern x.op y.op).map fun e => ⟨seen, e.rest x y ++ rest⟩ := by
  obtain ⟨ox, mx⟩ := x
  obtain ⟨oy, my⟩ := y
  cases oy with
  | num op =>
    -- each width has its own test, and its own constant before the comparison
    cases op with
    | i32Eq =>
      cases ox with
      | const v =>
        cases v with
        | i32 bits =>
          simp only [eqz, eqzPattern]
          split <;> rfl
        | _ => rfl
      | _ => rfl
    | i64Eq =>
      cases ox with
      | const v =>
        cases v with
        | i64 bits =>
          simp only [eqz, eqzPattern]
          split <;> rfl
        | _ => rfl
      | _ => rfl
    | _ => rfl
  | _ => rfl

theorem extendWrap_pair : extendWrap ⟨y :: x :: seen, rest⟩
    = (extendWrapPattern x.op y.op).map fun e => ⟨seen, e.rest x y ++ rest⟩ := by
  obtain ⟨ox, mx⟩ := x
  obtain ⟨oy, my⟩ := y
  cases oy with
  | num op =>
    cases op with
    | i32WrapI64 =>
      cases ox with
      | num widened =>
        simp only [extendWrap, extendWrapPattern]
        split <;> rfl
      | _ => rfl
    | _ => rfl
  | _ => rfl

theorem convertTrunc_pair : convertTrunc ⟨y :: x :: seen, rest⟩
    = (convertTruncPattern x.op y.op).map fun e => ⟨seen, e.rest x y ++ rest⟩ := by
  obtain ⟨ox, mx⟩ := x
  obtain ⟨oy, my⟩ := y
  cases oy with
  | num narrowed =>
    cases ox with
    | num converted =>
      simp only [convertTrunc, convertTruncPattern]
      split <;> rfl
    | _ => rfl
  | _ => rfl

theorem foldTrunc_pair : foldTrunc ⟨y :: x :: seen, rest⟩
    = (foldTruncPattern x.op y.op).map fun e => ⟨seen, e.rest x y ++ rest⟩ := by
  obtain ⟨ox, mx⟩ := x
  obtain ⟨oy, my⟩ := y
  cases oy with
  | num op =>
    cases ox with
    | const v =>
      cases v with
      | f64 double =>
        simp only [foldTrunc, foldTruncPattern, Option.map_map]
        rfl
      | _ => rfl
    | _ => rfl
  | _ => rfl

theorem foldConvert_pair : foldConvert ⟨y :: x :: seen, rest⟩
    = (foldConvertPattern x.op y.op).map fun e => ⟨seen, e.rest x y ++ rest⟩ := by
  obtain ⟨ox, mx⟩ := x
  obtain ⟨oy, my⟩ := y
  cases oy with
  | num op =>
    cases ox with
    | const v =>
      simp only [foldConvert, foldConvertPattern, Option.map_map]
      rfl
    | _ => rfl
  | _ => rfl

theorem tailCall_pair (s : Scope) : tailCall s ⟨y :: x :: seen, rest⟩
    = (tailCallPattern s (Nesting.ofReversed (y :: x :: seen)) x.op y.op).map
      fun e => ⟨seen, e.rest x y ++ rest⟩ := by
  obtain ⟨ox, mx⟩ := x
  obtain ⟨oy, my⟩ := y
  cases oy with
  | ret =>
    cases ox with
    | call target =>
      -- neither the call nor the return moves the nesting
      have hn : Nesting.ofReversed (⟨.ret, my⟩ :: ⟨.call target, mx⟩ :: seen)
          = Nesting.ofReversed seen := rfl
      simp only [tailCall, tailCallPattern, hn]
      split <;> rfl
    | _ => rfl
  | _ => rfl

end

/-! ## 3. Increments

A local that is read, increased by a constant and written back, where its old value is read once
more than is needed (`increment_tail`, `loop_increment`, `post_increment`). -/

/-- What follows a constant, an increment and a store to the local, from a position on. -/
def incrementTail (body : Body) (i : Nat) (index : Nat) : Option Op :=
  match (body.drop i).take 4 with
  | [⟨.const _, _⟩, ⟨.num op, _⟩, ⟨.localSet written, _⟩, last] =>
    if op.isIncrement ∧ written = index then some last.op else none
  | _ => none

def loopIncrementAt (n : Nesting) (body : Body) (i : Nat) : Checked (Option Edit) :=
  if n.depth ≠ 2 then .ok none
  else
    match window 3 body i with
    | some [x, y, z] =>
      match z.op, y.op, x.op with
      | .localGet second, .localGet first, .close =>
        if first = second ∧ incrementTail body (i + 1) first = some .drop then do
          let body ← remove body (i + 4)
          let body ← remove body i
          return some ⟨body, i, []⟩
        else .ok none
      | _, _, _ => .ok none
    | _ => .ok none

def postIncrementAt (s : Scope) (n : Nesting) (body : Body) (i : Nat) : Checked (Option Edit) :=
  if i < 4 then .ok none
  else
    match window 2 body (i - 4) with
    | some [x, y] =>
      match y.op, x.op with
      | .localGet second, .localGet first =>
        if first = second then do
          let start ← sub i 5
          let tail ← sub i 3
          match incrementTail body tail first with
          | some .drop => do
            let body ← remove body i
            let body ← remove body start
            return some ⟨body, start, []⟩
          | some (.br label) => do
            let arity ← labelArity n label s.results
            if arity = 0 then do
              let body ← remove body start
              return some ⟨body, start, []⟩
            else .ok none
          | _ => .ok none
        else .ok none
      | _, _ => .ok none
    | _ => .ok none

/-- **When something follows an increment**: there are a constant, an addition or subtraction and a
store to the local from the position on, and one instruction more, whose operation is the answer. -/
theorem incrementTail_eq_some {i index : Nat} {body : Body} {op : Op} (a b : Body)
    (hbody : body = a ++ b) (hi : i = a.length) : incrementTail body i index = some op ↔
      ∃ v mv o mo mw last rest, b = ⟨.const v, mv⟩ :: ⟨.num o, mo⟩ :: ⟨.localSet index, mw⟩
        :: last :: rest ∧ o.isIncrement ∧ last.op = op := by
  subst hbody hi
  rw [incrementTail, List.drop_left]
  constructor
  · intro h
    split at h
    · rename_i v mv o mo written mw last e
      split at h
      · rename_i hc
        obtain ⟨hinc, rfl⟩ := hc
        refine ⟨v, mv, o, mo, mw, last, b.drop 4, ?_, hinc, Option.some.inj h⟩
        rw [← List.take_append_drop 4 b, e]
        simp
      · cases h
    · cases h
  · rintro ⟨v, mv, o, mo, mw, last, rest, rfl, hinc, rfl⟩
    simp [hinc]

/-- Behind the end of a region at the outermost level, two reads of locals start the cut-down
increment exactly when they read one local and the rest of it follows. -/
theorem loopIncrementAt_reads {first second : Nat} {mz mx my : Option Marker} {seen rest : Body}
    (hd : (Nesting.ofReversed (⟨.localGet second, my⟩ :: ⟨.localGet first, mx⟩ ::
      ⟨.close, mz⟩ :: seen)).depth = 2) :
    loopIncrementAt (Nesting.ofReversed (⟨.localGet second, my⟩ :: ⟨.localGet first, mx⟩ ::
        ⟨.close, mz⟩ :: seen))
      ((⟨.localGet first, mx⟩ :: ⟨.close, mz⟩ :: seen).reverse ++ ⟨.localGet second, my⟩ :: rest)
      (seen.length + 2)
      = .ok ((loopIncrement
          ⟨⟨.localGet second, my⟩ :: ⟨.localGet first, mx⟩ :: ⟨.close, mz⟩ :: seen, rest⟩).map
        (Edit.ofCursor [])) := by
  have hwindow : window 3 ((⟨.localGet first, mx⟩ :: ⟨.close, mz⟩ :: seen).reverse
      ++ ⟨.localGet second, my⟩ :: rest) (seen.length + 2)
      = some [⟨.close, mz⟩, ⟨.localGet first, mx⟩, ⟨.localGet second, my⟩] :=
    window_at seen.reverse _ rest (by simp) (by simp) rfl
  rw [loopIncrementAt, if_neg (not_not_intro hd), hwindow]
  have htail := @incrementTail_eq_some (seen.length + 2 + 1) first _ .drop
    ((⟨.localGet first, mx⟩ :: ⟨.close, mz⟩ :: seen).reverse ++ [⟨.localGet second, my⟩]) rest
    (List.append_cons _ _ _) (by simp)
  dsimp only
  split
  · rename_i hc
    obtain ⟨rfl, hc⟩ := hc
    obtain ⟨v, mv, o, mo, mw, ⟨_, ml⟩, rest, rfl, hinc, rfl⟩ := htail.mp hc
    have hdrop := remove_at ((⟨.localGet first, mx⟩ :: ⟨.close, mz⟩ :: seen).reverse
      ++ [⟨.localGet first, my⟩, ⟨.const v, mv⟩, ⟨.num o, mo⟩, ⟨.localSet first, mw⟩])
      ⟨.drop, ml⟩ rest (l := (⟨.localGet first, mx⟩ :: ⟨.close, mz⟩ :: seen).reverse ++
        ⟨.localGet first, my⟩ :: ⟨.const v, mv⟩ :: ⟨.num o, mo⟩ :: ⟨.localSet first, mw⟩
          :: ⟨.drop, ml⟩ :: rest) (i := seen.length + 2 + 4) (by simp) (by simp)
    have hget := remove_at (⟨.localGet first, mx⟩ :: ⟨.close, mz⟩ :: seen).reverse
      ⟨.localGet first, my⟩ (⟨.const v, mv⟩ :: ⟨.num o, mo⟩ :: ⟨.localSet first, mw⟩ :: rest)
      (l := (⟨.localGet first, mx⟩ :: ⟨.close, mz⟩ :: seen).reverse
        ++ [⟨.localGet first, my⟩, ⟨.const v, mv⟩, ⟨.num o, mo⟩, ⟨.localSet first, mw⟩] ++ rest)
      (i := seen.length + 2) (by simp) (by simp)
    have hd' : (Nesting.ofReversed (⟨.close, mz⟩ :: seen)).depth = 2 := hd
    simp only [bind, Except.bind, hdrop, hget, pure, Except.pure, loopIncrement, hinc, hd',
      and_self, if_true, Option.map_some, Edit.ofCursor, Cursor.body, List.length_cons]
  · rename_i hc
    unfold loopIncrement
    split
    · rename_i e
      simp only [Cursor.mk.injEq, List.cons.injEq, Instr.mk.injEq, Op.localGet.injEq] at e
      obtain ⟨⟨⟨rfl, -⟩, ⟨rfl, -⟩, -⟩, rfl⟩ := e
      rw [if_neg]
      · rfl
      · rintro ⟨rfl, rfl, hinc, -⟩
        exact hc ⟨rfl, htail.mpr ⟨_, _, _, _, _, _, _, rfl, hinc, rfl⟩⟩
    · rfl

theorem loopIncrementAt_eq (y : Instr) (seen rest : Body) :
    loopIncrementAt (Nesting.ofReversed (y :: seen)) (seen.reverse ++ y :: rest) seen.length
      = .ok ((loopIncrement ⟨y :: seen, rest⟩).map (Edit.ofCursor [])) := by
  obtain ⟨oy, my⟩ := y
  by_cases hd : (Nesting.ofReversed (⟨oy, my⟩ :: seen)).depth = 2
  · rw [loopIncrementAt, if_neg (not_not_intro hd)]
    match seen with
    | [] =>
      rw [window_of_lt (by simp)]
      cases oy <;> rfl
    | [⟨ox, mx⟩] =>
      rw [window_of_lt (by simp)]
      cases oy with
      | localGet read => cases ox <;> rfl
      | _ => rfl
    | ⟨ox, mx⟩ :: ⟨oz, mz⟩ :: seen =>
      have hwindow : window 3 ((⟨ox, mx⟩ :: ⟨oz, mz⟩ :: seen).reverse ++ ⟨oy, my⟩ :: rest)
          (seen.length + 2) = some [⟨oz, mz⟩, ⟨ox, mx⟩, ⟨oy, my⟩] :=
        window_at seen.reverse _ rest (by simp) (by simp) rfl
      rw [List.length_cons, List.length_cons, hwindow]
      dsimp only
      cases oy with
      | localGet second =>
        cases ox with
        | localGet first =>
          cases oz with
          | close =>
            have hreads := @loopIncrementAt_reads first second mz mx my seen rest hd
            rwa [loopIncrementAt, if_neg (not_not_intro hd), hwindow] at hreads
          | _ => rfl
        | _ => rfl
      | _ => rfl
  · rw [loopIncrementAt, if_pos hd]
    unfold loopIncrement
    split
    · rename_i e
      simp only [Cursor.mk.injEq, List.cons.injEq, Instr.mk.injEq] at e
      obtain ⟨⟨⟨rfl, -⟩, rfl⟩, -⟩ := e
      rw [if_neg fun hc => hd hc.2.2.2]
      rfl
    · rfl

/-- Five instructions that read a local twice and increment it. -/
structure Increments (f g a b c : Instr) (l : Nat) : Prop where
  first : f.op = .localGet l
  second : g.op = .localGet l
  const : ∃ v, a.op = .const v
  step : ∃ o, b.op = .num o ∧ o.isIncrement
  store : c.op = .localSet l

theorem postIncrement_eq_none {s : Scope} {y : Instr} {seen rest : Body}
    (h : ¬ ∃ f g a b c below l, seen = c :: b :: a :: g :: f :: below ∧ Increments f g a b c l) :
    postIncrement s ⟨y :: seen, rest⟩ = none := by
  unfold postIncrement
  split
  · rename_i e
    simp only [Cursor.mk.injEq, List.cons.injEq] at e
    obtain ⟨⟨-, rfl⟩, -⟩ := e
    rw [if_neg]
    rintro ⟨rfl, rfl, hinc⟩
    exact h ⟨_, _, _, _, _, _, _, rfl, rfl, rfl, ⟨_, rfl⟩, ⟨_, rfl, hinc⟩, rfl⟩
  · rfl

/-- When the increment is not there, the rule by position sees that too. -/
theorem postIncrementAt_eq_none {s : Scope} {n : Nesting} {y : Instr} {seen rest : Body}
    (h : ¬ ∃ f g a b c below l, seen = c :: b :: a :: g :: f :: below ∧ Increments f g a b c l) :
    postIncrementAt s n (seen.reverse ++ y :: rest) seen.length = .ok none := by
  match seen with
  | [] | [_] | [_, _] | [_, _, _] => rfl
  | [_, _, _, _] => rw [postIncrementAt, if_neg (by simp), window_of_lt (by simp)]
  | c :: b :: a :: ⟨og, mg⟩ :: ⟨of, mf⟩ :: seen =>
    have hbody : (c :: b :: a :: ⟨og, mg⟩ :: ⟨of, mf⟩ :: seen).reverse ++ y :: rest
        = seen.reverse ++ ([⟨of, mf⟩, ⟨og, mg⟩] ++ a :: b :: c :: y :: rest) := by simp
    have hlength : (c :: b :: a :: ⟨og, mg⟩ :: ⟨of, mf⟩ :: seen).length = seen.length + 5 := rfl
    have hwindow : window 2 (seen.reverse ++ ([⟨of, mf⟩, ⟨og, mg⟩] ++ a :: b :: c :: y :: rest))
        (seen.length + 5 - 4) = some [⟨of, mf⟩, ⟨og, mg⟩] :=
      window_at seen.reverse _ _ rfl (by simp) rfl
    rw [hbody, hlength, postIncrementAt, if_neg (by omega), hwindow]
    cases og with
    | localGet second =>
      cases of with
      | localGet first =>
        dsimp only
        split
        · rename_i hsame
          subst hsame
          have hnone : incrementTail (seen.reverse ++ ([⟨.localGet first, mf⟩,
              ⟨.localGet first, mg⟩] ++ a :: b :: c :: y :: rest)) (seen.length + 2) first
              = none := by
            refine Option.eq_none_iff_forall_ne_some.mpr fun op hop => ?_
            obtain ⟨v, mv, o, mo, mw, last, rest, e, hinc, -⟩ := (incrementTail_eq_some
              (seen.reverse ++ [⟨.localGet first, mf⟩, ⟨.localGet first, mg⟩])
              (a :: b :: c :: y :: rest) (by simp) (by simp)).mp hop
            simp only [List.cons.injEq] at e
            obtain ⟨rfl, rfl, rfl, -⟩ := e
            exact h ⟨_, _, _, _, _, _, _, rfl, rfl, rfl, ⟨_, rfl⟩, ⟨_, rfl, hinc⟩, rfl⟩
          have htail : sub (seen.length + 5) 3 = .ok (seen.length + 2) := sub_add _ 3
          simp only [sub_add, htail, bind, Except.bind, hnone]
        · rfl
      | _ => rfl
    | _ => rfl

theorem postIncrementAt_eq (s : Scope) (y : Instr) (seen rest : Body) :
    postIncrementAt s (Nesting.ofReversed (y :: seen)) (seen.reverse ++ y :: rest) seen.length
      = .ok ((postIncrement s ⟨y :: seen, rest⟩).map (Edit.ofCursor [])) := by
  by_cases h : ∃ f g a b c below l, seen = c :: b :: a :: g :: f :: below ∧ Increments f g a b c l
  · obtain ⟨⟨_, mf⟩, ⟨_, mg⟩, ⟨_, ma⟩, ⟨_, mb⟩, ⟨_, mc⟩, seen, l, rfl,
      ⟨rfl, rfl, ⟨v, rfl⟩, ⟨o, rfl, hinc⟩, rfl⟩⟩ := h
    have hbody : (⟨.localSet l, mc⟩ :: ⟨.num o, mb⟩ :: ⟨.const v, ma⟩ :: ⟨.localGet l, mg⟩
          :: ⟨.localGet l, mf⟩ :: seen).reverse ++ y :: rest
        = seen.reverse ++ ⟨.localGet l, mf⟩ :: ⟨.localGet l, mg⟩ :: ⟨.const v, ma⟩
          :: ⟨.num o, mb⟩ :: ⟨.localSet l, mc⟩ :: y :: rest := by simp
    have hwindow : window 2 (seen.reverse ++ ⟨.localGet l, mf⟩ :: ⟨.localGet l, mg⟩
          :: ⟨.const v, ma⟩ :: ⟨.num o, mb⟩ :: ⟨.localSet l, mc⟩ :: y :: rest)
          (seen.length + 5 - 4)
        = some [⟨.localGet l, mf⟩, ⟨.localGet l, mg⟩] :=
      window_at seen.reverse _ _ (by simp; rfl) (by simp) rfl
    have htail : sub (seen.length + 5) 3 = .ok (seen.length + 2) := sub_add (seen.length + 2) 3
    have hinc' : incrementTail (seen.reverse ++ ⟨.localGet l, mf⟩ :: ⟨.localGet l, mg⟩
          :: ⟨.const v, ma⟩ :: ⟨.num o, mb⟩ :: ⟨.localSet l, mc⟩ :: y :: rest)
          (seen.length + 2) l
        = some y.op :=
      (incrementTail_eq_some (seen.reverse ++ [⟨.localGet l, mf⟩, ⟨.localGet l, mg⟩]) _ (by simp)
        (by simp)).mpr ⟨v, ma, o, mb, mc, y, rest, rfl, hinc, rfl⟩
    rw [hbody]
    simp only [List.length_cons, Nat.add_assoc, Nat.reduceAdd]
    rw [postIncrementAt, if_neg (by omega), hwindow]
    simp only [sub_add, htail, bind, Except.bind, hinc', if_true]
    have hget : ∀ tail, remove (seen.reverse ++ ⟨.localGet l, mf⟩ :: tail) seen.length
        = .ok (seen.reverse ++ tail) :=
      fun tail => remove_at seen.reverse _ tail rfl (by simp)
    obtain ⟨oy, my⟩ := y
    cases oy with
    | drop =>
      have hdrop := remove_at
        (seen.reverse ++ [⟨.localGet l, mf⟩, ⟨.localGet l, mg⟩, ⟨.const v, ma⟩, ⟨.num o, mb⟩,
          ⟨.localSet l, mc⟩])
        ⟨.drop, my⟩ rest
        (l := seen.reverse ++ ⟨.localGet l, mf⟩ :: ⟨.localGet l, mg⟩ :: ⟨.const v, ma⟩
          :: ⟨.num o, mb⟩ :: ⟨.localSet l, mc⟩ :: ⟨.drop, my⟩ :: rest)
        (i := seen.length + 5) (by simp) (by simp)
      simp only [hdrop, List.append_assoc, List.cons_append, hget, pure, Except.pure,
        postIncrement, hinc, and_self, if_true, Option.map_some, Edit.ofCursor, Cursor.body,
        List.nil_append]
    | br label =>
      have hn : Nesting.ofReversed (⟨.br label, my⟩ :: ⟨.localSet l, mc⟩ :: ⟨.num o, mb⟩
            :: ⟨.const v, ma⟩ :: ⟨.localGet l, mg⟩ :: ⟨.localGet l, mf⟩ :: seen)
          = Nesting.ofReversed seen := rfl
      simp only [hn, labelArity_eq, postIncrement, hinc, and_self, if_true]
      split
      · simp only [hget, pure, Except.pure, Option.map_some, Edit.ofCursor, Cursor.body]
      · rfl
    | _ => simp only [postIncrement, hinc, and_self, if_true, Option.map_none]
  · rw [postIncrement_eq_none h, postIncrementAt_eq_none h]
    rfl

end WasmTrim.Positional
